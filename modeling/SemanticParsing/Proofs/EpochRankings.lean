import SemanticParsing.Proofs.Epoch
/-! An epoch first ranks all examples that it visits, with the weights it starts from. If a ranking
stops, or outputs are to be compared and nothing makes them, the epoch fails. -/
namespace SemanticParsing

variable {σ α : Type} [Scalar α]

def Model.rankEach (model : Model σ α) (examples : List Example) :
    Action σ (List (List (Parse α))) :=
  examples.mapM fun e => model.rank e.input

namespace Learning

variable {model : Model σ α} {metric : Metric} {records : Bool} {p : Progress α}
  {examples : List Example} {state after : σ}

def Progress.visitEach (p : Progress α) (metric : Metric) (records : Bool)
    (ranked : List (Example × List (Parse α))) : Progress α :=
  ranked.foldl (fun p (e, parses) => p.visit metric records e parses) p

theorem visitAll_of_ranked {rankings : List (List (Parse α))}
    (h : (model.rankEach examples).run.run state = (.ok rankings, after)) :
    (visitAll model metric records examples p).run state =
      ((p.visitEach metric records (examples.zip rankings), none), after) := by
  induction examples generalizing p state rankings with
  | nil =>
    rw [Model.rankEach, List.mapM_nil, Action.run_pure] at h
    cases h
    rfl
  | cons e rest ih =>
    rw [Model.rankEach, List.mapM_cons] at h
    obtain ⟨parses, later, first, h⟩ := Action.of_run_bind_ok h
    obtain ⟨others, last, ranked, h⟩ := Action.of_run_bind_ok h
    rw [Action.run_pure] at h
    cases h
    rw [visitAll_cons, first]
    exact ih ranked

theorem visitAll_of_stopped {stop : Stop}
    (h : (model.rankEach examples).run.run state = (.error stop, after)) :
    ∃ q, (visitAll model metric records examples p).run state = ((q, some stop), after) := by
  induction examples generalizing p state with
  | nil =>
    rw [Model.rankEach, List.mapM_nil, Action.run_pure] at h
    cases h
  | cons e rest ih =>
    rw [Model.rankEach, List.mapM_cons] at h
    rw [visitAll_cons]
    obtain first | ⟨parses, later, first, h⟩ := Action.of_run_bind_error h
    · rw [first]
      exact ⟨p, rfl⟩
    · rw [first]
      obtain ranked | ⟨others, last, -, h⟩ := Action.of_run_bind_error h
      · exact ih ranked
      · rw [Action.run_pure] at h
        cases h

end Learning

namespace Learner

def rankings (learner : Learner σ α) : Action σ (List (List (Parse α))) :=
  learner.model.rankEach learner.visited

/-- Why the next epoch fails, if it does. -/
def failure? (learner : Learner σ α) (state : σ) : Option LearnError :=
  if learner.lacksExecutor then some .missingExecutor
  else match (learner.rankings.run.run state).1 with
    | .ok _ => none
    | .error stop => some (.stopped stop)

variable {learner : Learner σ α} {state : σ}

def progress (learner : Learner σ α) (rankings : List (List (Parse α))) : Learning.Progress α :=
  Learning.Progress.visitEach
    { generator := (learner.generator.permutation learner.examples.size).2
      vocabulary := learner.vocabulary }
    learner.config.metric learner.recordsVocabulary (learner.visited.zip rankings)

theorem runEpoch_of_success (h : learner.failure? state = none) :
    ∃ rankings after, learner.rankings.run.run state = (.ok rankings, after) ∧
      learner.runEpoch.run state = (learner.conclude (learner.progress rankings, none), after) := by
  rw [failure?] at h
  split at h
  case isTrue => cases h
  case isFalse lacks =>
    rw [runEpoch_eq, if_neg lacks]
    match ranked : learner.rankings.run.run state with
    | (.error stop, after) =>
      rw [ranked] at h
      cases h
    | (.ok rankings, after) =>
      refine ⟨rankings, after, rfl, ?_⟩
      rw [visits, Learning.visitAll_of_ranked ranked]
      rfl

/-- An epoch that fails keeps what it has drawn and recorded, but no change of the weights. -/
theorem runEpoch_of_failure {e : LearnError} (h : learner.failure? state = some e) :
    ∃ q after, learner.runEpoch.run state = ((learner.withProgress q, .error e), after) := by
  rw [failure?] at h
  rw [runEpoch_eq]
  split at h
  case isTrue lacks =>
    cases h
    refine ⟨⟨learner.generator, learner.vocabulary, 0, []⟩, state, ?_⟩
    rw [if_pos lacks]
    rfl
  case isFalse lacks =>
    rw [if_neg lacks]
    match ranked : learner.rankings.run.run state with
    | (.ok rankings, after) =>
      rw [ranked] at h
      cases h
    | (.error stop, after) =>
      rw [ranked] at h
      cases h
      obtain ⟨q, walk⟩ := Learning.visitAll_of_stopped ranked
      refine ⟨q, after, ?_⟩
      rw [visits, walk]
      rfl

end Learner

end SemanticParsing
