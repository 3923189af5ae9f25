import SemanticParsing.Proofs.EpochCalls
import SemanticParsing.Proofs.VocabularyPolicy
/-! Once all competitors have the counts of their targets, learning stands still. -/
namespace SemanticParsing

variable {σ α : Type}

/-- What executing a meaning gives is the same in every state. -/
def Model.FixedOutputs (model : Model σ α) : Prop :=
  ∀ before after v,
    ((model.execute v).run.run before).1 = ((model.execute v).run.run after).1

/-- No derivation has an infinite count or NaN for one. -/
def Model.FiniteCounts (model : Model σ Float) : Prop :=
  ∀ (state : σ) (d : Derivation) (name : String) (count : Float),
    (model.features state d)[name]? = some count → count.isFinite

/-- Every competitor of the example has the same number of every feature as the target. -/
def Decoding.Separated (parses : List (Parse Float)) (e : Example) (metric : Metric) : Prop :=
  ∀ target ∈ targetOf parses e metric, ∀ chosen ∈ competitorsOf parses e metric,
    ∀ name, (target.features.number name == chosen.features.number name) = true

theorem Model.actsLike_self {model : Model σ α} (fixed : model.FixedFeatures)
    (outputs : model.FixedOutputs) : model.ActsLike (fun _ _ => True) model where
  grammar := rfl
  hasExecutor := rfl
  features s t _ d := fixed t s d
  execute s t _ v := by
    have same := outputs s t v
    generalize (model.execute v).run.run s = left, (model.execute v).run.run t = right at same
    obtain ⟨result, after⟩ := left
    obtain ⟨_, after'⟩ := right
    cases same
    exact .intro result trivial

variable [Scalar α]

/-- A target that beats every other parse by the margin is its only competitor. -/
theorem Decoding.eq_of_alone {parses : List (Parse α)} {e : Example} {metric : Metric}
    {target chosen : Parse α}
    (alone : (ofParses parses e metric).competitors = (ofParses parses e metric).target.toList)
    (isTarget : targetOf parses e metric = some target)
    (competes : chosen ∈ competitorsOf parses e metric) : chosen = target := by
  obtain ⟨i, position, found⟩ := Option.bind_eq_some_iff.mp isTarget
  rw [competitorsOf, alone, position] at competes
  obtain ⟨j, same, found'⟩ := List.mem_filterMap.mp competes
  obtain rfl := List.mem_singleton.mp same
  exact Option.some_inj.mp (found'.symm.trans found)

/-- The ranked parses of a sentence, and none if the ranking stops. -/
def Model.parsesOf (model : Model σ α) (sentence : String) (state : σ) : List (Parse α) :=
  match ((model.rank sentence).run.run state).1 with
  | .ok parses => parses
  | .error _ => []

namespace Model

variable {model : Model σ α} {sentence : String} {state now last : σ}

theorem parsesOf_of_rank (fixed : model.FixedFeatures) (outputs : model.FixedOutputs)
    {parses : List (Parse α)}
    (h : (model.rank sentence).run.run state = (.ok parses, last)) (now : σ) :
    model.parsesOf sentence now = parses := by
  have twins : model.Twins [sentence] (fun _ _ => True) Eq model :=
    (actsLike_self fixed outputs).twins rfl
  have alike := twins.rank (List.mem_singleton_self sentence) (s := now) (t := state) trivial
  rw [parsesOf, alike.result, h]

theorem exists_features_of_mem_parsesOf {parse : Parse α}
    (member : parse ∈ model.parsesOf sentence now) :
    ∃ state d, parse.features = model.features state d := by
  rw [parsesOf] at member
  match ranked : (model.rank sentence).run.run now with
  | (.error stop, after) =>
    rw [ranked] at member
    cases member
  | (.ok parses, after) =>
    rw [ranked] at member
    obtain ⟨d, -, -, state, features⟩ := (scores_of_rank ranked).2 parse member
    exact ⟨state, d, features⟩

theorem rankEach_eq (fixed : model.FixedFeatures) (outputs : model.FixedOutputs)
    {examples : List Example} {rankings : List (List (Parse α))}
    (h : (model.rankEach examples).run.run state = (.ok rankings, last)) (now : σ) :
    rankings = examples.map fun e => model.parsesOf e.input now := by
  induction examples generalizing state rankings with
  | nil =>
    rw [rankEach, List.mapM_nil, Action.run_pure] at h
    cases h
    rfl
  | cons e rest ih =>
    rw [rankEach, List.mapM_cons] at h
    obtain ⟨parses, later, first, h⟩ := Action.of_run_bind_ok h
    obtain ⟨others, final, ranked, h⟩ := Action.of_run_bind_ok h
    rw [Action.run_pure] at h
    cases h
    rw [List.map_cons, parsesOf_of_rank fixed outputs first now, ih ranked]

theorem FiniteCounts.number {model : Model σ Float} (finite : model.FiniteCounts) (state : σ)
    (d : Derivation) (name : String) : ((model.features state d).number name).isFinite := by
  rw [Table.number_eq]
  cases entry : (model.features state d)[name]? with
  | none => decide
  | some count => exact finite state d name count entry

end Model

theorem Learning.applyAll_of_not_differs {eta : α} {names : List String}
    {pending : List (Contrast α)} {weights : Table α} (distinct : names.Nodup)
    (equal : ∀ c ∈ pending, ∀ name, c.differsAt name = false) :
    applyAll eta names pending weights = weights := by
  refine Std.ExtTreeMap.ext_getElem? fun name => ?_
  rw [getElem?_applyAll distinct]
  split
  · exact Contrast.foldl_moveEntry_of_not_differs fun c member => equal c member name
  · rfl

namespace Learner

/-- The features and outputs of the model are fixed and the counts finite. Ranked with the weights
as they are, every competitor of an example has the counts of its target. -/
structure Separated (learner : Learner σ Float) (now : σ) : Prop where
  features : learner.model.FixedFeatures
  counts : learner.model.FiniteCounts
  outputs : learner.model.FixedOutputs
  equal : ∀ e ∈ learner.examples,
    Decoding.Separated (learner.model.parsesOf e.input now) e learner.config.metric

/-- How many examples have a target and competitors. -/
def contests (learner : Learner σ Float) (now : σ) : Nat :=
  learner.examples.toList.countP fun e =>
    Learning.contested learner.config.metric e (learner.model.parsesOf e.input now)

/-- Every competitor of an example that has a target matches it. -/
def Matching (learner : Learner σ Float) (now : σ) : Prop :=
  ∀ e ∈ learner.examples,
    let parses := learner.model.parsesOf e.input now
    (Decoding.targetOf parses e learner.config.metric).isSome →
      ∀ chosen ∈ Decoding.competitorsOf parses e learner.config.metric,
        learner.config.metric.accepts chosen e = true

variable {learner : Learner σ Float} {now state : σ} {rankings : List (List (Parse Float))}

theorem zip_rankings (h : learner.Separated now)
    (ranked : (learner.rankings.run.run state).1 = .ok rankings) :
    learner.visited.zip rankings =
      learner.visited.map fun e => (e, learner.model.parsesOf e.input now) := by
  rw [Model.rankEach_eq h.features h.outputs (Prod.ext ranked rfl) now, List.zip,
    List.zipWith_map_right, List.zipWith_self]

namespace Separated

theorem not_differs (h : learner.Separated now)
    (ranked : (learner.rankings.run.run state).1 = .ok rankings) {c : Contrast Float}
    (member : c ∈ (learner.progress rankings).pending) (name : String) :
    c.differsAt name = false := by
  rw [progress, zip_rankings h ranked] at member
  obtain none | ⟨pair, inside, target, isTarget, chosen, competes, rfl⟩ :=
    Learning.mem_pending_visitEach member
  · cases none
  obtain ⟨e, visited, rfl⟩ := List.mem_map.mp inside
  have same := h.equal e (mem_visited.mp visited) target isTarget chosen competes name
  obtain ⟨before, d, features⟩ :=
    Model.exists_features_of_mem_parsesOf (Decoding.mem_of_targetOf isTarget)
  have finite : (target.features.number name).isFinite := by
    rw [features]
    exact h.counts.number before d name
  have zero : (target.features.number name - chosen.features.number name == 0.0) = true :=
    Decimal.sub_beq_zero finite same
  rw [Contrast.differsAt, Contrast.difference]
  exact congrArg (!·) zero

theorem model_next (h : learner.Separated now) (state : σ) :
    (learner.next.run state).1.learner.model = learner.model := by
  have takes := learner.takes_next state
  generalize (learner.next.run state).1 = step at takes
  cases takes with
  | idle | stop => rfl
  | report _ ranked =>
    refine congrArg (fun weights => { learner.model with weights }) ?_
    exact Learning.applyAll_of_not_differs (Learning.nodup_toList _) fun c member name =>
      h.not_differs ranked member name

theorem next (h : learner.Separated now) (state : σ) :
    (learner.next.run state).1.learner.Separated now := by
  have model := h.model_next state
  refine ⟨?_, ?_, ?_, ?_⟩
  · exact model ▸ h.features
  · exact model ▸ h.counts
  · exact model ▸ h.outputs
  · rw [model, config_next, examples_next]
    exact h.equal

theorem after (h : learner.Separated now) (states : Nat → σ) (n : Nat) :
    (learner.after states n).Separated now ∧ (learner.after states n).model = learner.model := by
  induction n with
  | zero => exact ⟨h, rfl⟩
  | succ n ih => exact ⟨ih.1.next (states n), (ih.1.model_next (states n)).trans ih.2⟩

theorem report_of_done (h : learner.Separated now) {report : EpochReport}
    (done : (learner.next.run state).1.answer = some (.ok report)) :
    report.updates = learner.contests now ∧
      (learner.Matching now → report.correct = report.updates) := by
  obtain ⟨rankings, ranked, correct, updates⟩ := Learner.report_of_done done
  have same := zip_rankings h ranked
  refine ⟨?_, fun matching => ?_⟩
  · rw [updates, same, Learning.contests, List.countP_map]
    exact learner.visited_perm.countP_eq _
  · rw [correct, updates, progress, same, Learning.correct_visitEach, Nat.zero_add]
    intro pair inside isContested
    obtain ⟨e, visited, rfl⟩ := List.mem_map.mp inside
    obtain ⟨targeted, -⟩ := Bool.and_eq_true_iff.mp isContested
    exact matching e (mem_visited.mp visited) targeted

end Separated

/-- Once learning has separated every example, nothing that is drawn from any generator changes a
weight any more. If all competitors match, the reports count every contested example as correct. -/
theorem separation_is_absorbing (learner : Learner σ Float) (now : σ)
    (separated : learner.Separated now) (generator : Random.Generator) (states : Nat → σ)
    (n : Nat) :
    let drawn : Learner σ Float := { learner with generator }
    (drawn.after states n).model.weights = learner.model.weights ∧
      ∀ report, (drawn.call states n).answer = some (.ok report) →
        report.updates = learner.contests now ∧
          (learner.Matching now → report.correct = report.updates) := by
  intro drawn
  have fresh : drawn.Separated now := { separated with }
  obtain ⟨later, model⟩ := fresh.after states n
  refine ⟨congrArg Model.weights model, fun report done => ?_⟩
  obtain ⟨updates, correct⟩ := later.report_of_done done
  have counted : (drawn.after states n).contests now = learner.contests now := by
    rw [contests, model, config_after, examples_after]
    rfl
  refine ⟨updates.trans counted, fun matching => correct ?_⟩
  rw [Matching, model, config_after, examples_after]
  exact matching

def meanings : FeatureFunction Unit Float := fun _ d => Table.addAt ∅ d.meaning.text 1.0

def settled : Learner Unit Float :=
  { undecided with
    model := { grammar := Grammar.ambiguous, features := meanings
               weights := Table.addAt ∅ "2" 2.0 }
    epoch := 1 }

theorem finiteCounts_settled : settled.model.FiniteCounts := by
  intro _ d name count entry
  simp only [settled, meanings, Table.getElem?_addAt] at entry
  split at entry
  · rw [Table.number_of_not_mem Std.ExtTreeMap.not_mem_empty] at entry
    cases entry
    decide +kernel
  · simp at entry

theorem settled_separated : settled.Separated () where
  features _ _ _ := rfl
  outputs _ _ _ := rfl
  counts := finiteCounts_settled
  equal e member target isTarget chosen competes name := by
    have margin : ∀ e ∈ settled.examples,
        let decoding := Decoding.ofParses (settled.model.parsesOf e.input ()) e .meaning
        decoding.competitors = decoding.target.toList := by decide +kernel
    rw [Decoding.eq_of_alone (margin e member) isTarget competes]
    obtain ⟨state, d, features⟩ :=
      Model.exists_features_of_mem_parsesOf (Decoding.mem_of_targetOf isTarget)
    rw [features]
    exact Decimal.beq_self_of_isFinite (finiteCounts_settled.number state d name)

theorem settled_separation_is_absorbing :
    let states : Nat → Unit := fun _ => ()
    let drawn : Learner Unit Float := { settled with generator := .ofSeed 7 }
    settled.Separated () ∧ settled.Matching () ∧
      (drawn.after states 3).model.weights = settled.model.weights ∧
      ∃ report, (drawn.call states 3).answer = some (.ok report) ∧ 0 < report.updates ∧
        report.updates = settled.contests () ∧ report.correct = report.updates := by
  intro states drawn
  have done : (drawn.call states 3).answer = some (.ok ⟨4, 1, 1, 1⟩) := by decide +kernel
  have matching : settled.Matching () := by unfold Matching; decide +kernel
  obtain ⟨weights, reports⟩ :=
    separation_is_absorbing settled () settled_separated (.ofSeed 7) states 3
  obtain ⟨updates, correct⟩ := reports _ done
  exact ⟨settled_separated, matching, weights, _, done, by decide, updates, correct matching⟩

end Learner

end SemanticParsing
