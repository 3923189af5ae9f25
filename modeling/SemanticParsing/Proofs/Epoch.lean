import SemanticParsing.Learning
import SemanticParsing.Proofs.Rearrangement
/-! An epoch is a walk over all examples and then one conclusion, and a call for the next epoch
either runs one or changes nothing. -/
namespace SemanticParsing

variable {σ α : Type}

namespace Learning

theorem mem_record {vocabulary : Vocabulary} {parses : List (Parse α)} {name : String} :
    name ∈ record vocabulary parses ↔
      name ∈ vocabulary ∨ ∃ parse ∈ parses, name ∈ parse.features := by
  induction parses generalizing vocabulary with
  | nil => simp [record]
  | cons parse parses ih =>
    rw [record, List.foldl_cons, ← record, ih]
    simp [or_assoc]

variable [Scalar α] {model : Model σ α} {metric : Metric}

theorem vocabulary_draw (p : Progress α) (metric : Metric) (e : Example)
    (parses : List (Parse α)) : (p.draw metric e parses).vocabulary = p.vocabulary := by
  rw [Progress.draw]
  split
  · rfl
  · simp only
    split <;> rfl

theorem vocabulary_visit (p : Progress α) (metric : Metric) (records : Bool) (e : Example)
    (parses : List (Parse α)) : (p.visit metric records e parses).vocabulary =
      if records then record p.vocabulary parses else p.vocabulary := by
  rw [Progress.visit, vocabulary_draw]
  split <;> rfl

theorem visitAll_cons (model : Model σ α) (metric : Metric) (records : Bool) (e : Example)
    (rest : List Example) (p : Progress α) (state : σ) :
    (visitAll model metric records (e :: rest) p).run state =
      match (model.rank e.input).run.run state with
      | (.ok parses, later) =>
        (visitAll model metric records rest (p.visit metric records e parses)).run later
      | (.error stop, later) => ((p, some stop), later) := by
  rw [visitAll, StateT.run_bind]
  obtain ⟨_ | _, _⟩ := (model.rank e.input).run.run state <;> rfl

theorem mem_vocabulary_visitAll {records : Bool} {examples : List Example} {p q : Progress α}
    {stopped : Option Stop} {state after : σ}
    (h : (visitAll model metric records examples p).run state = ((q, stopped), after))
    {name : String} (old : name ∈ p.vocabulary) : name ∈ q.vocabulary := by
  induction examples generalizing p state with
  | nil =>
    cases h
    exact old
  | cons e rest ih =>
    rw [visitAll_cons] at h
    match ranked : (model.rank e.input).run.run state with
    | (.error stop, later) =>
      rw [ranked] at h
      cases h
      exact old
    | (.ok parses, later) =>
      rw [ranked] at h
      refine ih h ?_
      rw [vocabulary_visit]
      split
      · exact mem_record.mpr (.inl old)
      · exact old

end Learning

namespace Learner

def visited (learner : Learner σ α) : List Example :=
  (learner.generator.permutation learner.examples.size).1.filterMap (learner.examples[·]?)

theorem filterMap_getElem?_range {β : Type} (xs : List β) :
    (List.range xs.length).filterMap (xs[·]?) = xs := by
  induction xs with
  | nil => rfl
  | cons x xs ih =>
    rw [List.length_cons, List.range_succ_eq_map, List.filterMap_cons, List.filterMap_map]
    exact congrArg (x :: ·) ih

theorem visited_perm (learner : Learner σ α) :
    learner.visited.Perm learner.examples.toList := by
  have order := learner.generator.permutation_perm learner.examples.size
  have all := filterMap_getElem?_range learner.examples.toList
  rw [Array.length_toList] at all
  refine (order.filterMap _).trans (.of_eq ?_)
  simpa using all

theorem mem_visited {learner : Learner σ α} {e : Example} :
    e ∈ learner.visited ↔ e ∈ learner.examples :=
  learner.visited_perm.mem_iff.trans Array.mem_toList_iff

variable [Scalar α] {learner : Learner σ α}

def visits (learner : Learner σ α) : StateM σ (Learning.Progress α × Option Stop) :=
  Learning.visitAll learner.model learner.config.metric learner.recordsVocabulary learner.visited
    { generator := (learner.generator.permutation learner.examples.size).2
      vocabulary := learner.vocabulary }

/-- What an epoch makes of its visits. -/
def conclude (learner : Learner σ α) :
    Learning.Progress α × Option Stop → Learner σ α × Except LearnError EpochReport
  | (p, some stop) => (learner.withProgress p, .error (.stopped stop))
  | (p, none) =>
    ({ learner.withProgress p with
        model := { learner.model with
          weights := Learning.applyAll learner.config.eta p.vocabulary.toList p.pending
            learner.model.weights } },
      .ok ⟨learner.epoch, p.correct, p.pending.length, learner.examples.size⟩)

/-- Outputs are to be compared, but there is nothing that makes them. -/
def lacksExecutor (learner : Learner σ α) : Bool :=
  learner.config.metric = .output && !learner.model.hasExecutor

theorem runEpoch_eq (learner : Learner σ α) (state : σ) :
    learner.runEpoch.run state =
      if learner.lacksExecutor then ((learner, .error .missingExecutor), state)
      else Prod.map learner.conclude id (learner.visits.run state) := by
  rw [runEpoch, lacksExecutor]
  split
  · rfl
  · change (learner.visits >>= _).run state = _
    rw [StateT.run_bind]
    obtain ⟨⟨p, _ | stop⟩, after⟩ := learner.visits.run state <;> rfl

def Step.ofEpoch : Learner σ α × Except LearnError EpochReport → Step σ α
  | (learner, .ok report) =>
    let learner := { learner with epoch := learner.epoch + 1 }
    ⟨learner, some (.ok report), .epochDone report ::
      if learner.epoch = learner.config.epochs then [.learned learner.model.sortedWeights] else []⟩
  | (learner, .error e) =>
    ⟨{ learner with failed := true }, some (.error e), [.learningStopped learner.epoch e]⟩

def finished (learner : Learner σ α) : Bool :=
  learner.failed || learner.config.epochs ≤ learner.epoch

theorem next_eq (learner : Learner σ α) (state : σ) :
    learner.next.run state =
      if learner.finished then (⟨learner, none, []⟩, state)
      else Prod.map Step.ofEpoch id (learner.runEpoch.run state) := by
  rw [next, finished]
  split
  · rfl
  · rw [StateT.run_bind]
    obtain ⟨⟨later, _ | report⟩, after⟩ := learner.runEpoch.run state <;> rfl

theorem config_next (learner : Learner σ α) (state : σ) :
    (learner.next.run state).1.learner.config = learner.config := by
  rw [next_eq]
  split
  · rfl
  rw [runEpoch_eq]
  split
  · rfl
  · obtain ⟨⟨p, _ | stop⟩, after⟩ := learner.visits.run state <;> rfl

def nexts : Nat → Learner σ α → StateM σ (List (Step σ α))
  | 0, _ => return []
  | n + 1, learner => do
    let step ← learner.next
    return step :: (← nexts n step.learner)

theorem nexts_succ (n : Nat) (learner : Learner σ α) (state : σ) :
    (learner.nexts (n + 1)).run state =
      let first := learner.next.run state
      Prod.map (first.1 :: ·) id ((first.1.learner.nexts n).run first.2) := rfl

theorem runFor_succ (n : Nat) (learner : Learner σ α) (state : σ) :
    (runFor (n + 1) learner).run state =
      match (learner.next.run state).1.answer with
      | none => (⟨(learner.next.run state).1.learner, .ok [], (learner.next.run state).1.events⟩,
          (learner.next.run state).2)
      | some (.error e) => (⟨(learner.next.run state).1.learner, .error e,
          (learner.next.run state).1.events⟩, (learner.next.run state).2)
      | some (.ok report) =>
        let rest := (runFor n (learner.next.run state).1.learner).run (learner.next.run state).2
        ({ rest.1 with
            outcome := rest.1.outcome.map (report :: ·)
            events := (learner.next.run state).1.events ++ rest.1.events }, rest.2) := by
  rw [runFor, StateT.run_bind]
  obtain ⟨⟨later, _ | _ | report, events⟩, after⟩ := learner.next.run state <;> rfl

end Learner

end SemanticParsing
