import SemanticParsing.Proofs.EpochCalls
/-! The vocabulary of a learner is what the recording epochs have met, and learning changes no
weight of another name. -/
namespace SemanticParsing

variable {σ α : Type} [Scalar α]

/-- The parses of all examples in turn, up to the first example whose ranking stops. -/
def Model.rankedParses (model : Model σ α) : List Example → StateM σ (List (Parse α))
  | [] => return []
  | e :: rest => do
    match ← (model.rank e.input).run with
    | .ok parses => return parses ++ (← model.rankedParses rest)
    | .error _ => return []

theorem Model.rankedParses_cons (model : Model σ α) (e : Example) (rest : List Example)
    (state : σ) : (model.rankedParses (e :: rest)).run state =
      match (model.rank e.input).run.run state with
      | (.ok parses, later) => Prod.map (parses ++ ·) id ((model.rankedParses rest).run later)
      | (.error _, later) => ([], later) := by
  rw [rankedParses, StateT.run_bind]
  obtain ⟨_ | _, _⟩ := (model.rank e.input).run.run state <;> rfl

namespace Learning

variable {model : Model σ α} {metric : Metric} {records : Bool} {examples : List Example}
  {p q : Progress α} {stopped : Option Stop} {state last : σ} {name : String}

/-- A walk that records adds just the names of the parses that it ranks. -/
theorem mem_vocabulary_visitAll_iff
    (h : (visitAll model metric records examples p).run state = ((q, stopped), last)) :
    name ∈ q.vocabulary ↔ name ∈ p.vocabulary ∨ records = true ∧
      ∃ parse ∈ ((model.rankedParses examples).run state).1, name ∈ parse.features := by
  induction examples generalizing p state with
  | nil =>
    cases h
    refine (or_iff_left ?_).symm
    rintro ⟨-, parse, member, -⟩
    cases member
  | cons e rest ih =>
    rw [visitAll_cons] at h
    rw [Model.rankedParses_cons]
    match ranked : (model.rank e.input).run.run state with
    | (.error stop, later) =>
      rw [ranked] at h
      cases h
      simp
    | (.ok parses, later) =>
      rw [ranked] at h
      rw [ih h, vocabulary_visit]
      cases records with
      | false => simp
      | true => simp [mem_record, or_assoc, or_and_right, exists_or]

theorem isSome_foldl_moveEntry {eta : α} {entry : Option α} {contrasts : List (Contrast α)}
    (h : entry.isSome) : (contrasts.foldl (Contrast.moveEntry eta name) entry).isSome := by
  induction contrasts generalizing entry with
  | nil => exact h
  | cons c rest ih =>
    refine ih ?_
    rw [Contrast.moveEntry]
    split
    · rfl
    · exact h

end Learning

namespace Learner

variable {learner : Learner σ α} {states : Nat → σ} {name : String}

def ranksNothing (learner : Learner σ α) : Bool := learner.finished || learner.lacksExecutor

def parsesRanked (learner : Learner σ α) (state : σ) : List (Parse α) :=
  if learner.ranksNothing then [] else ((learner.model.rankedParses learner.visited).run state).1

theorem next_of_ranksNothing (h : learner.ranksNothing = true) (state : σ) :
    (learner.next.run state).1.learner.vocabulary = learner.vocabulary ∧
      (learner.next.run state).1.learner.model = learner.model := by
  cases finished : learner.finished with
  | true => rw [next_of_finished finished]; exact ⟨rfl, rfl⟩
  | false =>
    rw [ranksNothing, finished, Bool.false_or] at h
    rw [next_eq, finished, runEpoch_eq, h]
    exact ⟨rfl, rfl⟩

theorem next_of_ranks (h : learner.ranksNothing = false) (state : σ) :
    (learner.next.run state).1 = Step.ofEpoch (learner.conclude (learner.visits.run state).1) := by
  rw [ranksNothing, Bool.or_eq_false_iff] at h
  rw [next_eq, runEpoch_eq]
  simp only [h.1, h.2, Bool.false_eq_true, if_false]
  rfl

theorem vocabulary_ofEpoch_conclude (learner : Learner σ α) (p : Learning.Progress α)
    (stopped : Option Stop) :
    (Step.ofEpoch (learner.conclude (p, stopped))).learner.vocabulary = p.vocabulary := by
  cases stopped <;> rfl

theorem mem_vocabulary_next_iff (learner : Learner σ α) (state : σ) :
    name ∈ (learner.next.run state).1.learner.vocabulary ↔
      name ∈ learner.vocabulary ∨ learner.recordsVocabulary = true ∧
        ∃ parse ∈ learner.parsesRanked state, name ∈ parse.features := by
  cases idle : learner.ranksNothing with
  | true => simp [parsesRanked, idle, (next_of_ranksNothing idle state).1]
  | false =>
    rw [next_of_ranks idle, vocabulary_ofEpoch_conclude, parsesRanked, idle]
    exact Learning.mem_vocabulary_visitAll_iff (p := _) rfl

theorem weights_next (learner : Learner σ α) (state : σ) (name : String) :
    (name ∉ (learner.next.run state).1.learner.vocabulary →
      (learner.next.run state).1.learner.model.weights[name]? = learner.model.weights[name]?) ∧
    (name ∈ learner.model.weights → name ∈ (learner.next.run state).1.learner.model.weights) := by
  cases idle : learner.ranksNothing with
  | true =>
    rw [(next_of_ranksNothing idle state).2]
    exact ⟨fun _ => rfl, id⟩
  | false =>
    rw [next_of_ranks idle]
    obtain ⟨⟨p, _ | stop⟩, last⟩ := learner.visits.run state
    case some => exact ⟨fun _ => rfl, id⟩
    case none =>
      have entry : (Step.ofEpoch (learner.conclude (p, none))).learner.model.weights[name]? = _ :=
        Learning.getElem?_applyAll (Learning.nodup_toList p.vocabulary)
      simp only [Std.ExtTreeSet.mem_toList] at entry
      rw [Std.ExtTreeMap.mem_iff_isSome_getElem?, Std.ExtTreeMap.mem_iff_isSome_getElem?, entry]
      refine ⟨fun unknown => if_neg unknown, fun old => ?_⟩
      split
      · exact Learning.isSome_foldl_moveEntry old
      · exact old

theorem epoch_of_unfinished {n : Nat} (unfinished : (learner.after states n).finished = false) :
    (learner.after states n).epoch = learner.epoch + n := by
  induction n with
  | zero => rfl
  | succ n ih =>
    rw [after] at unfinished ⊢
    have takes := (learner.after states n).takes_next (states n)
    generalize ((learner.after states n).next.run (states n)).1 = step at takes unfinished ⊢
    cases takes with
    | idle finished => cases finished.symm.trans unfinished
    | stop => simp [finished] at unfinished
    | report going => exact congrArg (· + 1) (ih going)

theorem records_iff {n : Nat} (fresh : learner.epoch = 0)
    (ranks : (learner.after states n).parsesRanked (states n) ≠ []) :
    (learner.after states n).recordsVocabulary = true ↔
      n = 0 ∨ learner.config.vocabulary = .growing := by
  have unfinished : (learner.after states n).finished = false := by
    cases finished : (learner.after states n).finished with
    | false => rfl
    | true => exact absurd (by rw [parsesRanked, ranksNothing, finished]; rfl) ranks
  rw [recordsVocabulary, epoch_of_unfinished unfinished, fresh, config_after]
  simp

theorem mem_vocabulary_after_iff (fresh : learner.epoch = 0) (empty : learner.vocabulary = ∅)
    (n : Nat) : name ∈ (learner.after states n).vocabulary ↔
      ∃ i < n, (i = 0 ∨ learner.config.vocabulary = .growing) ∧
        ∃ parse ∈ (learner.after states i).parsesRanked (states i), name ∈ parse.features := by
  induction n with
  | zero => simp [after, empty]
  | succ n ih =>
    rw [after, mem_vocabulary_next_iff, ih, Nat.exists_lt_succ_right]
    refine or_congr_right (and_congr_left fun met => ?_)
    obtain ⟨parse, member, -⟩ := met
    exact records_iff fresh (List.ne_nil_of_mem member)

/-- Let the session change its state as it likes between the epochs, and the features with it.
After so many calls the vocabulary is the names of the parses that were ranked in the recording
epochs: the first one, or all if the vocabulary grows. An epoch keeps the entry, or the lack of one,
of every name outside the vocabulary that it applies its updates with, and it takes no entry away.
So with a vocabulary that is frozen after the first epoch, the names that the first epoch does not
meet stay as they were. -/
theorem vocabulary_confines_learning (model : Model σ α) (examples : List Example)
    (config : LearningConfig α) (states : Nat → σ) (n : Nat) :
    let learner := start model examples config
    (∀ name, name ∈ (learner.after states n).vocabulary ↔
      ∃ i < n, (i = 0 ∨ config.vocabulary = .growing) ∧
        ∃ parse ∈ (learner.after states i).parsesRanked (states i), name ∈ parse.features) ∧
    (∀ name, name ∉ (learner.after states (n + 1)).vocabulary →
      (learner.after states (n + 1)).model.weights[name]? =
        (learner.after states n).model.weights[name]?) ∧
    (∀ name ∈ (learner.after states n).model.weights,
      name ∈ (learner.after states (n + 1)).model.weights) ∧
    (config.vocabulary = .frozenAfterFirstEpoch → ∀ name,
      (∀ parse ∈ learner.parsesRanked (states 0), name ∉ parse.features) →
        (learner.after states n).model.weights[name]? = model.weights[name]?) := by
  intro learner
  have fresh : learner.epoch = 0 := rfl
  have empty : learner.vocabulary = ∅ := rfl
  refine ⟨fun name => mem_vocabulary_after_iff fresh empty n, fun name => ?_, fun name => ?_,
    fun frozen name unmet => ?_⟩
  · exact (weights_next (learner.after states n) (states n) name).1
  · exact (weights_next (learner.after states n) (states n) name).2
  · induction n with
    | zero => rfl
    | succ n ih =>
      refine ((weights_next (learner.after states n) (states n) name).1 ?_).trans ih
      intro known
      obtain ⟨i, -, rfl | growing, parse, member, has⟩ :=
        (mem_vocabulary_after_iff fresh empty (n + 1)).mp known
      · exact unmet parse member has
      · cases frozen.symm.trans growing

def late : Model Bool Float where
  grammar := Grammar.ambiguous
  features on d := if on then Feature.rules on d else ∅
  weights := Table.addAt ∅ "elsewhere" 3.0

def lateLearner : Learner Bool Float :=
  start late [{ input := "x", meaning := some (.int 2) }] LearningConfig.standard

theorem late_vocabulary_confines_learning :
    let states (n : Nat) : Bool := 0 < n
    let name := "Rule($E, x, 2)"
    LearningConfig.standard.vocabulary = .frozenAfterFirstEpoch ∧
      (∀ parse ∈ lateLearner.parsesRanked (states 0), name ∉ parse.features) ∧
      (∃ parse ∈ (lateLearner.after states 1).parsesRanked (states 1), name ∈ parse.features) ∧
      (lateLearner.after states 2).model.weights[name]? = late.weights[name]? ∧
      name ∉ (lateLearner.after states 2).vocabulary ∧
      (lateLearner.after states 2).model.weights[name]? =
        (lateLearner.after states 1).model.weights[name]? ∧
      "elsewhere" ∈ (lateLearner.after states 1).model.weights ∧
      "elsewhere" ∈ (lateLearner.after states 2).model.weights := by
  intro states name
  have confines (n : Nat) := vocabulary_confines_learning late
    [{ input := "x", meaning := some (.int 2) }] LearningConfig.standard states n
  have unmet : ∀ parse ∈ lateLearner.parsesRanked (states 0), name ∉ parse.features := by
    decide +kernel
  have met : ∃ parse ∈ (lateLearner.after states 1).parsesRanked (states 1),
      name ∈ parse.features := by decide +kernel
  have unknown : name ∉ (lateLearner.after states 2).vocabulary := by decide +kernel
  have there : "elsewhere" ∈ (lateLearner.after states 1).model.weights := by decide +kernel
  obtain ⟨-, moved, kept, -⟩ := confines 1
  obtain ⟨-, -, -, frozen⟩ := confines 2
  exact ⟨rfl, unmet, met, frozen rfl name unmet, unknown, moved name unknown, there,
    kept "elsewhere" there⟩

end Learner

end SemanticParsing
