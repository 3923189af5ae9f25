import SemanticParsing.Proofs.RuleIndex
import SemanticParsing.Proofs.TwinModels
import SemanticParsing.Proofs.WeightUpdate
/-! Of a table of weights only the numbers of names that parses carry are ever looked at, and only
the entries of such names are ever changed. -/
namespace SemanticParsing

variable {σ α : Type} {names : String → Prop}

/-- Some parse of the sentences can have the name among its features. -/
def Model.Carries (model : Model σ α) (sentences : List String) (name : String) : Prop :=
  ∃ sentence ∈ sentences, ∃ d ∈ model.grammar.parse sentence, ∃ state,
    name ∈ model.features state d

/-- A learner that has met none but these names on its examples, and whose weights have no other
entries than the old ones for the rest. -/
structure Learner.Confined (names : String → Prop) (old : Table α) (learner : Learner σ α) :
    Prop where
  carried : ∀ e ∈ learner.examples, ∀ name, learner.model.Carries [e.input] name → names name
  vocabulary : ∀ name ∈ learner.vocabulary, names name
  weights : ∀ name, ¬ names name → learner.model.weights[name]? = old[name]?

theorem Learner.confined_start (model : Model σ α) (examples : List Example)
    (config : LearningConfig α) :
    (start model examples config).Confined (model.Carries (examples.map Example.input))
      model.weights where
  carried e member name := by
    rintro ⟨sentence, same, has⟩
    rw [List.mem_singleton] at same
    exact ⟨e.input, List.mem_map_of_mem (by simpa [start] using member), same ▸ has⟩
  vocabulary name member := absurd member Std.ExtTreeSet.not_mem_empty
  weights _ _ := rfl

variable [Scalar α]

namespace Table

/-- The tables say the same of these names. An absent entry says zero. -/
def AgreeOn (names : String → Prop) (table other : Table α) : Prop :=
  ∀ name, names name → table.number name = other.number name

variable {table other features : Table α}

theorem AgreeOn.addAt (h : AgreeOn names table other) (name : String) (amount : α) :
    AgreeOn names (table.addAt name amount) (other.addAt name amount) := by
  intro x named
  rw [number_addAt, number_addAt]
  split
  · next same => rw [h name (same ▸ named)]
  · exact h x named

theorem AgreeOn.dot (h : AgreeOn names table other) (carried : ∀ name ∈ features, names name) :
    features.dot table = features.dot other := by
  rw [Table.dot, Table.dot]
  refine congrArg sum (List.map_congr_left fun (name, count) member => ?_)
  have has : name ∈ features :=
    Std.ExtTreeMap.mem_iff_isSome_getElem?.mpr (by
      rw [Std.ExtTreeMap.mem_toList_iff_getElem?_eq_some.mp member]
      rfl)
  exact congrArg (· * count) (h name (carried name has))

end Table

def Model.withWeights (model : Model σ α) (weights : Table α) : Model σ α := { model with weights }

/-- Models that differ in their weights alone are twins on sentences whose parses carry only names
of which the weights say the same. -/
theorem Model.twins_withWeights {model : Model σ α} {others : Table α} {sentences : List String}
    (agree : model.weights.AgreeOn (model.Carries sentences) others) :
    model.Twins sentences Eq (Table.AgreeOn (model.Carries sentences))
      (model.withWeights others) where
  grammar := rfl
  hasExecutor := rfl
  features _ _ same _ := by
    rw [same]
    rfl
  execute s _ same v := by
    subst same
    exact .intro _ rfl
  weights := agree
  dot w w' agree sentence member d isParse s :=
    agree.dot fun name has => ⟨sentence, member, d, isParse, s, has⟩
  addAt w w' agree := agree.addAt

variable {model : Model σ α} {metric : Metric} {records : Bool} {examples : List Example}
  {p q : Learning.Progress α} {stopped : Option Stop} {state after : σ}

theorem Learning.vocabulary_of_visitAll
    (carried : ∀ e ∈ examples, ∀ name, model.Carries [e.input] name → names name)
    (known : ∀ name ∈ p.vocabulary, names name)
    (h : (visitAll model metric records examples p).run state = ((q, stopped), after)) :
    ∀ name ∈ q.vocabulary, names name := by
  induction examples generalizing p state with
  | nil =>
    cases h
    exact known
  | cons e rest ih =>
    rw [List.forall_mem_cons] at carried
    rw [visitAll_cons] at h
    match ranked : (model.rank e.input).run.run state with
    | (.error stop, later) =>
      rw [ranked] at h
      cases h
      exact known
    | (.ok parses, later) =>
      rw [ranked] at h
      refine ih carried.2 ?_ h
      rw [vocabulary_visit]
      split
      · intro name met
        obtain old | ⟨parse, member, has⟩ := mem_record.mp met
        · exact known name old
        · obtain ⟨d, inside, -, seen, features⟩ := (Model.scores_of_rank ranked).2 parse member
          exact carried.1 name ⟨e.input, List.mem_singleton_self _, d, inside, seen, features ▸ has⟩
      · exact known

namespace Learner.Confined

variable {learner : Learner σ α} {old : Table α}

theorem conclude (h : learner.Confined names old) (met : ∀ name ∈ p.vocabulary, names name) :
    (learner.conclude (p, stopped)).1.Confined names old := by
  cases stopped with
  | some stop => exact { h with vocabulary := met }
  | none =>
    refine { h with vocabulary := met, weights := fun name unnamed => ?_ }
    change (Learning.applyAll _ _ _ _)[name]? = _
    rw [Learning.getElem?_applyAll (Learning.nodup_toList _)]
    simp only [Std.ExtTreeSet.mem_toList]
    rw [if_neg fun inside => unnamed (met name inside)]
    exact h.weights name unnamed

theorem runEpoch (h : learner.Confined names old) (state : σ) :
    (learner.runEpoch.run state).1.1.Confined names old := by
  rw [runEpoch_eq]
  split
  · exact h
  · match walk : learner.visits.run state with
    | ((p, stopped), after) =>
      refine h.conclude (Learning.vocabulary_of_visitAll ?_ h.vocabulary walk)
      exact fun e member => h.carried e (mem_visited.mp member)

theorem next (h : learner.Confined names old) (state : σ) :
    (learner.next.run state).1.learner.Confined names old := by
  rw [next_eq]
  split
  · exact h
  · have later := h.runEpoch state
    generalize learner.runEpoch.run state = epoch at later
    obtain ⟨⟨after, e | report⟩, _⟩ := epoch
    · exact { later with }
    · exact { later with }

theorem nexts (h : learner.Confined names old) (n : Nat) (state : σ) :
    ∀ step ∈ ((learner.nexts n).run state).1, step.learner.Confined names old := by
  induction n generalizing learner state with
  | zero =>
    intro step member
    cases member
  | succ n ih =>
    rw [nexts_succ]
    rintro step (_ | ⟨_, member⟩)
    · exact h.next state
    · exact ih (h.next state) _ step member

end Learner.Confined

structure Learner.Step.AgreeOn (names : String → Prop) (step other : Step σ α) : Prop where
  answer : step.answer = other.answer
  generator : step.learner.generator = other.learner.generator
  vocabulary : step.learner.vocabulary = other.learner.vocabulary
  weights : step.learner.model.weights.AgreeOn names other.learner.model.weights

/-- Let two tables of weights say the same of every name that a parse of the sentences can carry.
Then the sentences are ranked alike with both, and for examples of these sentences evaluation gives
the same, and every epoch of learning: the tables still say the same after it. In both runs the
entry of a name that no parse of the examples carries stays as it was, or absent. -/
theorem Model.only_carried_names_matter (model : Model σ α) (others : Table α)
    (sentences : List String)
    (agree : model.weights.AgreeOn (model.Carries sentences) others) (state : σ) :
    (∀ sentence ∈ sentences, ((model.withWeights others).rank sentence).run.run state =
      (model.rank sentence).run.run state) ∧
    ∀ examples : List Example, (∀ e ∈ examples, e.input ∈ sentences) →
      ((model.withWeights others).evaluate examples).run.run state =
        (model.evaluate examples).run.run state ∧
      ∀ (config : LearningConfig α) (n : Nat),
        let learner := Learner.start model examples config
        let other := Learner.start (model.withWeights others) examples config
        (learner.runAll.run state).1.outcome = (other.runAll.run state).1.outcome ∧
          (learner.runAll.run state).2 = (other.runAll.run state).2 ∧
          List.Forall₂ (Learner.Step.AgreeOn (model.Carries sentences))
            ((learner.nexts n).run state).1 ((other.nexts n).run state).1 ∧
          ((learner.nexts n).run state).2 = ((other.nexts n).run state).2 ∧
          ∀ name, ¬ model.Carries (examples.map Example.input) name →
            (∀ step ∈ ((learner.nexts n).run state).1,
              step.learner.model.weights[name]? = model.weights[name]?) ∧
            ∀ step ∈ ((other.nexts n).run state).1,
              step.learner.model.weights[name]? = others[name]? := by
  have twins := model.twins_withWeights agree
  refine ⟨fun sentence member => (twins.rank member rfl).eq.symm, fun examples inputs =>
    ⟨(twins.evaluate inputs rfl).eq.symm, fun config n => ?_⟩⟩
  intro learner other
  have start : learner.Twins sentences Eq (Table.AgreeOn (model.Carries sentences)) other :=
    Learner.twins_start twins inputs config config.epochs
  obtain ⟨outcome, -, last⟩ := start.runFor rfl config.epochs (Eq.refl state)
  obtain ⟨steps, after⟩ := start.nexts rfl n (Eq.refl state)
  have confined := Learner.confined_start model examples config
  have confined' := Learner.confined_start (model.withWeights others) examples config
  refine ⟨outcome, last, ?steps, after, fun name uncarried =>
    ⟨fun step member => (confined.nexts n state step member).weights name uncarried,
      fun step member => (confined'.nexts n state step member).weights name uncarried⟩⟩
  case steps =>
    refine steps.imp fun step step' ⟨answer, twins⟩ => ?_
    exact ⟨answer, twins.generator.symm, twins.vocabulary.symm, twins.model.weights⟩

def Model.ambiguous : Model Unit Float where
  grammar := Grammar.ambiguous
  features := Feature.rules

/-- An entry of zero for a name that is carried, and one for a name that is not. -/
def Table.idle : Table Float :=
  ((∅ : Table Float).insert "Rule($E, x, 1)" 0.0).insert "elsewhere" 3.0

theorem Model.ambiguous_not_carries : ¬ ambiguous.Carries ["x"] "elsewhere" := by
  rintro ⟨sentence, member, d, isParse, _, has⟩
  have absent : ∀ d ∈ ambiguous.grammar.parse "x", "elsewhere" ∉ ambiguous.features () d := by
    decide +kernel
  rw [List.mem_singleton] at member
  exact absent d (member ▸ isParse) has

theorem Table.idle_agreeOn :
    Model.ambiguous.weights.AgreeOn (Model.ambiguous.Carries ["x"]) idle := by
  intro name carried
  have other : "elsewhere" ≠ name := fun same => Model.ambiguous_not_carries (same ▸ carried)
  have fresh : Model.ambiguous.weights[name]? = none := Std.ExtTreeMap.getElem?_empty
  rw [number_eq, number_eq, fresh, idle, Std.ExtTreeMap.getElem?_insert,
    if_neg (by simpa using other), Std.ExtTreeMap.getElem?_insert]
  split <;> rfl

theorem Model.only_carried_names_matter_ambiguous :
    let e : Example := { input := "x", meaning := some (.int 2) }
    let learner := Learner.start ambiguous [e] LearningConfig.standard
    let other := Learner.start (ambiguous.withWeights Table.idle) [e] LearningConfig.standard
    ambiguous.weights.AgreeOn (ambiguous.Carries ["x"]) Table.idle ∧
      e.input ∈ ["x"] ∧ ¬ ambiguous.Carries ["x"] "elsewhere" ∧
      ((ambiguous.withWeights Table.idle).rank "x").run.run () = (ambiguous.rank "x").run.run () ∧
      (learner.runAll.run ()).1.outcome = (other.runAll.run ()).1.outcome ∧
      ∀ step ∈ ((other.nexts 20).run ()).1,
        step.learner.model.weights["elsewhere"]? = Table.idle["elsewhere"]? := by
  intro e learner other
  obtain ⟨ranks, learns⟩ := only_carried_names_matter ambiguous Table.idle ["x"]
    Table.idle_agreeOn ()
  have inputs : ∀ other ∈ [e], other.input ∈ ["x"] := by simp [e]
  obtain ⟨outcome, -, -, -, entries⟩ := (learns [e] inputs).2 LearningConfig.standard 20
  exact ⟨Table.idle_agreeOn, by simp [e], ambiguous_not_carries, ranks "x" (by simp), outcome,
    (entries "elsewhere" ambiguous_not_carries).2⟩

end SemanticParsing
