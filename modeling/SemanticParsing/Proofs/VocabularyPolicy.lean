import SemanticParsing.Proofs.Epoch
import SemanticParsing.Proofs.RuleIndex
/-! A learner whose features depend on the derivation alone has met every name after its first
epoch. So it makes no difference whether later epochs add to its vocabulary. -/
namespace SemanticParsing

variable {σ α : Type}

/-- The vocabulary has every name that a derivation of the sentence can have among its
features. -/
def Model.Knows (model : Model σ α) (vocabulary : Vocabulary) (sentence : String) : Prop :=
  ∀ d ∈ model.grammar.parse sentence, ∀ state, ∀ name ∈ model.features state d, name ∈ vocabulary

/-- The features of a derivation are the same in every state. -/
def Model.FixedFeatures (model : Model σ α) : Prop :=
  ∀ before after d, model.features before d = model.features after d

namespace Learning

theorem record_of_known {vocabulary : Vocabulary} {parses : List (Parse α)}
    (known : ∀ parse ∈ parses, ∀ name ∈ parse.features, name ∈ vocabulary) :
    record vocabulary parses = vocabulary := by
  refine Std.ExtTreeSet.ext_mem fun name => ?_
  rw [mem_record, or_iff_left_iff_imp]
  rintro ⟨parse, member, has⟩
  exact known parse member name has

variable [Scalar α] {model : Model σ α} {metric : Metric} {state after : σ} {p q : Progress α}

theorem visit_of_known {e : Example} {parses : List (Parse α)} (records : Bool)
    (known : ∀ parse ∈ parses, ∀ name ∈ parse.features, name ∈ p.vocabulary) :
    p.visit metric records e parses = p.visit metric false e parses := by
  cases records with
  | false => rfl
  | true =>
    simp only [Progress.visit, record_of_known known, if_true]
    rfl

theorem visitAll_of_known {examples : List Example} (records : Bool)
    (known : ∀ e ∈ examples, model.Knows p.vocabulary e.input) :
    (visitAll model metric records examples p).run state =
      (visitAll model metric false examples p).run state := by
  induction examples generalizing p state with
  | nil => rfl
  | cons e rest ih =>
    rw [visitAll_cons, visitAll_cons]
    match ranked : (model.rank e.input).run.run state with
    | (.error stop, later) => rfl
    | (.ok parses, later) =>
      have old : ∀ parse ∈ parses, ∀ name ∈ parse.features, name ∈ p.vocabulary := by
        intro parse member name has
        obtain ⟨d, inside, -, seen, features⟩ := (Model.scores_of_rank ranked).2 parse member
        exact known e List.mem_cons_self d inside seen name (features ▸ has)
      simp only [visit_of_known records old]
      refine ih fun other member => ?_
      rw [vocabulary_visit]
      exact known other (List.mem_cons_of_mem e member)

theorem knows_of_visitAll (fixed : model.FixedFeatures) {examples : List Example}
    (h : (visitAll model metric true examples p).run state = ((q, none), after)) :
    ∀ e ∈ examples, model.Knows q.vocabulary e.input := by
  induction examples generalizing p state with
  | nil => simp
  | cons e rest ih =>
    rw [visitAll_cons] at h
    match ranked : (model.rank e.input).run.run state with
    | (.error stop, later) =>
      rw [ranked] at h
      cases h
    | (.ok parses, later) =>
      rw [ranked] at h
      rintro other (_ | ⟨_, member⟩)
      · intro d inside seen name has
        obtain ⟨parse, found, -, before, features⟩ := (Model.scores_of_rank ranked).1 d inside
        refine mem_vocabulary_visitAll h ?_
        rw [vocabulary_visit, if_pos rfl]
        refine mem_record.mpr (.inr ⟨parse, found, ?_⟩)
        rwa [features, fixed before seen d]
      · exact ih h other member

end Learning

namespace Learner

def withPolicy (learner : Learner σ α) (policy : VocabularyPolicy) : Learner σ α :=
  { learner with config := { learner.config with vocabulary := policy } }

def Step.withPolicy (step : Step σ α) (policy : VocabularyPolicy) : Step σ α :=
  { step with learner := step.learner.withPolicy policy }

/-- Either no epoch is done yet, or the names of every example are known. -/
def Experienced (learner : Learner σ α) : Prop :=
  learner.epoch = 0 ∨ ∀ e ∈ learner.examples, learner.model.Knows learner.vocabulary e.input

variable [Scalar α] {learner : Learner σ α}

theorem visits_withPolicy (experienced : learner.Experienced) (policy : VocabularyPolicy)
    (state : σ) : (learner.withPolicy policy).visits.run state = learner.visits.run state := by
  cases experienced with
  | inl first =>
    have records : (learner.withPolicy policy).recordsVocabulary = learner.recordsVocabulary := by
      simp [recordsVocabulary, withPolicy, first]
    rw [visits, visits, records]
    rfl
  | inr known =>
    have all : ∀ e ∈ learner.visited, learner.model.Knows learner.vocabulary e.input :=
      fun e member => known e (mem_visited.mp member)
    rw [visits, visits, Learning.visitAll_of_known _ all,
      Learning.visitAll_of_known learner.recordsVocabulary all]
    rfl

theorem conclude_withPolicy (learner : Learner σ α) (policy : VocabularyPolicy)
    (walk : Learning.Progress α × Option Stop) :
    (learner.withPolicy policy).conclude walk =
      Prod.map (·.withPolicy policy) id (learner.conclude walk) := by
  obtain ⟨p, _ | stop⟩ := walk <;> rfl

theorem runEpoch_withPolicy (experienced : learner.Experienced) (policy : VocabularyPolicy)
    (state : σ) :
    (learner.withPolicy policy).runEpoch.run state =
      Prod.map (Prod.map (·.withPolicy policy) id) id (learner.runEpoch.run state) := by
  have lacks : (learner.withPolicy policy).lacksExecutor = learner.lacksExecutor := rfl
  rw [runEpoch_eq, runEpoch_eq, lacks, visits_withPolicy experienced policy]
  split
  · rfl
  · exact congrArg (·, _) (conclude_withPolicy learner policy _)

theorem ofEpoch_withPolicy (policy : VocabularyPolicy)
    (result : Learner σ α × Except LearnError EpochReport) :
    Step.ofEpoch (Prod.map (·.withPolicy policy) id result) =
      (Step.ofEpoch result).withPolicy policy := by
  obtain ⟨later, _ | report⟩ := result <;> rfl

theorem next_withPolicy (experienced : learner.Experienced) (policy : VocabularyPolicy)
    (state : σ) :
    (learner.withPolicy policy).next.run state =
      Prod.map (·.withPolicy policy) id (learner.next.run state) := by
  have finished : (learner.withPolicy policy).finished = learner.finished := rfl
  rw [next_eq, next_eq, finished, runEpoch_withPolicy experienced policy]
  split
  · rfl
  · exact congrArg (·, _) (ofEpoch_withPolicy policy _)

theorem fixedFeatures_next (fixed : learner.model.FixedFeatures) (state : σ) :
    (learner.next.run state).1.learner.model.FixedFeatures := by
  rw [next_eq]
  split
  · exact fixed
  rw [runEpoch_eq]
  split
  · exact fixed
  · obtain ⟨⟨p, _ | stop⟩, after⟩ := learner.visits.run state <;> exact fixed

/-- The first epoch that is not stopped makes a learner experienced for good. -/
theorem experienced_next (fixed : learner.model.FixedFeatures) (experienced : learner.Experienced)
    (state : σ) : (learner.next.run state).1.learner.Experienced := by
  rw [next_eq]
  split
  · exact experienced
  rw [runEpoch_eq]
  split
  · exact experienced
  match walk : learner.visits.run state with
  | ((p, some stop), after) =>
    refine experienced.imp id fun known e member d inside seen name has => ?_
    exact Learning.mem_vocabulary_visitAll walk (known e member d inside seen name has)
  | ((p, none), after) =>
    refine .inr fun e member => ?_
    cases experienced with
    | inl first =>
      have records : learner.recordsVocabulary = true := by simp [recordsVocabulary, first]
      rw [visits, records] at walk
      exact Learning.knows_of_visitAll fixed walk e (mem_visited.mpr member)
    | inr known =>
      intro d inside seen name has
      exact Learning.mem_vocabulary_visitAll walk (known e member d inside seen name has)

/-- Learners that differ in their policy alone go through the same epochs. -/
theorem nexts_withPolicy (fixed : learner.model.FixedFeatures) (experienced : learner.Experienced)
    (policy : VocabularyPolicy) (n : Nat) (state : σ) :
    ((learner.withPolicy policy).nexts n).run state =
      Prod.map (List.map (·.withPolicy policy)) id ((learner.nexts n).run state) := by
  induction n generalizing learner state with
  | zero => rfl
  | succ n ih =>
    have later := ih (fixedFeatures_next fixed state) (experienced_next fixed experienced state)
    rw [nexts_succ, nexts_succ, next_withPolicy experienced]
    simp only [Prod.map_fst, Prod.map_snd, id_eq, Step.withPolicy, later]
    rfl

/-- Where features depend on the derivation alone, a vocabulary that grows in every epoch makes no
difference: the answers, what the session is told, the learners after each epoch and the state of
the executor are those with a vocabulary frozen after the first epoch. -/
theorem growing_agrees_with_frozen (model : Model σ α) (fixed : model.FixedFeatures)
    (examples : List Example) (config : LearningConfig α) (n : Nat) (state : σ) :
    let frozen := start model examples { config with vocabulary := .frozenAfterFirstEpoch }
    let growing := start model examples { config with vocabulary := .growing }
    (growing.nexts n).run state =
      (((frozen.nexts n).run state).1.map (·.withPolicy .growing),
        ((frozen.nexts n).run state).2) := by
  intro frozen growing
  have fresh : frozen.Experienced := .inl rfl
  exact nexts_withPolicy fixed fresh .growing n state

def sample : Model Heap Float where
  grammar := Grammar.sample
  features := Feature.precedences
  executor := some (Evaluator.executor 10 Heap.empty.pushStandard.1)

theorem growing_agrees_with_frozen_sample :
    sample.FixedFeatures ∧
      let config : LearningConfig Float := { LearningConfig.standard with metric := .output }
      let examples : List Example := [{ input := "one plus one", output := some (.int 2) }]
      let frozen := start sample examples { config with vocabulary := .frozenAfterFirstEpoch }
      let growing := start sample examples { config with vocabulary := .growing }
      (growing.nexts 3).run Heap.empty.pushStandard.2 =
        (((frozen.nexts 3).run Heap.empty.pushStandard.2).1.map (·.withPolicy .growing),
          ((frozen.nexts 3).run Heap.empty.pushStandard.2).2) :=
  ⟨fun _ _ _ => rfl, growing_agrees_with_frozen sample (fun _ _ _ => rfl) _ _ 3 _⟩

end Learner

end SemanticParsing
