import SemanticParsing.Proofs.Epoch
/-! Models that cannot be told apart on some sentences, though their weights and what their
executors keep may differ: they rank, evaluate and learn alike. -/
namespace SemanticParsing

variable {σ τ α β γ : Type}

/-- The results are the same, and the states that are left are related. -/
inductive SameResult (R : σ → τ → Prop) : β × σ → β × τ → Prop
  | intro {s : σ} {t : τ} (b : β) (related : R s t) : SameResult R (b, s) (b, t)

theorem SameResult.result {R : σ → τ → Prop} {left : β × σ} {right : β × τ}
    (h : SameResult R left right) : left.1 = right.1 := by
  cases h
  rfl

theorem SameResult.eq {left right : β × σ} (h : SameResult Eq left right) : left = right := by
  cases h with
  | intro b same => rw [same]

theorem SameResult.state {R : σ → τ → Prop} {left : β × σ} {right : β × τ}
    (h : SameResult R left right) : R left.2 right.2 := by
  cases h
  assumption

namespace Action

variable {R : σ → τ → Prop} {s : σ} {t : τ}

theorem sameResult_bind {action : Action σ β} {other : Action τ β} {next : β → Action σ γ}
    {next' : β → Action τ γ} (first : SameResult R (action.run.run s) (other.run.run t))
    (second : ∀ b later later', R later later' →
      SameResult R ((next b).run.run later) ((next' b).run.run later')) :
    SameResult R ((action >>= next).run.run s) ((other >>= next').run.run t) := by
  rw [run_bind, run_bind]
  generalize action.run.run s = left, other.run.run t = right at first
  cases first with
  | intro result related =>
    cases result with
    | error stop => exact .intro _ related
    | ok b => exact second b _ _ related

theorem sameResult_pure (b : β) (related : R s t) :
    SameResult R ((pure b : Action σ β).run.run s) ((pure b : Action τ β).run.run t) :=
  .intro _ related

theorem sameResult_mapM {each : γ → Action σ β} {each' : γ → Action τ β} {items : List γ}
    (related : R s t)
    (h : ∀ item ∈ items, ∀ later later', R later later' →
      SameResult R ((each item).run.run later) ((each' item).run.run later')) :
    SameResult R ((items.mapM each).run.run s) ((items.mapM each').run.run t) := by
  induction items generalizing s t with
  | nil => exact sameResult_pure [] related
  | cons item items ih =>
    rw [List.mapM_cons, List.mapM_cons]
    refine sameResult_bind (h item List.mem_cons_self s t related) fun b later later' related => ?_
    refine sameResult_bind (ih related fun other member => ?_) fun bs _ _ related =>
      sameResult_pure (b :: bs) related
    exact h other (List.mem_cons_of_mem item member)

end Action

variable [Scalar α]

/-- From related states the two models look at derivations and execute meanings alike. -/
structure Model.ActsLike (R : σ → τ → Prop) (model : Model σ α) (other : Model τ α) : Prop where
  grammar : other.grammar = model.grammar
  hasExecutor : other.hasExecutor = model.hasExecutor
  features : ∀ s t, R s t → ∀ d, other.features t d = model.features s d
  execute : ∀ s t, R s t → ∀ v,
    SameResult R ((model.execute v).run.run s) ((other.execute v).run.run t)

/-- The twin acts like the model, related weights score the derivations of the sentences alike, and
weights stay related when the same is added to both. -/
structure Model.Twins (sentences : List String) (R : σ → τ → Prop)
    (W : Table α → Table α → Prop) (model : Model σ α) (twin : Model τ α) : Prop
    extends Model.ActsLike R model twin where
  weights : W model.weights twin.weights
  dot : ∀ w w', W w w' → ∀ sentence ∈ sentences, ∀ d ∈ model.grammar.parse sentence,
    ∀ s, (model.features s d).dot w = (model.features s d).dot w'
  addAt : ∀ w w', W w w' → ∀ name amount, W (w.addAt name amount) (w'.addAt name amount)

variable {sentences : List String} {R : σ → τ → Prop} {W : Table α → Table α → Prop}
  {model : Model σ α} {twin : Model τ α} {s : σ} {t : τ} {sentence : String}

theorem Model.ActsLike.twins (h : ActsLike R model twin) (same : twin.weights = model.weights) :
    Twins sentences R Eq model twin :=
  { h with
    weights := same.symm
    dot := fun _ _ same _ _ _ _ _ => same ▸ rfl
    addAt := fun _ _ same _ _ => same ▸ rfl }

namespace Model.Twins

theorem scored (h : Twins sentences R W model twin) (member : sentence ∈ sentences)
    {d : Derivation} (isParse : d ∈ model.grammar.parse sentence) (related : R s t) :
    SameResult R ((model.scored d).run.run s) ((twin.scored d).run.run t) := by
  change SameResult R
    ((model.execute d.meaning >>= fun output => pure (⟨d, output, (model.features s d).dot
      model.weights, model.features s d⟩ : Parse α)).run.run s)
    ((twin.execute d.meaning >>= fun output => pure (⟨d, output, (twin.features t d).dot
      twin.weights, twin.features t d⟩ : Parse α)).run.run t)
  rw [h.features s t related d, ← h.dot _ _ h.weights sentence member d isParse]
  exact Action.sameResult_bind (h.execute s t related d.meaning) fun output _ _ related =>
    Action.sameResult_pure _ related

theorem rank (h : Twins sentences R W model twin) (member : sentence ∈ sentences)
    (related : R s t) :
    SameResult R ((model.rank sentence).run.run s) ((twin.rank sentence).run.run t) := by
  rw [Model.rank, Model.rank, h.grammar]
  refine Action.sameResult_bind ?_ fun parses _ _ related => Action.sameResult_pure _ related
  exact Action.sameResult_mapM related fun d isParse _ _ related => h.scored member isParse related

theorem evaluate (h : Twins sentences R W model twin) {examples : List Example}
    (inputs : ∀ e ∈ examples, e.input ∈ sentences) (related : R s t) :
    SameResult R ((model.evaluate examples).run.run s) ((twin.evaluate examples).run.run t) := by
  refine Action.sameResult_bind ?_ fun judged _ _ related => Action.sameResult_pure _ related
  refine Action.sameResult_mapM related fun e member later later' related => ?_
  rw [map_eq_pure_bind, map_eq_pure_bind]
  exact Action.sameResult_bind (h.rank (inputs e member) related) fun parses _ _ related =>
    Action.sameResult_pure _ related

end Model.Twins

namespace Learning

theorem visitAll_twins (h : Model.Twins sentences R W model twin) (metric : Metric)
    (records : Bool) {examples : List Example} (inputs : ∀ e ∈ examples, e.input ∈ sentences)
    (p : Progress α) (related : R s t) :
    SameResult R ((visitAll model metric records examples p).run s)
      ((visitAll twin metric records examples p).run t) := by
  induction examples generalizing p s t with
  | nil => exact .intro _ related
  | cons e rest ih =>
    rw [List.forall_mem_cons] at inputs
    have ranked := h.rank inputs.1 related
    rw [visitAll_cons, visitAll_cons]
    generalize (model.rank e.input).run.run s = left, (twin.rank e.input).run.run t = right
      at ranked
    cases ranked with
    | intro result related =>
      cases result with
      | error stop => exact .intro _ related
      | ok parses => exact ih inputs.2 _ related

theorem applyAll_related
    (addAt : ∀ w w', W w w' → ∀ name amount, W (w.addAt name amount) (w'.addAt name amount))
    (eta : α) (names : List String) (pending : List (Contrast α)) {w w' : Table α}
    (related : W w w') : W (applyAll eta names pending w) (applyAll eta names pending w') := by
  refine List.foldl_rel related fun pair _ w w' related => ?_
  refine List.foldl_rel related fun name _ w w' related => ?_
  rw [updateName, updateName]
  split
  · exact related
  · exact addAt w w' related name _

end Learning

/-- The learners are at the same point of the same epochs, with models that are twins on the
sentences of their examples. How many epochs are to come may differ. -/
structure Learner.Twins (sentences : List String) (R : σ → τ → Prop)
    (W : Table α → Table α → Prop) (learner : Learner σ α) (twin : Learner τ α) : Prop where
  model : learner.model.Twins sentences R W twin.model
  inputs : ∀ e ∈ learner.examples, e.input ∈ sentences
  examples : twin.examples = learner.examples
  metric : twin.config.metric = learner.config.metric
  eta : twin.config.eta = learner.config.eta
  policy : twin.config.vocabulary = learner.config.vocabulary
  generator : twin.generator = learner.generator
  vocabulary : twin.vocabulary = learner.vocabulary
  epoch : twin.epoch = learner.epoch
  failed : twin.failed = learner.failed

theorem Learner.twins_start (h : model.Twins sentences R W twin) {examples : List Example}
    (inputs : ∀ e ∈ examples, e.input ∈ sentences) (config : LearningConfig α) (epochs : Nat) :
    (start model examples config).Twins sentences R W
      (start twin examples { config with epochs }) where
  model := h
  inputs e member := inputs e (by simpa [start] using member)
  examples := rfl
  metric := rfl
  eta := rfl
  policy := rfl
  generator := rfl
  vocabulary := rfl
  epoch := rfl
  failed := rfl

namespace Learner.Twins

variable {learner : Learner σ α} {other : Learner τ α}

theorem withProgress (h : Twins sentences R W learner other) (p : Learning.Progress α) :
    Twins sentences R W (learner.withProgress p) (other.withProgress p) :=
  { h with generator := rfl, vocabulary := rfl }

theorem visits (h : Twins sentences R W learner other) (related : R s t) :
    SameResult R (learner.visits.run s) (other.visits.run t) := by
  have inputs : ∀ e ∈ learner.visited, e.input ∈ sentences :=
    fun e member => h.inputs e (mem_visited.mp member)
  have walk := Learning.visitAll_twins h.model learner.config.metric learner.recordsVocabulary
    inputs ⟨(learner.generator.permutation learner.examples.size).2, learner.vocabulary, 0, []⟩
    related
  have records : other.recordsVocabulary = learner.recordsVocabulary := by
    rw [recordsVocabulary, recordsVocabulary, h.epoch, h.policy]
  have visited : other.visited = learner.visited := by
    rw [visited, visited, h.generator, h.examples]
  rw [Learner.visits, Learner.visits, records, visited, h.metric, h.generator, h.examples,
    h.vocabulary]
  exact walk

theorem conclude (h : Twins sentences R W learner other)
    (walk : Learning.Progress α × Option Stop) :
    (learner.conclude walk).2 = (other.conclude walk).2 ∧
      Twins sentences R W (learner.conclude walk).1 (other.conclude walk).1 := by
  obtain ⟨p, _ | stop⟩ := walk
  · have weights := Learning.applyAll_related h.model.addAt learner.config.eta
      p.vocabulary.toList p.pending h.model.weights
    simp only [Learner.conclude, h.epoch, h.examples, h.eta, true_and]
    exact { h.withProgress p with model := { h.model with weights } }
  · exact ⟨rfl, h.withProgress p⟩

theorem runEpoch (h : Twins sentences R W learner other) (related : R s t) :
    (learner.runEpoch.run s).1.2 = (other.runEpoch.run t).1.2 ∧
      Twins sentences R W (learner.runEpoch.run s).1.1 (other.runEpoch.run t).1.1 ∧
      R (learner.runEpoch.run s).2 (other.runEpoch.run t).2 := by
  have lacks : other.lacksExecutor = learner.lacksExecutor := by
    rw [lacksExecutor, lacksExecutor, h.metric, h.model.hasExecutor]
  rw [runEpoch_eq, runEpoch_eq, lacks]
  split
  · exact ⟨rfl, h, related⟩
  · have walks := h.visits related
    generalize learner.visits.run s = left, other.visits.run t = right at walks
    cases walks with
    | intro walk related => exact ⟨(h.conclude walk).1, (h.conclude walk).2, related⟩

theorem next (h : Twins sentences R W learner other) (finished : other.finished = learner.finished)
    (related : R s t) :
    (learner.next.run s).1.answer = (other.next.run t).1.answer ∧
      Twins sentences R W (learner.next.run s).1.learner (other.next.run t).1.learner ∧
      R (learner.next.run s).2 (other.next.run t).2 := by
  rw [next_eq, next_eq, finished]
  split
  · exact ⟨rfl, h, related⟩
  · obtain ⟨answer, later, related⟩ := h.runEpoch related
    generalize learner.runEpoch.run s = left, other.runEpoch.run t = right
      at answer later related
    obtain ⟨⟨after, answer'⟩, state⟩ := left
    obtain ⟨⟨after', _⟩, state'⟩ := right
    cases answer
    cases answer' with
    | error e => exact ⟨rfl, { later with failed := rfl }, related⟩
    | ok report => exact ⟨rfl, { later with epoch := congrArg (· + 1) later.epoch }, related⟩

theorem nexts (h : Twins sentences R W learner other)
    (epochs : other.config.epochs = learner.config.epochs) (n : Nat) (related : R s t) :
    List.Forall₂ (fun step step' : Step _ α => step.answer = step'.answer ∧
        Twins sentences R W step.learner step'.learner)
      ((learner.nexts n).run s).1 ((other.nexts n).run t).1 ∧
      R ((learner.nexts n).run s).2 ((other.nexts n).run t).2 := by
  induction n generalizing learner other s t with
  | zero => exact ⟨.nil, related⟩
  | succ n ih =>
    have finished : other.finished = learner.finished := by
      rw [Learner.finished, Learner.finished, h.failed, epochs, h.epoch]
    obtain ⟨answer, later, related⟩ := h.next finished related
    obtain ⟨steps, related⟩ := ih later (by rw [config_next, config_next, epochs]) related
    exact ⟨.cons ⟨answer, later⟩ steps, related⟩

theorem runFor (h : Twins sentences R W learner other)
    (epochs : other.config.epochs = learner.config.epochs) (n : Nat) (related : R s t) :
    ((learner.runFor n).run s).1.outcome = ((other.runFor n).run t).1.outcome ∧
      Twins sentences R W ((learner.runFor n).run s).1.learner
        ((other.runFor n).run t).1.learner ∧
      R ((learner.runFor n).run s).2 ((other.runFor n).run t).2 := by
  induction n generalizing learner other s t with
  | zero => exact ⟨rfl, h, related⟩
  | succ n ih =>
    have finished : other.finished = learner.finished := by
      rw [Learner.finished, Learner.finished, h.failed, epochs, h.epoch]
    obtain ⟨answer, later, related⟩ := h.next finished related
    rw [runFor_succ, runFor_succ, ← answer]
    generalize (learner.next.run s).1.answer = given
    obtain _ | e | report := given
    · exact ⟨rfl, later, related⟩
    · exact ⟨rfl, later, related⟩
    · obtain ⟨outcome, last, related⟩ :=
        ih later (by rw [config_next, config_next, epochs]) related
      exact ⟨congrArg (Except.map (report :: ·)) outcome, last, related⟩

end Learner.Twins

end SemanticParsing
