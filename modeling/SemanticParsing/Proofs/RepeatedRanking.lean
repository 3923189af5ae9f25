import SemanticParsing.Proofs.LocalEffects
import SemanticParsing.Proofs.MirrorRun
import SemanticParsing.Proofs.Reach
import SemanticParsing.Proofs.VocabularyPolicy
/-! Evaluations without assignments have local effects. So where meanings define nothing either, a
ranking does not depend on the rankings before it. -/
namespace SemanticParsing

open Value

variable {α : Type} {heap after : Heap} {root : ScopeId} {fuel : Nat}

def Value.SoundIn (heap : Heap) (v : Value) : Prop :=
  v.EachLambda fun _ _ c i => c < heap.size ∧ i < heap.nextIdentity

def Heap.ChangesOnly.mirror (changes : heap.ChangesOnly heap.size root [] after)
    (sound : heap.Sound) : Mirror where
  scopes a b := a = b ∧ a < heap.size
  identities i j := i = j ∧ i < heap.nextIdentity
  left := heap
  right := after
  fits :=
    { scopes_lt := by
        rintro a _ ⟨rfl, inside⟩
        exact ⟨inside, Nat.lt_of_lt_of_le inside changes.size_le⟩
      identities_lt := by
        rintro i _ ⟨rfl, given⟩
        exact ⟨given, Nat.lt_of_lt_of_le given changes.nextIdentity_le⟩
      scopes_unique :=
        ⟨fun _ _ _ h h' => h.1.trans h'.1.symm, fun _ _ _ h h' => h.1.symm.trans h'.1⟩
      identities_unique :=
        ⟨fun _ _ _ h h' => h.1.trans h'.1.symm, fun _ _ _ h h' => h.1.symm.trans h'.1⟩
      outer := by
        rintro a _ ⟨rfl, inside⟩
        rw [changes.outer a inside]
        cases outer : heap.outer? a with
        | none => exact .none
        | some o => exact .some ⟨rfl, Nat.lt_trans (Heap.lt_of_outer? outer) inside⟩
      bound := by
        rintro a _ ⟨rfl, inside⟩ name
        rw [changes.bindings_eq inside (.inr rfl)]
        cases bound : (heap.bindings a)[name]? with
        | none => exact .none
        | some v =>
          refine .some (Value.alike_self fun l isLambda occurs => ?_)
          cases isLambda with
          | lambda parameters body c i =>
            have known := sound a name v bound parameters body c i occurs
            exact ⟨⟨rfl, known.1⟩, rfl, known.2⟩ }

/-- The same parse, up to procedures in its output. -/
structure Parse.Alike (corresponds : Value → Value → Prop) (p q : Parse α) : Prop where
  derivation : p.derivation = q.derivation
  score : p.score = q.score
  features : p.features = q.features
  output : Option.Rel (Value.Alike corresponds) p.output q.output

structure Parse.Repeats (p q : Parse α) : Prop extends Parse.Alike (fun _ _ => True) p q where
  plain : ∀ v : Value, v.isPlain → (p.output = some v ↔ q.output = some v)

theorem Parse.Alike.repeats {corresponds : Value → Value → Prop} {p q : Parse α}
    (h : p.Alike corresponds q) : p.Repeats q where
  derivation := h.derivation
  score := h.score
  features := h.features
  output := rel_mono h.output fun _ _ alike => alike.mono fun _ _ _ => trivial
  plain v isPlain := by
    have output := h.output
    generalize p.output = found, q.output = found' at output
    cases output with
    | none => rfl
    | some alike =>
      simp only [Option.some.injEq]
      constructor
      · rintro rfl
        exact (alike.eq_of_isPlain isPlain).symm
      · rintro rfl
        exact (alike.symm.eq_of_isPlain isPlain).symm

/-- Evaluating the meaning assigns nothing, and defines nothing but inside of calls. -/
structure Value.Quiet (v : Value) : Prop where
  assigned : v.assignedNames = []
  defined : v.definedNames = []
  unassigning : v.Unassigning

theorem Model.execute_eq {model : Model Heap α}
    (executor : model.executor = some (Evaluator.executor fuel root)) (v : Value) :
    model.execute v = some <$> Evaluator.eval fuel v root := by
  rw [execute, executor]
  rfl

variable [Scalar α] {model : Model Heap α} {sentence : String} {bound : Nat} {m : Mirror}

namespace Model

theorem scored_local (executor : model.executor = some (Evaluator.executor fuel root))
    (inv : (Heap.localEffects bound root []).Inv heap) {d : Derivation} (quiet : d.meaning.Quiet) :
    (model.scored d).Keeps (Heap.localEffects bound root []) heap fun _ _ => True := by
  have admitted : d.meaning.Admitted bound root [] root :=
    ⟨quiet.assigned, quiet.unassigning, .inr ⟨rfl, by simp [quiet.defined]⟩⟩
  have read : (get : Action Heap Heap).Keeps (Heap.localEffects bound root []) heap
      fun _ _ => True :=
    Action.keeps_of_run rfl inv (.refl heap) trivial
  refine read.bind fun later _ inv' _ _ => ?_
  have evaluated := ((Evaluator.localEffects_upheld bound root []).keepsTo fuel).eval later
    _ root inv' admitted
  have executed : (model.execute d.meaning).Keeps (Heap.localEffects bound root []) later
      fun _ _ => True := by
    rw [execute_eq executor, map_eq_pure_bind]
    exact evaluated.bind fun _ _ inv'' _ _ => Action.keeps_pure inv'' trivial
  exact executed.bind fun _ _ inv'' _ _ => Action.keeps_pure inv'' trivial

theorem rank_local (executor : model.executor = some (Evaluator.executor fuel root))
    (inv : (Heap.localEffects bound root []).Inv heap)
    (quiet : ∀ d ∈ model.grammar.parse sentence, d.meaning.Quiet) :
    (model.rank sentence).Keeps (Heap.localEffects bound root []) heap fun _ _ => True := by
  have scored : ((model.grammar.parse sentence).mapM model.scored).Keeps
      (Heap.localEffects bound root []) heap fun _ parses => ∀ parse ∈ parses, True :=
    Action.keeps_mapM inv (fun _ _ _ _ _ => id) fun later inv' _ d isParse =>
      scored_local executor inv' (quiet d isParse)
  exact scored.bind fun _ _ inv' _ _ => Action.keeps_pure inv' trivial

/-- The state after sentences are ranked one after the other, whether or not rankings stop. -/
def ranked (model : Model Heap α) (sentences : List String) (heap : Heap) : Heap :=
  sentences.foldl (fun heap sentence => ((model.rank sentence).run.run heap).2) heap

theorem changesOnly_ranked (executor : model.executor = some (Evaluator.executor fuel root))
    {sentences : List String} (inv : (Heap.localEffects bound root []).Inv heap)
    (quiet : ∀ sentence ∈ sentences, ∀ d ∈ model.grammar.parse sentence, d.meaning.Quiet) :
    heap.ChangesOnly bound root [] (model.ranked sentences heap) := by
  induction sentences generalizing heap with
  | nil => exact .refl heap
  | cons sentence rest ih =>
    rw [List.forall_mem_cons] at quiet
    have first := rank_local executor inv quiet.1
    exact first.step.trans (ih first.inv quiet.2)

theorem scored_runs (executor : model.executor = some (Evaluator.executor fuel root))
    (fixed : model.FixedFeatures) (paired : m.scopes root root) {d : Derivation}
    (alike : m.Values d.meaning d.meaning) :
    m.Runs (model.scored d) (model.scored d) fun after p q => p.Alike after.Procedures q := by
  have read : m.Runs (get : Action Heap Heap) get fun _ _ _ => True :=
    ⟨m, _, _, .refl m, rfl, rfl, .ok trivial⟩
  refine read.bind fun later a b step _ => ?_
  rw [fixed b a, execute_eq executor, map_eq_pure_bind]
  have evaluated := (Evaluator.mirroredTo fuel).eval later root root _ _
    (step.sub.scopes _ _ paired) (step.sub.values alike)
  have executed : later.Runs (Evaluator.eval fuel d.meaning root >>= fun v => pure (some v))
      (Evaluator.eval fuel d.meaning root >>= fun v => pure (some v))
      fun after => Option.Rel after.Values :=
    evaluated.bind fun _ _ _ _ alike => Mirror.runs_pure (.some alike)
  exact executed.bind fun _ _ _ _ output => Mirror.runs_pure ⟨rfl, rfl, rfl, output⟩

theorem rank_runs (executor : model.executor = some (Evaluator.executor fuel root))
    (fixed : model.FixedFeatures) (paired : m.scopes root root)
    (alike : ∀ d ∈ model.grammar.parse sentence, m.Values d.meaning d.meaning) :
    m.Runs (model.rank sentence) (model.rank sentence)
      fun after => List.Forall₂ (Parse.Alike after.Procedures) := by
  have all : List.Forall₂ (fun d e => d = e ∧ d ∈ model.grammar.parse sentence)
      (model.grammar.parse sentence) (model.grammar.parse sentence) :=
    List.forall₂_same.mpr fun d member => ⟨rfl, member⟩
  refine (Mirror.runs_mapM ?lasts all ?each).bind fun _ _ _ _ parses =>
    Mirror.runs_pure (Ranking.sort_related ?agree parses)
  case lasts =>
    intro first second p q step h
    exact { h with output := rel_mono h.output fun _ _ => step.sub.values }
  case each =>
    rintro later step d _ ⟨rfl, isParse⟩
    exact scored_runs executor fixed (step.sub.scopes _ _ paired)
      (step.sub.values (alike d isParse))
  case agree =>
    intro p q p' q' h h'
    rw [Parse.beats, Parse.beats, h.score, h'.score]

/-- A ranking gives the same after other sentences were ranked. -/
theorem rank_repeats (unassigning : heap.Unassigning) (sound : heap.Sound)
    (inside : root < heap.size) (fixed : model.FixedFeatures)
    (executor : model.executor = some (Evaluator.executor fuel root))
    {earlier : List String}
    (quiet : ∀ sentence ∈ earlier, ∀ d ∈ model.grammar.parse sentence, d.meaning.Quiet)
    (known : ∀ d ∈ model.grammar.parse sentence, d.meaning.SoundIn heap) :
    Ends (List.Forall₂ Parse.Repeats) ((model.rank sentence).run.run heap).1
      ((model.rank sentence).run.run (model.ranked earlier heap)).1 := by
  have changes : heap.ChangesOnly heap.size root [] (model.ranked earlier heap) :=
    changesOnly_ranked executor ⟨unassigning, Nat.le_refl _⟩ quiet
  have paired : (changes.mirror sound).scopes root root := ⟨rfl, inside⟩
  have alike (d : Derivation) (isParse : d ∈ model.grammar.parse sentence) :
      (changes.mirror sound).Values d.meaning d.meaning := by
    refine Value.alike_self fun l isLambda occurs => ?_
    cases isLambda with
    | lambda parameters body c i =>
      have given := known d isParse parameters body c i occurs
      exact ⟨⟨rfl, given.1⟩, rfl, given.2⟩
  obtain ⟨last, result, result', -, left, right, ends⟩ := rank_runs executor fixed paired alike
  have ends' : Ends (List.Forall₂ Parse.Repeats) result result' :=
    ends.imp fun _ _ parses => parses.imp fun _ _ alike => alike.repeats
  exact (congrArg Prod.fst left).symm ▸ (congrArg Prod.fst right).symm ▸ ends'

end Model

/-- Let no procedure of the heap assign. An expression that does not assign either, evaluated in a
scope, leaves all other scopes of the heap as they were, whether it gives a value or stops, and
in that scope at most defines names by its own `define` forms, not by those in the bodies of
procedures. So with no such form it changes no scope of the heap. A model whose features depend on
the derivation alone and that evaluates such meanings ranks a sentence alike however many sentences
were ranked before: the same parses in the same order, up to procedures made in between, or the same
stop. -/
theorem evaluation_is_local (heap : Heap) (unassigning : heap.Unassigning) :
    (∀ (fuel : Nat) (s : ScopeId) (e : Value), e.assignedNames = [] → e.Unassigning →
      let after := ((Evaluator.eval fuel e s).run.run heap).2
      (∀ t < heap.size, t ≠ s → after.scopes[t]? = heap.scopes[t]?) ∧
        (s < heap.size → after.outer? s = heap.outer? s ∧
          ∃ entries : List (String × Value), (∀ entry ∈ entries, entry.1 ∈ e.definedNames) ∧
            after.bindings s = (heap.bindings s).insertMany entries) ∧
        (e.definedNames = [] → ∀ t < heap.size, after.scopes[t]? = heap.scopes[t]?)) ∧
    (heap.Sound → ∀ (model : Model Heap α) (fuel : Nat) (root : ScopeId), root < heap.size →
      model.FixedFeatures → model.executor = some (Evaluator.executor fuel root) →
      ∀ (earlier : List String) (sentence : String),
        (∀ text ∈ sentence :: earlier, ∀ d ∈ model.grammar.parse text,
          d.meaning.Quiet ∧ d.meaning.SoundIn heap) →
        Ends (List.Forall₂ Parse.Repeats) ((model.rank sentence).run.run heap).1
          ((model.rank sentence).run.run (model.ranked earlier heap)).1) := by
  constructor
  · intro fuel s e assigned unassigning' after
    have admitted : e.Admitted heap.size s e.definedNames s :=
      ⟨assigned, unassigning', .inr ⟨rfl, fun _ => id⟩⟩
    have changes : heap.ChangesOnly heap.size s e.definedNames after :=
      (((Evaluator.localEffects_upheld heap.size s e.definedNames).keepsTo fuel).eval heap e s
        ⟨unassigning, Nat.le_refl _⟩ admitted).step
    refine ⟨fun t inside other => changes.scopes_eq inside (.inl other), fun inside => ?_,
      fun none t inside => changes.scopes_eq inside (.inr none)⟩
    obtain ⟨entries, own, made⟩ := changes.bindings s inside
    exact ⟨changes.outer s inside, entries, fun entry member => (own entry member).2, made⟩
  · intro sound model fuel root inside fixed executor earlier sentence meanings
    rw [List.forall_mem_cons] at meanings
    exact Model.rank_repeats unassigning sound inside fixed executor
      (fun text member d isParse => (meanings.2 text member d isParse).1)
      fun d isParse => (meanings.1 d isParse).2

def square : Value :=
  .list [.list [.symbol "lambda", .list [.symbol "y"],
      .list [.symbol "define", .symbol "z", .list [.symbol "*", .symbol "y", .symbol "y"]],
      .symbol "z"],
    .int 3]

def Model.squares : Model Heap Float where
  grammar := (Grammar.ofRules [Rule.lexical "$E" "nine" square]).toOption.getD .empty
  features := Feature.rules
  executor := some (Evaluator.executor 9 0)

theorem Heap.unassigning_pushStandard : Heap.empty.pushStandard.2.Unassigning := by
  refine Unassigning.push (fun s name v bound => ?_) fun _ _ bound =>
    (Scope.isAtom_of_standardBindings bound).eachLambda
  simp [Heap.bindings, Heap.empty] at bound

theorem Model.squares_meanings : ∀ d ∈ squares.grammar.parse "nine",
    d.meaning.Quiet ∧ d.meaning.SoundIn Heap.empty.pushStandard.2 := by
  have plain : ∀ d ∈ squares.grammar.parse "nine", d.meaning.isPlain ∧
      d.meaning.assignedNames = [] ∧ d.meaning.definedNames = [] := by decide +kernel
  intro d isParse
  obtain ⟨isPlain, assigned, defined⟩ := plain d isParse
  exact ⟨⟨assigned, defined, eachLambda_of_isPlain isPlain⟩, eachLambda_of_isPlain isPlain⟩

theorem squares_are_local :
    let heap := Heap.empty.pushStandard.2
    let e : Value := .list [.symbol "define", .symbol "a", square]
    heap.Unassigning ∧ heap.Sound ∧ 0 < heap.size ∧ Model.squares.FixedFeatures ∧
      e.assignedNames = [] ∧ e.Unassigning ∧ e.definedNames = ["a"] ∧
      (∃ entries : List (String × Value), (∀ entry ∈ entries, entry.1 ∈ e.definedNames) ∧
        ((Evaluator.eval 9 e 0).run.run heap).2.bindings 0 =
          (heap.bindings 0).insertMany entries) ∧
      Ends (List.Forall₂ Parse.Repeats) ((Model.squares.rank "nine").run.run heap).1
        ((Model.squares.rank "nine").run.run
          (Model.squares.ranked ["nine", "nine"] heap)).1 := by
  intro heap e
  obtain ⟨evaluations, rankings⟩ := evaluation_is_local (α := Float) heap
    Heap.unassigning_pushStandard
  have unassigning : e.Unassigning := eachLambda_of_isPlain (by decide)
  have meanings : ∀ text ∈ ["nine", "nine", "nine"], ∀ d ∈ Model.squares.grammar.parse text,
      d.meaning.Quiet ∧ d.meaning.SoundIn heap := by
    simpa using Model.squares_meanings
  refine ⟨Heap.unassigning_pushStandard, Heap.sound_empty.pushStandard, by decide,
    fun _ _ _ => rfl, by decide, unassigning, by decide, ?_, ?_⟩
  · exact ((evaluations 9 0 e (by decide) unassigning).2.1 (by decide)).2
  · exact rankings Heap.sound_empty.pushStandard Model.squares 9 0 (by decide)
      (fun _ _ _ => rfl) rfl ["nine", "nine"] "nine" meanings

end SemanticParsing
