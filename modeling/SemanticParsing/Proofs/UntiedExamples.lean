import SemanticParsing.Proofs.Margin
import SemanticParsing.Proofs.Separation
import SemanticParsing.Proofs.UpdateOrder
/-! Where no competitors tie, every draw is forced. An epoch then comes to the same whatever order
it visits the examples in and whatever is drawn from its generator. -/
namespace SemanticParsing

variable {σ α : Type} [Scalar α]

theorem Scalar.rearranges_rat : Scalar.Rearranges ℚ := fun x y z => add_right_comm x y z

namespace Learning

open Decoding

variable {metric : Metric} {records : Bool} {e : Example} {parses : List (Parse α)}
  {p q : Progress α} {ranked ranked' : List (Example × List (Parse α))} {name : String}

/-- If the example has a matching parse, there is just one competitor. -/
def Untied (metric : Metric) (e : Example) (parses : List (Parse α)) : Prop :=
  parses.any (metric.accepts · e) = true → (ofParses parses e metric).competitors.length = 1

def forced? (metric : Metric) (e : Example) (parses : List (Parse α)) :
    Option (Parse α × Parse α) := do
  let target ← targetOf parses e metric
  let chosen ← (competitorsOf parses e metric).head?
  return (target, chosen)

def forcedContrast? (metric : Metric) (pair : Example × List (Parse α)) : Option (Contrast α) :=
  (forced? metric pair.1 pair.2).map fun drawn => ⟨drawn.1.features, drawn.2.features⟩

def forcedCorrect (metric : Metric) (pair : Example × List (Parse α)) : Bool :=
  (forced? metric pair.1 pair.2).any fun drawn => metric.accepts drawn.2 pair.1

theorem forced?_of_uncontested (h : contested metric e parses = false) :
    forced? metric e parses = none := by
  rw [contested, Bool.and_eq_false_iff] at h
  rw [forced?]
  obtain untargeted | alone := h
  · rw [Option.isSome_eq_false_iff, Option.isNone_iff_eq_none] at untargeted
    rw [untargeted]
    rfl
  · have none : competitorsOf parses e metric = [] := by simpa using alone
    rw [none]
    cases targetOf parses e metric <;> rfl

theorem forced?_of_drew {after : Progress α} {target chosen : Parse α}
    (untied : Untied metric e parses) (drew : p.Drew metric e parses after target chosen) :
    forced? metric e parses = some (target, chosen) := by
  have accepted : parses.any (metric.accepts · e) = true := by
    rw [← isSome_targetOf, drew.isTarget]
    rfl
  have single : (competitorsOf parses e metric).length ≤ 1 :=
    (List.length_filterMap_le _ _).trans_eq (untied accepted)
  have only : competitorsOf parses e metric = [chosen] := by
    have competes := drew.competes
    match found : competitorsOf parses e metric with
    | [] => rw [found] at competes; cases competes
    | [parse] => rw [found] at competes; rw [List.mem_singleton.mp competes]
    | _ :: _ :: _ => rw [found] at single; simp at single
  rw [forced?, drew.isTarget, only]
  rfl

theorem visit_of_untied (untied : Untied metric e parses) (p : Progress α) (records : Bool) :
    (p.visit metric records e parses).correct =
        p.correct + (if forcedCorrect metric (e, parses) then 1 else 0) ∧
      (p.visit metric records e parses).pending =
        p.pending ++ (forcedContrast? metric (e, parses)).toList := by
  rw [forcedCorrect, forcedContrast?]
  cases isContested : contested metric e parses with
  | false =>
    obtain ⟨correct, pending⟩ := visit_of_uncontested (p := p) isContested records
    rw [forced?_of_uncontested isContested, correct, pending]
    simp
  | true =>
    obtain ⟨target, chosen, drew⟩ := visit_of_contested (p := p) isContested records
    rw [forced?_of_drew untied drew, drew.correct, drew.pending]
    exact ⟨rfl, rfl⟩

theorem visitEach_of_untied (untied : ∀ pair ∈ ranked, Untied metric pair.1 pair.2)
    (p : Progress α) (records : Bool) :
    (p.visitEach metric records ranked).correct =
        p.correct + ranked.countP (forcedCorrect metric) ∧
      (p.visitEach metric records ranked).pending =
        p.pending ++ ranked.filterMap (forcedContrast? metric) := by
  induction ranked generalizing p with
  | nil => exact ⟨rfl, (List.append_nil _).symm⟩
  | cons pair rest ih =>
    obtain ⟨e, parses⟩ := pair
    rw [List.forall_mem_cons] at untied
    have here : Untied metric e parses := untied.1
    obtain ⟨correct, pending⟩ := visit_of_untied here p records
    obtain ⟨correct', pending'⟩ := ih untied.2 (p.visit metric records e parses)
    rw [visitEach_cons, correct', pending', correct, pending]
    constructor
    · rw [List.countP_cons]
      omega
    · rw [List.append_assoc, List.filterMap_cons]
      cases forcedContrast? metric (e, parses) <;> rfl

theorem mem_vocabulary_visitEach_iff : name ∈ (p.visitEach metric records ranked).vocabulary ↔
    name ∈ p.vocabulary ∨
      records = true ∧ ∃ pair ∈ ranked, ∃ parse ∈ pair.2, name ∈ parse.features := by
  cases records with
  | true => simpa using mem_vocabulary_visitEach
  | false =>
    induction ranked generalizing p with
    | nil => simp [Progress.visitEach]
    | cons pair rest ih =>
      rw [Progress.visitEach, List.foldl_cons, ← Progress.visitEach, ih, vocabulary_visit]
      simp

/-- The same up to the order of the contrasts, and up to what is left of the generator. -/
structure Progress.Alike (p q : Progress α) : Prop where
  vocabulary : p.vocabulary = q.vocabulary
  correct : p.correct = q.correct
  pending : p.pending.Perm q.pending

/-- A walk over untied examples comes to the same in every order and with every generator. -/
theorem visitEach_alike (untied : ∀ pair ∈ ranked, Untied metric pair.1 pair.2)
    (perm : ranked.Perm ranked') (start : p.Alike q) :
    (p.visitEach metric records ranked).Alike (q.visitEach metric records ranked') := by
  have untied' : ∀ pair ∈ ranked', Untied metric pair.1 pair.2 :=
    fun pair member => untied pair (perm.mem_iff.mpr member)
  obtain ⟨correct, pending⟩ := visitEach_of_untied untied p records
  obtain ⟨correct', pending'⟩ := visitEach_of_untied untied' q records
  refine ⟨Std.ExtTreeSet.ext_mem fun name => ?_, ?_, ?_⟩
  · simp only [mem_vocabulary_visitEach_iff, start.vocabulary, perm.mem_iff]
  · rw [correct, correct', start.correct, perm.countP_eq]
  · rw [pending, pending']
    exact start.pending.append (perm.filterMap _)

end Learning

theorem Model.run_rankEach {model : Model σ α} (fixed : model.FixedFeatures)
    (outputs : model.FixedOutputs) {now : σ} {examples : List Example}
    (ranks : ∀ e ∈ examples, ∃ parses, ((model.rank e.input).run.run now).1 = .ok parses)
    (state : σ) : ∃ after, (model.rankEach examples).run.run state =
      (.ok (examples.map fun e => model.parsesOf e.input now), after) := by
  induction examples generalizing state with
  | nil => exact ⟨state, rfl⟩
  | cons e rest ih =>
    rw [List.forall_mem_cons] at ranks
    obtain ⟨parses, ranked⟩ := ranks.1
    have twins : model.Twins [e.input] (fun _ _ => True) Eq model :=
      (actsLike_self fixed outputs).twins rfl
    have alike := twins.rank (List.mem_singleton_self _) (s := state) (t := now) trivial
    have here : (model.rank e.input).run.run state =
        (.ok parses, ((model.rank e.input).run.run state).2) :=
      Prod.ext (alike.result.trans ranked) rfl
    obtain ⟨last, others⟩ := ih ranks.2 ((model.rank e.input).run.run state).2
    refine ⟨last, ?_⟩
    rw [rankEach, List.mapM_cons, Action.run_bind, here]
    simp only [Action.run_bind]
    rw [← rankEach, others, List.map_cons, parsesOf_of_rank fixed outputs here now]
    rfl

namespace Learner

/-- The features and outputs of the model are fixed. With the weights as they are, every example is
ranked, and each that has a matching parse has one competitor only. -/
structure Untied (learner : Learner σ α) (now : σ) : Prop where
  features : learner.model.FixedFeatures
  outputs : learner.model.FixedOutputs
  ranks : ∀ e ∈ learner.examples, ∃ parses,
    ((learner.model.rank e.input).run.run now).1 = .ok parses
  alone : ∀ e ∈ learner.examples,
    Learning.Untied learner.config.metric e (learner.model.parsesOf e.input now)

/-- An epoch that visits the examples in the given order and draws from the given generator. -/
def epochIn (learner : Learner σ α) (order : List Example) (generator : Random.Generator) :
    StateM σ (Learner σ α × Except LearnError EpochReport) :=
  if learner.lacksExecutor then return (learner, .error .missingExecutor)
  else learner.conclude <$> Learning.visitAll learner.model learner.config.metric
    learner.recordsVocabulary order { generator, vocabulary := learner.vocabulary }

theorem runEpoch_eq_epochIn (learner : Learner σ α) (state : σ) :
    learner.runEpoch.run state = (learner.epochIn learner.visited
      (learner.generator.permutation learner.examples.size).2).run state := by
  rw [runEpoch_eq, epochIn]
  split
  · rfl
  · rw [StateT.run_map]
    rfl

variable {learner : Learner σ α} {now : σ} {order order' : List Example}

namespace Untied

theorem epochIn_eq (h : learner.Untied now) (executor : learner.lacksExecutor = false)
    (reordered : order.Perm learner.examples.toList) (generator : Random.Generator) (state : σ) :
    let p : Learning.Progress α := { generator, vocabulary := learner.vocabulary }
    ((learner.epochIn order generator).run state).1 =
      learner.conclude (p.visitEach learner.config.metric learner.recordsVocabulary
        (order.map fun e => (e, learner.model.parsesOf e.input now)), none) := by
  intro p
  have ranks : ∀ e ∈ order, ∃ parses,
      ((learner.model.rank e.input).run.run now).1 = .ok parses :=
    fun e member => h.ranks e (Array.mem_toList_iff.mp (reordered.mem_iff.mp member))
  obtain ⟨after, ranked⟩ := Model.run_rankEach h.features h.outputs ranks state
  rw [epochIn, executor, if_neg Bool.false_ne_true, StateT.run_map,
    Learning.visitAll_of_ranked ranked, List.zip, List.zipWith_map_right, List.zipWith_self]
  rfl

theorem progress_alike (h : learner.Untied now) (reordered : order.Perm learner.examples.toList)
    (reordered' : order'.Perm learner.examples.toList) (generator generator' : Random.Generator) :
    let p : Learning.Progress α := { generator, vocabulary := learner.vocabulary }
    let q : Learning.Progress α := { p with generator := generator' }
    let rank (e : Example) := (e, learner.model.parsesOf e.input now)
    (p.visitEach learner.config.metric learner.recordsVocabulary (order.map rank)).Alike
      (q.visitEach learner.config.metric learner.recordsVocabulary (order'.map rank)) := by
  intro p q rank
  refine Learning.visitEach_alike ?_ ((reordered.trans reordered'.symm).map rank)
    ⟨rfl, rfl, .refl _⟩
  intro pair member
  obtain ⟨e, inside, rfl⟩ := List.mem_map.mp member
  exact h.alone e (Array.mem_toList_iff.mp (reordered.mem_iff.mp inside))

end Untied

theorem conclude_alike {p q : Learning.Progress α} (h : p.Alike q) (learner : Learner σ α) :
    (learner.conclude (p, none)).2 = (learner.conclude (q, none)).2 ∧
      (learner.conclude (p, none)).1.vocabulary = (learner.conclude (q, none)).1.vocabulary ∧
      (Scalar.Rearranges α → (learner.conclude (p, none)).1.model.weights =
        (learner.conclude (q, none)).1.model.weights) := by
  refine ⟨?_, h.vocabulary, fun rearranges => ?_⟩
  · simp only [conclude, h.correct, h.pending.length_eq]
  · change Learning.applyAll _ p.vocabulary.toList _ _ = Learning.applyAll _ _ _ _
    rw [h.vocabulary]
    exact Learning.applyAll_perm rearranges (Learning.nodup_toList _) h.pending _

/-- Let every example that has a matching parse have one competitor under the weights at the start
of an epoch. Then the epoch comes to the same from every seed: it gives the report and leaves the
vocabulary of an epoch that visits the examples in any order and draws from any generator, and it
leaves the same weights where sums may be rearranged, as in exact arithmetic. If outputs are to be
compared there must be something that makes them; otherwise every such epoch fails, and alike. -/
theorem seed_is_irrelevant (learner : Learner σ α) (now : σ) (untied : learner.Untied now)
    (seed draws : Random.Generator) (order : List Example)
    (reordered : order.Perm learner.examples.toList) (state state' : σ) :
    let seeded : Learner σ α := { learner with generator := seed }
    let epoch := (seeded.runEpoch.run state).1
    let other := ((learner.epochIn order draws).run state').1
    (learner.lacksExecutor = false → ∃ report, epoch.2 = .ok report) ∧
      epoch.2 = other.2 ∧ epoch.1.vocabulary = other.1.vocabulary ∧
      (Scalar.Rearranges α → epoch.1.model.weights = other.1.model.weights) := by
  intro seeded epoch other
  have asIn : epoch = ((seeded.epochIn seeded.visited
      (seed.permutation learner.examples.size).2).run state).1 :=
    congrArg Prod.fst (seeded.runEpoch_eq_epochIn state)
  cases executor : learner.lacksExecutor with
  | true =>
    have lacks : seeded.lacksExecutor = true := executor
    have fails : epoch = (seeded, .error .missingExecutor) := by
      rw [asIn, epochIn, if_pos lacks]
      rfl
    have fails' : other = (learner, .error .missingExecutor) := by
      simp only [other, epochIn, if_pos executor]
      rfl
    rw [fails, fails']
    exact ⟨nofun, rfl, rfl, fun _ => rfl⟩
  | false =>
    have fresh : seeded.Untied now := { untied with }
    have alike := untied.progress_alike seeded.visited_perm reordered
      (seed.permutation learner.examples.size).2 draws
    rw [asIn, fresh.epochIn_eq executor seeded.visited_perm]
    have otherEq := untied.epochIn_eq executor reordered draws state'
    simp only [other, otherEq]
    exact ⟨fun _ => ⟨_, rfl⟩, conclude_alike alike learner⟩

def outvoted : Learner Unit ℚ :=
  start { grammar := Grammar.ambiguous, features := Feature.rules }
    [{ input := "x", meaning := some (.int 1) }, { input := "x", meaning := some (.int 2) }]
    { eta := 1 / 10 }

theorem outvoted_untied : outvoted.Untied () where
  features _ _ _ := rfl
  outputs _ _ _ := rfl
  ranks e member := by
    have ranked : ∀ e ∈ outvoted.examples,
        ((outvoted.model.rank e.input).run.run ()).1.isOk = true := by decide +kernel
    cases result : ((outvoted.model.rank e.input).run.run ()).1 with
    | ok parses => exact ⟨parses, rfl⟩
    | error stop => simpa [result, Except.isOk, Except.toBool] using ranked e member
  alone := by
    unfold Learning.Untied
    decide +kernel

theorem seed_is_irrelevant_outvoted :
    let order := outvoted.examples.toList.reverse
    let seeded : Learner Unit ℚ := { outvoted with generator := .ofSeed 7 }
    let epoch := (seeded.runEpoch.run ()).1
    let other := ((outvoted.epochIn order (.ofSeed 8)).run ()).1
    outvoted.Untied () ∧ order.Perm outvoted.examples.toList ∧
      outvoted.lacksExecutor = false ∧ Scalar.Rearranges ℚ ∧
      epoch.2 = .ok ⟨0, 0, 2, 2⟩ ∧ other.2 = .ok ⟨0, 0, 2, 2⟩ ∧
      epoch.1.vocabulary = other.1.vocabulary ∧
      epoch.1.model.weights = other.1.model.weights := by
  have reordered : outvoted.examples.toList.reverse.Perm outvoted.examples.toList :=
    List.reverse_perm _
  have report : ((Learner.runEpoch { outvoted with generator := .ofSeed 7 }).run ()).1.2 =
      .ok ⟨0, 0, 2, 2⟩ := by decide +kernel
  obtain ⟨-, same, vocabulary, weights⟩ := seed_is_irrelevant outvoted () outvoted_untied
    (.ofSeed 7) (.ofSeed 8) _ reordered () ()
  exact ⟨outvoted_untied, reordered, rfl, Scalar.rearranges_rat, report, same.symm.trans report,
    vocabulary, weights Scalar.rearranges_rat⟩

end Learner

end SemanticParsing
