import SemanticParsing.Proofs.ParseTree
import SemanticParsing.Proofs.StableRanking
import SemanticParsing.Proofs.VocabularyPolicy
/-!
More rules than before. Every earlier derivation is still found, in the same order as before, and
rankings keep that order among derivations whose scores are equal.
-/
namespace SemanticParsing

theorem flatMap_sublist {α β : Type} {xs ys : List α} {f g : α → List β} (h : xs.Sublist ys)
    (each : ∀ x ∈ xs, (f x).Sublist (g x)) : (xs.flatMap f).Sublist (ys.flatMap g) := by
  induction h with
  | slnil => exact .slnil
  | cons y _ ih => exact (ih each).trans (List.sublist_append_right (g y) _)
  | cons_cons x _ ih =>
    rw [List.forall_mem_cons] at each
    exact each.1.append (ih each.2)

theorem occurrences_sublist (rules more : List Rule) :
    (occurrences rules).Sublist (occurrences (rules ++ more)) := by
  rw [occurrences, occurrences, List.mapIdx_append]
  exact List.sublist_append_left _ _

theorem categoryPairs_sublist (rules more : List Rule) :
    (categoryPairs rules).Sublist (categoryPairs (rules ++ more)) := by
  rw [categoryPairs, categoryPairs, List.filterMap_append, List.eraseDups_append]
  exact List.sublist_append_left _ _

theorem combine_sublist {uses uses' : List Occurrence}
    {lefts lefts' rights rights' : List Derivation} (hUses : uses.Sublist uses')
    (hLefts : lefts.Sublist lefts') (hRights : rights.Sublist rights') :
    (Grammar.combine uses lefts rights).Sublist (Grammar.combine uses' lefts' rights') :=
  flatMap_sublist hUses fun _ _ => flatMap_sublist hLefts fun _ _ => hRights.map _

/-- More rules add derivations between the others, at every cut and for every part of it. -/
theorem enumerate_sublist (rules more : List Rule) (category : String) (tokens : List String) :
    (enumerate rules category tokens).Sublist (enumerate (rules ++ more) category tokens) := by
  have uses := occurrences_sublist rules more
  induction category, tokens using enumerate.induct with
  | case1 category tokens ihRight ihLeft =>
    rw [enumerate_eq, enumerate_eq]
    refine .append (((uses.filter _).filter _).map _) ?_
    refine flatMap_sublist (.refl _) fun cut inCuts => ?_
    refine flatMap_sublist (categoryPairs_sublist rules more) fun pair _ => ?_
    exact combine_sublist ((uses.filter _).filter _) (ihLeft ⟨cut, inCuts⟩ pair)
      (ihRight ⟨cut, inCuts⟩ pair)

namespace Ranking

variable {α κ : Type} [LinearOrder κ] {before : α → α → Bool} {key : α → κ} {x : α}
  {xs ys : List α}

theorem insertFromEnd_of_stays (stays : ∀ y ∈ ys, before x y = false) :
    insertFromEnd before x ys = x :: ys := by
  cases ys with
  | nil => rfl
  | cons y ys => simp [insertFromEnd, stays y List.mem_cons_self]

theorem sublist_insertFromEnd (before : α → α → Bool) (x : α) (ys : List α) :
    ys.Sublist (insertFromEnd before x ys) := by
  induction ys with
  | nil => exact List.nil_sublist _
  | cons y ys ih =>
    rw [insertFromEnd]
    split
    · exact ih.cons_cons y
    · exact List.sublist_cons_self x _

theorem insertFromEnd_sublist (byKey : ∀ y ∈ ys, before x y = true ↔ key y < key x)
    (ascending : ys.Pairwise fun y z => key y ≤ key z) (h : xs.Sublist ys) :
    (insertFromEnd before x xs).Sublist (insertFromEnd before x ys) := by
  induction h with
  | slnil => exact .refl _
  | @cons xs ys y h ih =>
    rw [List.forall_mem_cons] at byKey
    obtain ⟨least, rest⟩ := List.pairwise_cons.mp ascending
    have later := ih byKey.2 rest
    rw [insertFromEnd.eq_2]
    split
    case isTrue => exact later.cons y
    case isFalse stays =>
      have low : key x ≤ key y := not_lt.mp fun less => stays (byKey.1.mpr less)
      have none : ∀ z ∈ xs, before x z = false := fun z member => by
        have inside := h.subset member
        rw [Bool.eq_false_iff, ne_eq, byKey.2 z inside, not_lt]
        exact low.trans (least z inside)
      rw [insertFromEnd_of_stays none]
      exact (h.cons y).cons_cons x
  | @cons_cons xs ys y h ih =>
    rw [List.forall_mem_cons] at byKey
    have later := ih byKey.2 (List.pairwise_cons.mp ascending).2
    rw [insertFromEnd, insertFromEnd]
    split
    · exact later.cons_cons y
    · exact (h.cons_cons y).cons_cons x

theorem sort_sublist (byKey : ∀ x ∈ ys, ∀ y ∈ ys, before x y = true ↔ key y < key x)
    (h : xs.Sublist ys) : (sort before xs).Sublist (sort before ys) := by
  induction ys using List.reverseRecOn generalizing xs with
  | nil => rw [List.sublist_nil.mp h]
  | append_singleton ys y ih =>
    have old : ∀ z ∈ ys, z ∈ ys ++ [y] := fun z => List.mem_append_left _
    have byOld : ∀ x ∈ ys, ∀ z ∈ ys, before x z = true ↔ key z < key x :=
      fun x hx z hz => byKey x (old x hx) z (old z hz)
    obtain ⟨first, last, rfl, fromOld, fromLast⟩ := List.sublist_append_iff.mp h
    have sorted := (ih byOld fromOld).reverse
    rw [sort_concat]
    obtain rfl | rfl := List.sublist_singleton.mp fromLast
    · have grown := (sublist_insertFromEnd before y (sort before ys).reverse).reverse
      rw [List.reverse_reverse] at grown
      rw [List.append_nil]
      exact (ih byOld fromOld).trans grown
    · have byLast : ∀ z ∈ (sort before ys).reverse, before y z = true ↔ key z < key y := by
        intro z member
        rw [List.mem_reverse, (sort_perm before ys).mem_iff] at member
        exact byKey y (by simp) z (old z member)
      have ascending := List.pairwise_reverse.mpr (sort_descending byOld)
      rw [sort_concat]
      exact (insertFromEnd_sublist byLast ascending sorted).reverse

end Ranking

namespace Model

variable {σ : Type} {model : Model σ Float} {sentence : String} {state after : σ}

def scoreIn (model : Model σ Float) (now : σ) (d : Derivation) : Float :=
  (model.features now d).dot model.weights

/-- The parse of a derivation, with its score. -/
def Rates (model : Model σ Float) (now : σ) (parse : Parse Float) (d : Derivation) : Prop :=
  parse.derivation = d ∧ parse.score = model.scoreIn now d

theorem Executes.rates (fixed : model.FixedFeatures) (now : σ) {ds : List Derivation}
    {parses : List (Parse Float)} (h : model.Executes state ds (.ok parses) after) :
    List.Forall₂ (model.Rates now) parses ds := by
  generalize ended : Except.ok parses = found at h
  induction h generalizing parses with
  | done => cases ended; exact .nil
  | stopped | stoppedLater => cases ended
  | @executed before _ _ d _ _ _ _ _ ih =>
    cases ended
    have score : (model.features before d).dot model.weights = model.scoreIn now d := by
      rw [scoreIn, fixed before now d]
    exact .cons ⟨rfl, score⟩ (ih rfl)

theorem rank_of_no_executor (none : model.executor = none) (sentence : String) (state : σ) :
    ∃ parses, (model.rank sentence).run.run state = (.ok parses, state) := by
  obtain ⟨found, after, executes⟩ :=
    Executes.exists_found model (model.grammar.parse sentence) state
  obtain ⟨rfl, inOrder, rfl, -⟩ := executes.without_executor none
  refine ⟨Ranking.sort Parse.beats inOrder, ?_⟩
  rw [rank, Action.run_bind, executes.run_mapM]
  rfl

/-- A ranking is the derivations of the parser, sorted by their scores. -/
theorem rates_rank (model : Model σ Float) (fixed : model.FixedFeatures) (now : σ)
    {parses : List (Parse Float)}
    (ranked : (model.rank sentence).run.run state = (.ok parses, after)) :
    List.Forall₂ (model.Rates now) parses
      (Ranking.sort (fun d e => Scalar.less (model.scoreIn now e) (model.scoreIn now d))
        (model.grammar.parse sentence)) := by
  obtain ⟨inOrder, later, scored, ended⟩ := Action.of_run_bind_ok ranked
  rw [Action.run_pure] at ended
  cases ended
  obtain ⟨found, last, executes⟩ :=
    Executes.exists_found model (model.grammar.parse sentence) state
  obtain ⟨rfl, rfl⟩ := Prod.mk.inj (executes.run_mapM.symm.trans scored)
  refine Ranking.sort_related (fun p d q e first second => ?_) (executes.rates fixed now)
  rw [Parse.beats, first.2, second.2]

theorem maps_of_rates {now : σ} {parses : List (Parse Float)} {ds : List Derivation}
    (h : List.Forall₂ (model.Rates now) parses ds) :
    parses.map Parse.derivation = ds ∧ parses.map Parse.score = ds.map (model.scoreIn now) := by
  induction h with
  | nil => exact ⟨rfl, rfl⟩
  | cons here _ ih =>
    obtain ⟨derivation, score⟩ := here
    exact ⟨by rw [List.map_cons, derivation, ih.1],
      by rw [List.map_cons, List.map_cons, score, ih.2]⟩

theorem rank_sublist (model : Model σ Float) (fixed : model.FixedFeatures) {wider : Grammar}
    (kept : (model.grammar.parse sentence).Sublist (wider.parse sentence))
    {state' after' : σ} {parses parses' : List (Parse Float)}
    (ranked : (model.rank sentence).run.run state = (.ok parses, after))
    (ranked' : ({ model with grammar := wider }.rank sentence).run.run state' =
      (.ok parses', after'))
    (numbers : ∀ parse ∈ parses', parse.score.isNaN = false) :
    (parses.map Parse.derivation).Sublist (parses'.map Parse.derivation) := by
  have narrow := maps_of_rates (model.rates_rank fixed state ranked)
  have wide :=
    maps_of_rates (rates_rank { model with grammar := wider } fixed state ranked')
  rw [narrow.1, wide.1]
  have isNumber {d : Derivation} (member : d ∈ wider.parse sentence) :
      (model.scoreIn state d).isNaN = false := by
    have inside := (Ranking.sort_perm (fun d e =>
      Scalar.less (model.scoreIn state e) (model.scoreIn state d)) _).mem_iff.mpr member
    have rated : model.scoreIn state d ∈ parses'.map Parse.score :=
      wide.2 ▸ List.mem_map_of_mem inside
    obtain ⟨parse, among, score⟩ := List.mem_map.mp rated
    exact score ▸ numbers parse among
  have byPlace : ∀ d ∈ wider.parse sentence, ∀ e ∈ wider.parse sentence,
      Scalar.less (model.scoreIn state e) (model.scoreIn state d) = true ↔
        Decimal.place (model.scoreIn state e) < Decimal.place (model.scoreIn state d) := by
    intro d member e member'
    rw [← Decimal.lt_iff (isNumber member') (isNumber member)]
    exact decide_eq_true_iff
  exact Ranking.sort_sublist byPlace kept

end Model

namespace Grammar

/-- A rule that can be accepted adds derivations between the earlier ones, which all stay in their
order. Rankings without NaN keep them in order too: what came before another reading, by its score
or because it was parsed first, still does. -/
theorem adding_keeps_readings {σ : Type} {grammar : Grammar} {rules : List Rule}
    (built : Built grammar rules) {rule : Rule} (valid : rule.Accepted) :
    ∃ next, grammar.add rule = .ok next ∧
      (∀ sentence, (grammar.parse sentence).Sublist (next.parse sentence)) ∧
      ∀ (model : Model σ Float) (sentence : String) (state state' after after' : σ)
        (parses parses' : List (Parse Float)), model.FixedFeatures →
        ({ model with grammar }.rank sentence).run.run state = (.ok parses, after) →
        ({ model with grammar := next }.rank sentence).run.run state' = (.ok parses', after') →
        (∀ parse ∈ parses', parse.score.isNaN = false) →
        (parses.map Parse.derivation).Sublist (parses'.map Parse.derivation) := by
  obtain ⟨next, added⟩ := (@exists_add_iff grammar rule).mpr valid
  have kept (sentence : String) : (grammar.parse sentence).Sublist (next.parse sentence) := by
    rw [parse_eq built, parse_eq (built.add added), startCategory_add added]
    exact enumerate_sublist rules [rule] ..
  refine ⟨next, added, kept, ?_⟩
  intro model sentence state state' after after' parses parses' fixed ranked ranked' numbers
  exact Model.rank_sublist { model with grammar } fixed (kept sentence) ranked ranked'
    numbers

/-- Another way to read the first two words of a sum, which is found before the way by signs. -/
def hasty : Rule := Rule.lexical "$EBO" "one plus" (.int 0)

def impartial (grammar : Grammar) : Model Unit Float := { grammar, features := Feature.none }

theorem adding_hasty_keeps_readings : Built sample sampleRules ∧ hasty.Accepted ∧
    ∃ next, sample.add hasty = .ok next ∧
      (sample.parse "one plus one").Sublist (next.parse "one plus one") ∧
      ∃ parses parses', ((impartial sample).rank "one plus one").run.run () = (.ok parses, ()) ∧
        ((impartial next).rank "one plus one").run.run () = (.ok parses', ()) ∧
        (∀ parse ∈ parses', parse.score.isNaN = false) ∧
        (parses.map Parse.derivation).Sublist (parses'.map Parse.derivation) := by
  have valid : hasty.Accepted := ⟨.lexical, rfl⟩
  obtain ⟨next, added, kept, ranks⟩ := adding_keeps_readings (σ := Unit) sample_built valid
  have fixed (grammar : Grammar) : (impartial grammar).FixedFeatures := fun _ _ _ => rfl
  obtain ⟨parses, ranked⟩ := (impartial sample).rank_of_no_executor rfl "one plus one" ()
  obtain ⟨parses', ranked'⟩ := (impartial next).rank_of_no_executor rfl "one plus one" ()
  have numbers : ∀ parse ∈ parses', parse.score.isNaN = false := fun parse member => by
    have scores := (Model.maps_of_rates ((impartial next).rates_rank (fixed next) () ranked')).2
    obtain ⟨d, -, score⟩ := List.mem_map.mp (scores ▸ List.mem_map_of_mem member)
    have zero : (impartial next).scoreIn () d = -0.0 := rfl
    rw [← score, zero]
    decide
  exact ⟨sample_built, valid, next, added, kept "one plus one", parses, parses', ranked, ranked',
    numbers, ranks (impartial sample) _ () () () () _ _ (fixed sample) ranked ranked' numbers⟩

end Grammar

end SemanticParsing
