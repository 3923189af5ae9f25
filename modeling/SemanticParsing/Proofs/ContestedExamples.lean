import Mathlib.Data.List.Induction
import SemanticParsing.Proofs.EpochRankings
/-! An example is contested when it has a target and competitors. An epoch draws one competitor of
each contested example and counts no other example. -/
namespace SemanticParsing

namespace Random.Generator

variable {α : Type} {g : Generator} {bound : Nat}

theorem drawBelow_lt (positive : 0 < bound) (left : Nat) (g : Generator) :
    (drawBelow bound left g).1 < bound := by
  induction left generalizing g with
  | zero => exact positive
  | succ left ih =>
    rw [drawBelow]
    simp only
    split
    · exact Nat.div_lt_of_lt_mul (Nat.mul_lt_mul_of_pos_right (UInt32.toNat_lt_size _) positive)
    · exact ih _

theorem choose?_mem {xs : List α} (nonempty : xs ≠ []) :
    ∃ x ∈ xs, (g.choose? xs).1 = some x := by
  have inside : (g.below xs.length).1 < xs.length :=
    drawBelow_lt (List.length_pos_iff.mpr nonempty) tries g
  refine ⟨xs[(g.below xs.length).1], List.getElem_mem inside, ?_⟩
  rw [choose?, if_neg (by simpa using nonempty)]
  exact List.getElem?_eq_getElem inside

end Random.Generator

variable {α : Type} [Scalar α]

namespace Decoding

theorem leaders_concat (points : List α) (x : α) :
    leaders (points ++ [x]) = (leaders points).consider points.length x := by
  simp [leaders, List.zipIdx_append, List.foldl_append]

/-- The leaders either stay, or the new position joins them or takes their place. -/
theorem Leaders.consider_cases (l : Leaders α) (i : Nat) (x : α) :
    (l.consider i x).positions = l.positions ∨ ∃ kept : List Nat,
      (l.consider i x).positions = kept ++ [i] ∧ (kept = l.positions ∨ kept = []) := by
  rw [consider]
  split
  · split
    · exact .inr ⟨[], rfl, .inr rfl⟩
    · exact .inl rfl
  · split
    · exact .inr ⟨[], rfl, .inr rfl⟩
    · split
      · exact .inr ⟨l.positions, rfl, .inl rfl⟩
      · exact .inl rfl

theorem lt_of_mem_positions {points : List α} {i : Nat}
    (member : i ∈ (leaders points).positions) : i < points.length := by
  induction points using List.reverseRecOn with
  | nil => simp [leaders] at member
  | append_singleton points x ih =>
    rw [List.length_append, List.length_singleton]
    rw [leaders_concat] at member
    obtain same | ⟨kept, new, old⟩ := (leaders points).consider_cases points.length x
    · rw [same] at member
      exact Nat.lt_succ_of_lt (ih member)
    · rw [new, List.mem_append, List.mem_singleton] at member
      obtain earlier | rfl := member
      · obtain rfl | rfl := old
        · exact Nat.lt_succ_of_lt (ih earlier)
        · cases earlier
      · exact Nat.lt_succ_self _

theorem positions_ne_nil_iff {points : List α} :
    (leaders points).positions ≠ [] ↔ ∃ x ∈ points, Scalar.lessOrEqual x x = true := by
  have start : ((leaders points).best = none ↔ (leaders points).positions = []) ∧
      ((leaders points).best = none ↔ ∀ x ∈ points, Scalar.lessOrEqual x x = false) := by
    induction points using List.reverseRecOn with
    | nil => simp [leaders]
    | append_singleton points x ih =>
      rw [leaders_concat, Leaders.consider]
      cases best : (leaders points).best with
      | none =>
        simp only
        split <;> simp_all [or_imp]
      | some b =>
        have led : ¬ ∀ x ∈ points, Scalar.lessOrEqual x x = false := by simp [← ih.2, best]
        simp only
        split
        · simp_all
        · split <;> simp_all
  rw [ne_eq, ← start.1, start.2]
  simp

def targetOf (parses : List (Parse α)) (e : Example) (metric : Metric) : Option (Parse α) :=
  (ofParses parses e metric).target.bind (parses[·]?)

def competitorsOf (parses : List (Parse α)) (e : Example) (metric : Metric) : List (Parse α) :=
  (ofParses parses e metric).competitors.filterMap (parses[·]?)

variable {parses : List (Parse α)} {e : Example} {metric : Metric} {target : Parse α}

theorem mem_of_targetOf (h : targetOf parses e metric = some target) : target ∈ parses := by
  obtain ⟨i, -, found⟩ := Option.bind_eq_some_iff.mp h
  exact List.mem_of_getElem? found

theorem lt_of_mem_competitors {i : Nat} (member : i ∈ (ofParses parses e metric).competitors) :
    i < parses.length := by
  simpa using lt_of_mem_positions member

theorem target_ofParses (parses : List (Parse α)) (e : Example) (metric : Metric) :
    (ofParses parses e metric).target = parses.findIdx? (metric.accepts · e) := by
  rw [ofParses, ofScores, List.findIdx?_map]
  rfl

theorem isSome_targetOf : (targetOf parses e metric).isSome = parses.any (metric.accepts · e) := by
  rw [targetOf, target_ofParses, ← List.findIdx?_isSome]
  cases found : parses.findIdx? (metric.accepts · e) with
  | none => rfl
  | some i =>
    obtain ⟨inside, -⟩ := List.findIdx?_eq_some_iff_getElem.mp found
    simp [inside]

theorem competitorsOf_eq_nil_iff :
    competitorsOf parses e metric = [] ↔ (ofParses parses e metric).competitors = [] := by
  rw [competitorsOf, List.filterMap_eq_nil_iff, List.eq_nil_iff_forall_not_mem]
  refine forall_congr' fun i => ⟨fun absent member => ?_, fun absent member => absurd member absent⟩
  simpa [lt_of_mem_competitors member] using absent member

theorem competitorsOf_ne_nil_iff : competitorsOf parses e metric ≠ [] ↔
    ∃ parse ∈ parses, Scalar.lessOrEqual (augmented (metric.accepts parse e) parse.score)
      (augmented (metric.accepts parse e) parse.score) = true := by
  rw [ne_eq, competitorsOf_eq_nil_iff, ← ne_eq, ofParses, ofScores, positions_ne_nil_iff]
  simp

end Decoding

namespace Learning

open Decoding

variable {metric : Metric} {e : Example} {parses : List (Parse α)} {p : Progress α}
  {ranked : List (Example × List (Parse α))}

/-- The example has a target and competitors. -/
def contested (metric : Metric) (e : Example) (parses : List (Parse α)) : Bool :=
  (targetOf parses e metric).isSome && !(competitorsOf parses e metric).isEmpty

def contests (metric : Metric) (ranked : List (Example × List (Parse α))) : Nat :=
  ranked.countP fun (e, parses) => contested metric e parses

theorem contests_cons (metric : Metric) (e : Example) (parses : List (Parse α))
    (rest : List (Example × List (Parse α))) : contests metric ((e, parses) :: rest) =
      contests metric rest + if contested metric e parses then 1 else 0 :=
  List.countP_cons

/-- A competitor of the example was drawn, and the progress notes how it compares with the
target. -/
structure Progress.Drew (metric : Metric) (e : Example) (parses : List (Parse α))
    (p after : Progress α) (target chosen : Parse α) : Prop where
  isTarget : targetOf parses e metric = some target
  competes : chosen ∈ competitorsOf parses e metric
  correct : after.correct = p.correct + if metric.accepts chosen e then 1 else 0
  pending : after.pending = p.pending ++ [⟨target.features, chosen.features⟩]

theorem visit_of_contested (h : contested metric e parses = true) (records : Bool) :
    ∃ target chosen, p.Drew metric e parses (p.visit metric records e parses) target chosen := by
  rw [contested, Bool.and_eq_true, Option.isSome_iff_exists] at h
  obtain ⟨⟨target, isTarget⟩, nonempty⟩ := h
  have competes : (ofParses parses e metric).competitors ≠ [] := by
    simpa [competitorsOf_eq_nil_iff] using nonempty
  obtain ⟨i, member, drawn⟩ := Random.Generator.choose?_mem (g := p.generator) competes
  have inside : i < parses.length := lt_of_mem_competitors member
  have found := List.getElem?_eq_getElem inside
  refine ⟨target, parses[i], isTarget, ?competes, ?_, ?_⟩
  case competes => exact List.mem_filterMap.mpr ⟨i, member, found⟩
  all_goals
    rw [targetOf] at isTarget
    cases records <;>
      simp only [Progress.visit, Progress.draw, isTarget, drawn, Option.bind_some, found, if_true,
        Bool.false_eq_true, if_false]
  all_goals split <;> rfl

theorem visit_of_uncontested (h : contested metric e parses = false) (records : Bool) :
    (p.visit metric records e parses).correct = p.correct ∧
      (p.visit metric records e parses).pending = p.pending := by
  have drawn (p : Progress α) : (p.draw metric e parses).correct = p.correct ∧
      (p.draw metric e parses).pending = p.pending := by
    rw [contested, Bool.and_eq_false_iff, Option.isSome_eq_false_iff,
      Option.isNone_iff_eq_none] at h
    obtain untargeted | alone := h
    · rw [targetOf] at untargeted
      simp [Progress.draw, untargeted]
    · have none : (ofParses parses e metric).competitors = [] := by
        simpa [competitorsOf_eq_nil_iff] using alone
      rw [Progress.draw]
      split
      · exact ⟨rfl, rfl⟩
      · simp [none, Random.Generator.choose?]
  cases records <;> exact drawn _

theorem visitEach_cons (p : Progress α) (metric : Metric) (records : Bool) (e : Example)
    (parses : List (Parse α)) (rest : List (Example × List (Parse α))) :
    p.visitEach metric records ((e, parses) :: rest) =
      (p.visit metric records e parses).visitEach metric records rest := rfl

theorem length_pending_visitEach (p : Progress α) (records : Bool) :
    (p.visitEach metric records ranked).pending.length =
      p.pending.length + contests metric ranked := by
  induction ranked generalizing p with
  | nil => rfl
  | cons pair rest ih =>
    obtain ⟨e, parses⟩ := pair
    rw [visitEach_cons, ih, contests_cons]
    cases isContested : contested metric e parses with
    | false => rw [(visit_of_uncontested isContested records).2]; rfl
    | true =>
      obtain ⟨_, _, drew⟩ := visit_of_contested (p := p) isContested records
      rw [drew.pending, List.length_append, List.length_singleton, if_pos rfl]
      omega

theorem correct_visitEach_le (p : Progress α) (records : Bool) :
    (p.visitEach metric records ranked).correct ≤ p.correct + contests metric ranked := by
  induction ranked generalizing p with
  | nil => exact Nat.le_refl _
  | cons pair rest ih =>
    obtain ⟨e, parses⟩ := pair
    rw [visitEach_cons, contests_cons]
    refine Nat.le_trans (ih _) ?_
    cases isContested : contested metric e parses with
    | false => rw [(visit_of_uncontested isContested records).1]; exact Nat.le_refl _
    | true =>
      obtain ⟨_, chosen, drew⟩ := visit_of_contested (p := p) isContested records
      rw [drew.correct, if_pos rfl]
      split <;> omega

theorem correct_visitEach (p : Progress α) (records : Bool)
    (allMatch : ∀ pair ∈ ranked, contested metric pair.1 pair.2 = true →
      ∀ parse ∈ competitorsOf pair.2 pair.1 metric, metric.accepts parse pair.1 = true) :
    (p.visitEach metric records ranked).correct = p.correct + contests metric ranked := by
  induction ranked generalizing p with
  | nil => rfl
  | cons pair rest ih =>
    obtain ⟨e, parses⟩ := pair
    rw [List.forall_mem_cons] at allMatch
    rw [visitEach_cons, ih _ allMatch.2, contests_cons]
    cases isContested : contested metric e parses with
    | false => rw [(visit_of_uncontested isContested records).1]; rfl
    | true =>
      obtain ⟨_, chosen, drew⟩ := visit_of_contested (p := p) isContested records
      rw [drew.correct, if_pos (allMatch.1 isContested chosen drew.competes), if_pos rfl]
      omega

theorem mem_pending_visitEach {records : Bool} {c : Contrast α}
    (member : c ∈ (p.visitEach metric records ranked).pending) :
    c ∈ p.pending ∨ ∃ pair ∈ ranked, ∃ target ∈ targetOf pair.2 pair.1 metric,
      ∃ chosen ∈ competitorsOf pair.2 pair.1 metric, c = ⟨target.features, chosen.features⟩ := by
  induction ranked generalizing p with
  | nil => exact .inl member
  | cons pair rest ih =>
    obtain ⟨e, parses⟩ := pair
    rw [visitEach_cons] at member
    obtain here | ⟨other, inside, parts⟩ := ih member
    · cases isContested : contested metric e parses with
      | false =>
        rw [(visit_of_uncontested isContested records).2] at here
        exact .inl here
      | true =>
        obtain ⟨target, chosen, drew⟩ := visit_of_contested (p := p) isContested records
        rw [drew.pending, List.mem_append, List.mem_singleton] at here
        refine here.imp id fun new => ?_
        exact ⟨_, List.mem_cons_self, target, drew.isTarget, chosen, drew.competes, new⟩
    · exact .inr ⟨other, List.mem_cons_of_mem _ inside, parts⟩

end Learning

end SemanticParsing
