import SemanticParsing.Proofs.ContestedExamples
import SemanticParsing.Proofs.DoubleOrder
/-! The competitors of a decoding are exactly the parses with the most points, however the parses
are ordered. NaN is no number of points. -/
namespace SemanticParsing.Decoding

theorem less_iff {x y : Float} : Scalar.less x y = true ↔ x < y := decide_eq_true_iff

theorem lessOrEqual_iff {x y : Float} : Scalar.lessOrEqual x y = true ↔ x ≤ y :=
  decide_eq_true_iff

/-- A number that is as high as every number of the list. -/
def IsHighest (points : List Float) (x : Float) : Prop :=
  x.isNaN = false ∧ ∀ y ∈ points, y.isNaN = false → y ≤ x

def positionsFrom (bound : Float) (points : List Float) : List Nat :=
  (points.zipIdx.filter fun p => Scalar.lessOrEqual bound p.1).map (·.2)

/-- What leads after a list of points: nobody while all are NaN, and then every position of a
highest number. -/
inductive Led (points : List Float) : Leaders Float → Prop
  | nobody (unordered : ∀ x ∈ points, x.isNaN = true) : Led points {}
  | best {b : Float} (member : b ∈ points) (highest : IsHighest points b) :
      Led points ⟨some b, positionsFrom b points⟩

variable {points : List Float} {x b : Float} {i : Nat}

theorem isHighest_concat : IsHighest (points ++ [x]) b ↔
    IsHighest points b ∧ (x.isNaN = false → x ≤ b) := by
  simp only [IsHighest, List.forall_mem_append, List.forall_mem_singleton, and_assoc]

theorem positionsFrom_concat (b : Float) (points : List Float) (x : Float) :
    positionsFrom b (points ++ [x]) =
      positionsFrom b points ++ if b ≤ x then [points.length] else [] := by
  simp only [positionsFrom, List.zipIdx_append, List.filter_append, List.map_append]
  by_cases reached : b ≤ x <;> simp [reached, lessOrEqual_iff]

theorem mem_positionsFrom : i ∈ positionsFrom b points ↔ ∃ x, points[i]? = some x ∧ b ≤ x := by
  simp [positionsFrom, List.mem_zipIdx_iff_getElem?, lessOrEqual_iff]

theorem positionsFrom_eq_nil (below : ∀ y ∈ points, ¬ b ≤ y) : positionsFrom b points = [] := by
  refine List.eq_nil_iff_forall_not_mem.mpr fun i member => ?_
  obtain ⟨y, found, reached⟩ := mem_positionsFrom.mp member
  exact below y (List.mem_of_getElem? found) reached

theorem positionsFrom_sorted (b : Float) (points : List Float) :
    (positionsFrom b points).Pairwise (· < ·) := by
  have positions : points.zipIdx.Pairwise fun p q => p.2 < q.2 := by
    rw [← List.pairwise_map, List.zipIdx_map_snd]
    exact List.pairwise_lt_range' 1
  exact List.pairwise_map.mpr (positions.filter _)

namespace Led

variable {l : Leaders Float}

theorem alone (number : x.isNaN = false) (below : ∀ y ∈ points, ¬ x ≤ y) :
    Led (points ++ [x]) ⟨some x, [points.length]⟩ := by
  have positions : positionsFrom x (points ++ [x]) = [points.length] := by
    rw [positionsFrom_concat, positionsFrom_eq_nil below, if_pos (Decimal.le_refl number),
      List.nil_append]
  have highest : IsHighest points x := by
    refine ⟨number, fun y member isNumber => Decimal.le_of_lt ?_⟩
    exact (Decimal.not_le_iff number isNumber).mp (below y member)
  rw [← positions]
  exact .best (by simp) (isHighest_concat.mpr ⟨highest, Decimal.le_refl⟩)

theorem concat (member : b ∈ points) (highest : IsHighest points b)
    (bounded : x.isNaN = false → x ≤ b) :
    Led (points ++ [x])
      ⟨some b, positionsFrom b points ++ if b ≤ x then [points.length] else []⟩ := by
  rw [← positionsFrom_concat]
  exact .best (List.mem_append_left _ member) (isHighest_concat.mpr ⟨highest, bounded⟩)

/-- One more number of points is passed over, takes the lead, or ties with the best. -/
theorem consider (led : Led points l) (x : Float) :
    Led (points ++ [x]) (l.consider points.length x) := by
  cases led with
  | nobody unordered =>
    simp only [Leaders.consider, lessOrEqual_iff]
    split
    case isTrue isNumber =>
      exact alone (Decimal.isNaN_of_le isNumber).1 fun y member =>
        Decimal.not_le_of_isNaN (unordered y member)
    case isFalse notNumber =>
      have nan : x.isNaN = true := Bool.not_eq_false _ ▸ mt Decimal.le_refl notNumber
      exact .nobody (List.forall_mem_append.mpr ⟨unordered, List.forall_mem_singleton.mpr nan⟩)
  | @best b member highest =>
    -- NaN is above nothing, so it takes the way of the numbers that are too low.
    have bounded (notHigher : ¬ b < x) (isNumber : x.isNaN = false) : x ≤ b := by
      by_contra above
      exact notHigher ((Decimal.not_le_iff isNumber highest.1).mp above)
    simp only [Leaders.consider, less_iff, lessOrEqual_iff]
    split
    case isTrue higher =>
      have number := (Decimal.isNaN_of_lt higher).2
      refine alone number fun y inside reached => ?_
      have low := highest.2 y inside (Decimal.isNaN_of_le reached).2
      exact (Decimal.not_le_iff number highest.1).mpr higher (Decimal.le_trans reached low)
    case isFalse notHigher =>
      have joined := concat member highest (bounded notHigher)
      split
      case isTrue reached => rwa [if_pos reached] at joined
      case isFalse unreached => rwa [if_neg unreached, List.append_nil] at joined

theorem leaders (points : List Float) : Led points (leaders points) := by
  induction points using List.reverseRecOn with
  | nil => exact .nobody (by simp)
  | append_singleton points x ih =>
    rw [leaders_concat]
    exact ih.consider x

end Led

theorem positions_sorted (points : List Float) : (leaders points).positions.Pairwise (· < ·) := by
  have led := Led.leaders points
  generalize leaders points = l at led
  cases led with
  | nobody => exact .nil
  | best => exact positionsFrom_sorted ..

/-- The leaders are the positions of the highest numbers. -/
theorem mem_positions_iff :
    i ∈ (leaders points).positions ↔ ∃ x, points[i]? = some x ∧ IsHighest points x := by
  have led := Led.leaders points
  generalize leaders points = l at led
  cases led with
  | nobody unordered =>
    refine ⟨fun member => absurd member List.not_mem_nil, ?_⟩
    rintro ⟨x, found, isNumber, -⟩
    rw [unordered x (List.mem_of_getElem? found)] at isNumber
    cases isNumber
  | @best b member highest =>
    rw [mem_positionsFrom]
    refine exists_congr fun x => and_congr_right fun found => ⟨fun reached => ?_, fun h => ?_⟩
    · exact ⟨(Decimal.isNaN_of_le reached).2, fun y inside isNumber =>
        Decimal.le_trans (highest.2 y inside isNumber) reached⟩
    · exact h.2 b member highest.1

variable {parses : List (Parse Float)} {e : Example} {metric : Metric}

def pointsOf (metric : Metric) (e : Example) (parse : Parse Float) : Float :=
  if metric.accepts parse e then parse.score else parse.score + 1.0

/-- The target is the first parse that matches, and the competitors are all parses with the most
points. There are competitors unless all points are NaN. -/
structure Exact (parses : List (Parse Float)) (e : Example) (metric : Metric) (d : Decoding) :
    Prop where
  target_eq_none : d.target = none ↔ ∀ parse ∈ parses, metric.accepts parse e = false
  target_eq_some : ∀ i, d.target = some i ↔
    IsLeast {j | ∃ parse, parses[j]? = some parse ∧ metric.accepts parse e = true} i
  sorted : d.competitors.Pairwise (· < ·)
  mem_competitors : ∀ i, i ∈ d.competitors ↔ ∃ parse, parses[i]? = some parse ∧
    IsHighest (parses.map (pointsOf metric e)) (pointsOf metric e parse)
  nonempty : d.competitors = [] → ∀ parse ∈ parses, (pointsOf metric e parse).isNaN = true

/-- Among ranked parses, a competitor that matches has the score of the target. The target competes
unless a parse that does not match exceeds it. -/
structure Ranked (parses : List (Parse Float)) (e : Example) (metric : Metric) (d : Decoding)
    (i : Nat) (target : Parse Float) : Prop where
  ties : ∀ j ∈ d.competitors, ∀ chosen, parses[j]? = some chosen →
    metric.accepts chosen e = true → (chosen.score == target.score) = true
  competes_iff : i ∈ d.competitors ↔ ∀ other ∈ parses, metric.accepts other e = false →
    ¬ target.score < pointsOf metric e other

theorem competitors_eq : (ofParses parses e metric).competitors =
    (leaders (parses.map (pointsOf metric e))).positions := by
  rw [ofParses, ofScores, List.map_map]
  rfl

theorem findIdx?_eq_some_iff_isLeast {α : Type} {xs : List α} {p : α → Bool} {i : Nat} :
    xs.findIdx? p = some i ↔ IsLeast {j | ∃ x, xs[j]? = some x ∧ p x = true} i := by
  rw [List.findIdx?_eq_some_iff_getElem]
  constructor
  · rintro ⟨inside, here, before⟩
    refine ⟨⟨_, List.getElem?_eq_getElem inside, here⟩, ?_⟩
    rintro j ⟨x, found, also⟩
    obtain ⟨_, rfl⟩ := List.getElem?_eq_some_iff.mp found
    exact Nat.le_of_not_lt fun earlier => before j earlier also
  · rintro ⟨⟨x, found, here⟩, least⟩
    obtain ⟨inside, rfl⟩ := List.getElem?_eq_some_iff.mp found
    refine ⟨inside, here, fun j earlier also => ?_⟩
    have le := least ⟨_, List.getElem?_eq_getElem (Nat.lt_trans earlier inside), also⟩
    omega

theorem exact_ofParses (parses : List (Parse Float)) (e : Example) (metric : Metric) :
    Exact parses e metric (ofParses parses e metric) where
  target_eq_none := by rw [target_ofParses, List.findIdx?_eq_none_iff]
  target_eq_some i := by rw [target_ofParses, findIdx?_eq_some_iff_isLeast]
  sorted := competitors_eq ▸ positions_sorted _
  mem_competitors i := by simp [competitors_eq, mem_positions_iff]
  nonempty none parse member := by
    rw [competitors_eq] at none
    by_contra number
    rw [Bool.not_eq_true] at number
    exact positions_ne_nil_iff.mpr ⟨_, List.mem_map_of_mem member,
      lessOrEqual_iff.mpr (Decimal.le_refl number)⟩ none

section Ranked

variable {i : Nat} {target : Parse Float}
  (numbers : ∀ parse ∈ parses, parse.score.isNaN = false)
  (descending : parses.Pairwise fun p q => q.score ≤ p.score)
  (isTarget : (ofParses parses e metric).target = some i) (atTarget : parses[i]? = some target)
include isTarget atTarget

theorem pointsOf_target : pointsOf metric e target = target.score := by
  obtain ⟨⟨parse, found, accepts⟩, -⟩ :=
    ((exact_ofParses parses e metric).target_eq_some i).mp isTarget
  obtain rfl := Option.some_inj.mp (atTarget.symm.trans found)
  exact if_pos accepts

theorem competes_iff_isHighest : i ∈ (ofParses parses e metric).competitors ↔
    IsHighest (parses.map (pointsOf metric e)) target.score := by
  rw [(exact_ofParses parses e metric).mem_competitors, atTarget]
  simp [pointsOf_target isTarget atTarget]

include numbers descending

theorem score_le_target {chosen : Parse Float} (member : chosen ∈ parses)
    (accepts : metric.accepts chosen e = true) : chosen.score ≤ target.score := by
  have first := ((exact_ofParses parses e metric).target_eq_some i).mp isTarget
  obtain ⟨j, atChosen⟩ := List.mem_iff_getElem?.mp member
  obtain same | later := Nat.eq_or_lt_of_le (first.2 ⟨chosen, atChosen, accepts⟩)
  · subst same
    obtain rfl := Option.some_inj.mp (atTarget.symm.trans atChosen)
    exact Decimal.le_refl (numbers _ member)
  · obtain ⟨insideTarget, rfl⟩ := List.getElem?_eq_some_iff.mp atTarget
    obtain ⟨insideChosen, rfl⟩ := List.getElem?_eq_some_iff.mp atChosen
    exact List.pairwise_iff_getElem.mp descending i j insideTarget insideChosen later

theorem score_beq_target {j : Nat} {chosen : Parse Float}
    (competes : j ∈ (ofParses parses e metric).competitors) (atChosen : parses[j]? = some chosen)
    (accepts : metric.accepts chosen e = true) : (chosen.score == target.score) = true := by
  have memberTarget := List.mem_of_getElem? atTarget
  have number := numbers target memberTarget
  obtain ⟨parse, found, highest⟩ := ((exact_ofParses parses e metric).mem_competitors j).mp competes
  obtain rfl := Option.some_inj.mp (atChosen.symm.trans found)
  rw [pointsOf, if_pos accepts] at highest
  have below : chosen.score ≤ target.score :=
    score_le_target numbers descending isTarget atTarget (List.mem_of_getElem? atChosen) accepts
  have above : target.score ≤ chosen.score :=
    highest.2 _ (List.mem_map.mpr ⟨target, memberTarget, pointsOf_target isTarget atTarget⟩) number
  rw [Decimal.le_iff highest.1 number] at below
  rw [Decimal.le_iff number highest.1] at above
  exact (Decimal.beq_iff highest.1 number).mpr (le_antisymm below above)

theorem target_competes_iff : i ∈ (ofParses parses e metric).competitors ↔
    ∀ other ∈ parses, metric.accepts other e = false →
      ¬ target.score < pointsOf metric e other := by
  have number := numbers target (List.mem_of_getElem? atTarget)
  rw [competes_iff_isHighest isTarget atTarget]
  constructor
  · rintro highest other member - exceeds
    have isNumber := (Decimal.isNaN_of_lt exceeds).2
    exact (Decimal.not_le_iff isNumber number).mpr exceeds
      (highest.2 _ (List.mem_map_of_mem member) isNumber)
  · refine fun unexceeded => ⟨number, fun y inside isNumber => ?_⟩
    obtain ⟨other, member, rfl⟩ := List.mem_map.mp inside
    cases accepts : metric.accepts other e with
    | true =>
      rw [pointsOf, if_pos accepts]
      exact score_le_target numbers descending isTarget atTarget member accepts
    | false =>
      by_contra above
      exact unexceeded other member accepts ((Decimal.not_le_iff isNumber number).mp above)

end Ranked

/-- Decoding gives the first parse that matches, and all parses with the most points. Where the
parses are ranked and one of them matches, the matching competitors tie with it, and it competes
itself unless a parse that does not match has more points. -/
theorem decoding_is_exact (parses : List (Parse Float)) (e : Example) (metric : Metric) :
    let decoding := ofParses parses e metric
    Exact parses e metric decoding ∧
      ((∀ parse ∈ parses, parse.score.isNaN = false) →
        (parses.Pairwise fun p q => q.score ≤ p.score) →
        ∀ i target, decoding.target = some i → parses[i]? = some target →
          Ranked parses e metric decoding i target) :=
  ⟨exact_ofParses parses e metric, fun numbers descending _ _ isTarget atTarget =>
    { ties := fun _ competes _ atChosen accepts =>
        score_beq_target numbers descending isTarget atTarget competes atChosen accepts
      competes_iff := target_competes_iff numbers descending isTarget atTarget }⟩

def reading (n : Int64) (score : Float) : Parse Float :=
  { derivation := .ofTokens ⟨0, Rule.lexical "$E" "x" (.int n)⟩ ["x"]
    output := none, score, features := ∅ }

def tied : List (Parse Float) := [reading 1 2.0, reading 2 1.0, reading 1 1.0]

theorem tied_is_exact :
    let e : Example := { input := "x", meaning := some (.int 1) }
    (∀ parse ∈ tied, parse.score.isNaN = false) ∧
      (tied.Pairwise fun p q => q.score ≤ p.score) ∧
      Exact tied e .meaning ⟨some 0, [0, 1]⟩ ∧
      Ranked tied e .meaning ⟨some 0, [0, 1]⟩ 0 (reading 1 2.0) := by
  intro e
  have decoded : ofParses tied e .meaning = ⟨some 0, [0, 1]⟩ := by decide +kernel
  have numbers : ∀ parse ∈ tied, parse.score.isNaN = false := by decide +kernel
  have descending : tied.Pairwise fun p q => q.score ≤ p.score := by
    simp only [tied, List.pairwise_cons]
    decide +kernel
  obtain ⟨exact, ranked⟩ := decoding_is_exact tied e .meaning
  rw [decoded] at exact ranked
  exact ⟨numbers, descending, exact, ranked numbers descending 0 _ rfl rfl⟩

end SemanticParsing.Decoding
