import Mathlib.Tactic.Linarith
import SemanticParsing.Decimal
import SemanticParsing.Proofs.Rounding
/-! The shortest decimal of a double lies in its rounding interval, so it is read as that double. -/
namespace SemanticParsing.Decimal

/-- When one is `2 ^ k` units, a quarter of the gap above a double of scale `s` is `2 ^ (s - 2)`
units, and this many grains. -/
theorem quarter_eq {k bound one : Nat} (h : bound = k + 2) (units : one = Nat.pow 2 k) (s : Nat) :
    4 * (2 ^ (s - bound) * 5 ^ (bound - s)) * one = 2 ^ s * 10 ^ (bound - s) := by
  have ten : (10 : Nat) ^ (bound - s) = 2 ^ (bound - s) * 5 ^ (bound - s) := by
    rw [← Nat.mul_pow]
  have four : 4 * 2 ^ k = 2 ^ bound := by rw [h, Nat.pow_add, Nat.mul_comm]
  rw [units, Nat.pow_eq, ten, Nat.mul_right_comm, four]
  obtain small | large := Nat.le_total s bound
  · have powers : (2 : Nat) ^ bound = 2 ^ s * 2 ^ (bound - s) := by
      rw [← Nat.pow_add, Nat.add_sub_cancel' small]
    rw [Nat.sub_eq_zero_of_le small, powers]
    ring
  · have powers : (2 : Nat) ^ s = 2 ^ (s - bound) * 2 ^ bound := by
      rw [← Nat.pow_add, Nat.sub_add_cancel large]
    rw [Nat.sub_eq_zero_of_le large, powers]
    ring

theorem exists_unitBits : ∃ k, 1076 = k + 2 ∧ unitsPerOne = Nat.pow 2 k := by
  refine ⟨1074, rfl, ?_⟩
  delta unitsPerOne
  exact Eq.refl _

theorem unitsPerOne_pos : 0 < unitsPerOne := by
  obtain ⟨k, -, units⟩ := exists_unitBits
  exact units ▸ Nat.two_pow_pos k

namespace RoundingInterval

variable {m : Magnitude} {i : RoundingInterval} {N D grains : Nat}

def quarter (m : Magnitude) : Nat := 2 ^ (m.scale - 1076) * 5 ^ m.grainPlaces

theorem quarter_units (m : Magnitude) :
    4 * quarter m * unitsPerOne = 2 ^ m.scale * 10 ^ m.grainPlaces := by
  obtain ⟨k, bound, units⟩ := exists_unitBits
  exact quarter_eq bound units m.scale

theorem ofMagnitude_eq (m : Magnitude) : ofMagnitude m =
    { low := 4 * m.significand * quarter m - m.lowerQuarters * quarter m
      middle := 4 * m.significand * quarter m
      high := 4 * m.significand * quarter m + 2 * quarter m
      closed := m.significand % 2 = 0 } := by
  have below : (if m.significand = leadingBit ∧ 0 < m.scale then quarter m else 2 * quarter m) =
      m.lowerQuarters * quarter m := by
    rw [Magnitude.lowerQuarters]
    split <;> simp
  rw [← below]
  rfl

theorem bounds_of_contains (h : (ofMagnitude m).contains grains) :
    4 * m.significand * quarter m ≤ grains + m.lowerQuarters * quarter m ∧
      grains ≤ 4 * m.significand * quarter m + 2 * quarter m ∧
      (m.significand % 2 = 1 →
        4 * m.significand * quarter m < grains + m.lowerQuarters * quarter m ∧
          grains < 4 * m.significand * quarter m + 2 * quarter m) := by
  rw [ofMagnitude_eq, contains] at h
  by_cases even : m.significand % 2 = 0
  · simp only [even, decide_true, if_true, Bool.and_eq_true, decide_eq_true_eq] at h
    omega
  · rw [if_neg (by simpa using even), Bool.and_eq_true, decide_eq_true_eq, decide_eq_true_eq] at h
    dsimp only at h
    omega

theorem le_iff_of_proportion {x y u v t c : Nat} (positive : 0 < t) (positive' : 0 < c)
    (left : x * t = u * c) (right : y * t = v * c) (i j k l : Nat) :
    i * x + j * y ≤ k * x + l * y ↔ i * u + j * v ≤ k * u + l * v := by
  have scaled (i j : Nat) : (i * x + j * y) * t = (i * u + j * v) * c := by
    rw [Nat.add_mul, Nat.mul_assoc, left, Nat.mul_assoc, right]
    ring
  rw [← Nat.mul_le_mul_right_iff positive, scaled, scaled, Nat.mul_le_mul_right_iff positive']

theorem near_of_contains (h : (ofMagnitude m).contains grains)
    (same : N * 10 ^ m.grainPlaces = grains * D) (positive : 0 < D) :
    m.Near (N * unitsPerOne) (D * 2 ^ m.scale) := by
  obtain ⟨low, high, odd⟩ := bounds_of_contains h
  have ratio : N * unitsPerOne * 10 ^ m.grainPlaces = grains * (D * unitsPerOne) := by
    rw [Nat.mul_right_comm, same, Nat.mul_assoc]
  have step : D * 2 ^ m.scale * 10 ^ m.grainPlaces = 4 * quarter m * (D * unitsPerOne) := by
    rw [Nat.mul_assoc, ← quarter_units]
    ring
  -- ratio and step are to grains and quarters as `D * unitsPerOne` is to the grains in one
  have inGrains := le_iff_of_proportion (Nat.pow_pos (by decide))
    (Nat.mul_pos positive unitsPerOne_pos) ratio step
  have middle (i : Nat) : i * (m.significand * (D * 2 ^ m.scale)) =
      i * m.significand * (D * 2 ^ m.scale) := by rw [Nat.mul_assoc]
  have fromBelow := inGrains 0 (4 * m.significand) 4 m.lowerQuarters
  have fromAbove := inGrains 4 0 0 (4 * m.significand + 2)
  have belowFrom := inGrains 4 m.lowerQuarters 0 (4 * m.significand)
  have aboveFrom := inGrains 0 (4 * m.significand + 2) 4 0
  constructor
  · linarith [fromBelow.mpr (by linarith)]
  · linarith [fromAbove.mpr (by linarith)]
  · intro isOdd
    obtain ⟨low', high'⟩ := odd isOdd
    constructor
    · by_contra above
      linarith [belowFrom.mp (by linarith)]
    · by_contra below
      linarith [aboveFrom.mp (by linarith)]

theorem contains_middle (positive : 0 < m.significand) :
    (ofMagnitude m).contains (ofMagnitude m).middle := by
  have quarter_pos : 0 < quarter m := Nat.mul_pos (Nat.two_pow_pos _) (Nat.pow_pos (by decide))
  have whole : quarter m ≤ m.significand * quarter m := Nat.le_mul_of_pos_left _ positive
  have below : m.lowerQuarters * quarter m ≤ 2 * quarter m :=
    Nat.mul_le_mul_right _ m.lowerQuarters_le
  have below' : quarter m ≤ m.lowerQuarters * quarter m :=
    Nat.le_mul_of_pos_left _ m.lowerQuarters_pos
  rw [ofMagnitude_eq, contains, Nat.mul_assoc]
  split
  · simp
  · simp only [Bool.and_eq_true, decide_eq_true_eq]
    omega

theorem contains_of_nearestMultiple? {step multiple : Nat}
    (h : i.nearestMultiple? step = some multiple) : i.contains (multiple * step) := by
  rw [nearestMultiple?] at h
  split at h
  case h_1 below above =>
    split at h <;> cases h <;> assumption
  case h_2 below _ =>
    cases h
    exact below
  case h_3 _ above =>
    cases h
    exact above
  case h_4 => cases h

theorem contains_search (middle : i.contains i.middle) (place : Nat) :
    i.contains ((i.search place).1 * 10 ^ (i.search place).2) := by
  induction place with
  | zero => simpa [search] using middle
  | succ place ih =>
    rw [search]
    split
    case h_1 digits found => exact contains_of_nearestMultiple? found
    case h_2 => exact ih

end RoundingInterval

open RoundingInterval

variable {m : Magnitude} {N D : Nat}

def shortestGrains (m : Magnitude) : Nat × Nat :=
  (ofMagnitude m).search (ofMagnitude m).startPlace

theorem shortest_eq (m : Magnitude) :
    shortest m = ⟨(shortestGrains m).1, (shortestGrains m).2 - m.grainPlaces⟩ := rfl

theorem shortest_digits (m : Magnitude) : (shortest m).digits = (shortestGrains m).1 :=
  congrArg Scientific.digits (shortest_eq m)

theorem shortest_exponent (m : Magnitude) :
    (shortest m).exponent = (shortestGrains m).2 - m.grainPlaces :=
  congrArg Scientific.exponent (shortest_eq m)

theorem nearestPattern_shortestGrains (canonical : m.Canonical)
    (finite : m.pattern < infinityPattern) (nonzero : 0 < m.significand) (positive : 0 < D)
    (same : N * 10 ^ m.grainPlaces = (shortestGrains m).1 * 10 ^ (shortestGrains m).2 * D) :
    nearestPattern N D = m.pattern := by
  have inside : (ofMagnitude m).contains
      ((shortestGrains m).1 * 10 ^ (shortestGrains m).2) :=
    contains_search (contains_middle nonzero) _
  exact nearestPattern_eq canonical finite positive (near_of_contains inside same positive)

theorem nearestPattern_of_whole (canonical : m.Canonical) (finite : m.pattern < infinityPattern)
    (nonzero : 0 < m.significand) {zeros : Nat} (whole : (shortest m).exponent = zeros) :
    nearestPattern ((shortest m).digits * 10 ^ zeros) 1 = m.pattern := by
  rw [shortest_exponent] at whole
  rw [shortest_digits]
  refine nearestPattern_shortestGrains canonical finite nonzero Nat.one_pos ?_
  have place : (shortestGrains m).2 = zeros + m.grainPlaces := by omega
  rw [place, Nat.pow_add, Nat.mul_one, Nat.mul_assoc]

theorem nearestPattern_of_places (canonical : m.Canonical) (finite : m.pattern < infinityPattern)
    (nonzero : 0 < m.significand) {places : Nat} (fraction : (shortest m).exponent = -places) :
    nearestPattern (shortest m).digits (10 ^ places) = m.pattern := by
  rw [shortest_exponent] at fraction
  rw [shortest_digits]
  refine nearestPattern_shortestGrains canonical finite nonzero (Nat.pow_pos (by decide)) ?_
  have place : m.grainPlaces = (shortestGrains m).2 + places := by omega
  rw [place, Nat.pow_add, Nat.mul_assoc]

theorem nearestPattern_of_small (small : 2 * (N * unitsPerOne) < D) : nearestPattern N D = 0 := by
  have quotient : N * unitsPerOne / D = 0 := Nat.div_eq_of_lt (by omega)
  have rounded : roundHalfEven (N * unitsPerOne) D = 0 :=
    roundHalfEven_eq (by omega) (by omega) (by omega) (by omega)
  rw [nearestPattern]
  simp only [quotient, Nat.log2_zero, Nat.zero_sub, Nat.pow_eq, Nat.pow_zero, Nat.mul_one, rounded,
    Magnitude.pattern, Nat.zero_mul, Nat.add_zero, Nat.zero_min]

theorem small_of_log2 {digits places : Nat} (h : digits.log2 + 1076 ≤ 3 * (places + 1)) :
    2 * (digits * unitsPerOne) < 10 ^ (places + 1) := by
  obtain ⟨k, bound, units⟩ := exists_unitBits
  rw [units, Nat.pow_eq]
  calc 2 * (digits * 2 ^ k) < 2 * (2 ^ (digits.log2 + 1) * 2 ^ k) := by
        have below :=
          Nat.mul_lt_mul_of_pos_right (Nat.lt_log2_self (n := digits)) (Nat.two_pow_pos k)
        omega
    _ = 2 ^ (digits.log2 + 1076) := by rw [bound, Nat.pow_add, Nat.pow_add, Nat.pow_add]; ring
    _ ≤ 2 ^ (3 * (places + 1)) := Nat.pow_le_pow_right (by decide) h
    _ = 8 ^ (places + 1) := by rw [Nat.pow_mul]
    _ ≤ 10 ^ (places + 1) := Nat.pow_le_pow_left (by decide) _

theorem pattern_of_places (digits places : Nat) :
    Scientific.pattern ⟨digits, Int.negSucc places⟩ =
      nearestPattern digits (10 ^ (places + 1)) := by
  rw [Scientific.pattern]
  split_ifs with zero
  case pos =>
    subst zero
    refine (nearestPattern_of_small ?_).symm
    rw [Nat.zero_mul]
    exact Nat.pow_pos (by decide)
  case neg =>
    dsimp only
    split_ifs with small
    · exact (nearestPattern_of_small (small_of_log2 small)).symm
    · rfl

theorem pattern_of_whole (digits : Nat) :
    Scientific.pattern ⟨digits, 0⟩ = nearestPattern digits 1 := by
  rw [Scientific.pattern]
  split_ifs with zero
  · subst zero
    refine (nearestPattern_of_small ?_).symm
    rw [Nat.zero_mul]
    exact Nat.one_pos
  · change (if 400 < 0 then infinityPattern else nearestPattern (digits * 1) 1) = _
    rw [if_neg (by decide), Nat.mul_one]

end SemanticParsing.Decimal
