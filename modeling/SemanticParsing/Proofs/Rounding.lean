import Mathlib.Tactic.Ring
import SemanticParsing.Number
/-! Every ratio in the rounding interval of a double is rounded to it. -/
namespace SemanticParsing.Decimal

theorem roundHalfEven_eq {n d k : Nat} (positive : 0 < d) (low : 2 * (k * d) ≤ 2 * n + d)
    (high : 2 * n ≤ 2 * (k * d) + d)
    (odd : k % 2 = 1 → 2 * (k * d) < 2 * n + d ∧ 2 * n < 2 * (k * d) + d) :
    roundHalfEven n d = k := by
  have split : n / d * d + n % d = n := by
    rw [Nat.mul_comm]
    exact Nat.div_add_mod n d
  have rest : n % d < d := Nat.mod_lt n positive
  have quotient : k = n / d ∨ k = n / d + 1 := by
    by_contra far
    obtain less | more : k + 1 ≤ n / d ∨ n / d + 2 ≤ k := by omega
    · have multiples := Nat.mul_le_mul_right d less
      rw [Nat.add_mul] at multiples
      omega
    · have multiples := Nat.mul_le_mul_right d more
      rw [Nat.add_mul] at multiples
      omega
  rw [roundHalfEven]
  obtain same | next := quotient
  · rw [same] at high odd ⊢
    split_ifs <;> omega
  · rw [next, Nat.add_mul] at low odd
    split_ifs <;> omega

namespace Magnitude

/-- How many quarters of the gap above a double the interval that rounds to it reaches down. -/
def lowerQuarters (m : Magnitude) : Nat :=
  if m.significand = leadingBit ∧ 0 < m.scale then 1 else 2

/-- The significand has all its bits, unless the scale is as small as can be. -/
structure Canonical (m : Magnitude) : Prop where
  below : m.significand < 2 * leadingBit
  full : 0 < m.scale → leadingBit ≤ m.significand

/-- The ratio `n / d`, in steps of the significand, is one that rounds to it. -/
structure Near (m : Magnitude) (n d : Nat) : Prop where
  low : 4 * (m.significand * d) ≤ 4 * n + m.lowerQuarters * d
  high : 4 * n ≤ 4 * (m.significand * d) + 2 * d
  odd : m.significand % 2 = 1 →
    4 * (m.significand * d) < 4 * n + m.lowerQuarters * d ∧
      4 * n < 4 * (m.significand * d) + 2 * d

variable {m : Magnitude} {n d N D : Nat}

theorem ofPattern_canonical (pattern : Nat) : (ofPattern pattern).Canonical := by
  have positive : 0 < leadingBit := by decide
  rw [ofPattern]
  split
  case isTrue small => exact ⟨by dsimp only; omega, fun impossible => absurd impossible (by simp)⟩
  case isFalse =>
    have small := Nat.mod_lt pattern positive
    exact ⟨by dsimp only; omega, fun _ => Nat.le_add_right _ _⟩

theorem pattern_ofPattern (pattern : Nat) : (ofPattern pattern).pattern = pattern := by
  have positive : 0 < leadingBit := by decide
  rw [ofPattern]
  split
  case isTrue => simp [Magnitude.pattern]
  case isFalse large =>
    have split := Nat.div_add_mod pattern leadingBit
    have quotient : 1 ≤ pattern / leadingBit :=
      (Nat.one_le_div_iff positive).mpr (Nat.le_of_not_lt large)
    have multiple : leadingBit ≤ leadingBit * (pattern / leadingBit) :=
      Nat.le_mul_of_pos_right _ quotient
    simp only [Magnitude.pattern, Nat.sub_mul, Nat.mul_comm (pattern / leadingBit)]
    omega

theorem lowerQuarters_le (m : Magnitude) : m.lowerQuarters ≤ 2 := by
  rw [lowerQuarters]
  split <;> omega

theorem lowerQuarters_pos (m : Magnitude) : 0 < m.lowerQuarters := by
  rw [lowerQuarters]
  split <;> omega

theorem Near.roundHalfEven_eq (near : m.Near n d) (positive : 0 < d) :
    roundHalfEven n d = m.significand := by
  have quarters : m.lowerQuarters * d ≤ 2 * d := Nat.mul_le_mul_right d m.lowerQuarters_le
  refine Decimal.roundHalfEven_eq positive ?_ ?_ fun isOdd => ?_
  · have low := near.low
    omega
  · have high := near.high
    omega
  · have strict := near.odd isOdd
    omega

end Magnitude

theorem log2_div {n D k : Nat} (positive : 0 < D) (low : 2 ^ k * D ≤ n)
    (high : n < 2 ^ (k + 1) * D) : (n / D).log2 = k := by
  have lower : 2 ^ k ≤ n / D := (Nat.le_div_iff_mul_le positive).mpr low
  have upper : n / D < 2 ^ (k + 1) := (Nat.div_lt_iff_lt_mul positive).mpr high
  have nonzero : n / D ≠ 0 := by
    have power : 0 < 2 ^ k := Nat.two_pow_pos k
    omega
  exact (Nat.log2_eq_iff nonzero).mpr ⟨lower, upper⟩

theorem leadingBit_eq : leadingBit = 2 ^ 52 := rfl

namespace Magnitude

variable {m : Magnitude} {n D : Nat}

theorem Near.lt {d : Nat} (near : m.Near n d) (canonical : m.Canonical) (positive : 0 < d) :
    n < 2 * leadingBit * d := by
  have high := near.high
  have significand := Nat.mul_le_mul_right d (Nat.succ_le_of_lt canonical.below)
  rw [Nat.succ_mul] at significand
  omega

theorem Near.of_lt {d : Nat} (near : m.Near n d) (canonical : m.Canonical) (scaled : 0 < m.scale)
    (less : n < leadingBit * d) :
    m.significand = leadingBit ∧ 4 * (leadingBit * d) ≤ 4 * n + d := by
  have low := near.low
  have full := canonical.full scaled
  have quarters : m.lowerQuarters * d ≤ 2 * d := Nat.mul_le_mul_right d m.lowerQuarters_le
  have significand : m.significand = leadingBit := by
    by_contra different
    have more : leadingBit + 1 ≤ m.significand := by omega
    have multiples := Nat.mul_le_mul_right d more
    rw [Nat.add_mul] at multiples
    omega
  rw [lowerQuarters, if_pos ⟨significand, scaled⟩, significand] at low
  exact ⟨significand, by omega⟩

/-- The pattern that comes of rounding at a given scale. -/
def patternAt (n D scale : Nat) : Nat :=
  pattern ⟨roundHalfEven n (D * 2 ^ scale), scale⟩

theorem log2_of_unscaled (positive : 0 < D) (top : n < 2 * leadingBit * D) :
    (n / D).log2 - 52 = 0 := by
  have small : n / D < 2 ^ 53 := (Nat.div_lt_iff_lt_mul positive).mpr top
  by_cases zero : n / D = 0
  · simp [zero]
  · have log : (n / D).log2 < 53 := (Nat.log2_lt zero).mpr small
    omega

/-- A ratio just below a power of two is rounded with the next lower scale, and then up to it. -/
theorem patternAt_of_below {e t : Nat} (positive : 0 < D) (grid : e = D * 2 ^ t)
    (low : 4 * (leadingBit * (2 * e)) ≤ 4 * n + 2 * e) (high : n < 2 * leadingBit * e) :
    patternAt n D ((n / D).log2 - 52) = (t + 1) * leadingBit + leadingBit := by
  have positive' : 0 < e := grid ▸ Nat.mul_pos positive (Nat.two_pow_pos t)
  rw [leadingBit_eq] at low high
  have log : (n / D).log2 = 52 + t := by
    apply log2_div positive
    · have lower : 2 ^ 52 * e ≤ n := by omega
      calc 2 ^ (52 + t) * D = 2 ^ 52 * e := by rw [grid, Nat.pow_add]; ring
        _ ≤ n := lower
    · calc n < 2 * 2 ^ 52 * e := high
        _ = 2 ^ (52 + t + 1) * D := by rw [grid, Nat.pow_add, Nat.pow_add]; ring
  have rounded : roundHalfEven n e = 2 * leadingBit := by
    rw [leadingBit_eq]
    exact roundHalfEven_eq positive' (by omega) (by omega) (by omega)
  rw [log, Nat.add_sub_cancel_left, patternAt, ← grid, rounded, pattern]
  ring

theorem patternAt_eq (canonical : m.Canonical) (positive : 0 < D)
    (near : m.Near n (D * 2 ^ m.scale)) :
    patternAt n D ((n / D).log2 - 52) = m.pattern := by
  have positive' : 0 < D * 2 ^ m.scale := Nat.mul_pos positive (Nat.two_pow_pos _)
  have top := near.lt canonical positive'
  have same (scale : (n / D).log2 - 52 = m.scale) :
      patternAt n D ((n / D).log2 - 52) = m.pattern := by
    rw [scale, patternAt, near.roundHalfEven_eq positive']
  cases scale : m.scale with
  | zero =>
    rw [scale, Nat.pow_zero, Nat.mul_one] at top
    exact same (by rw [log2_of_unscaled positive top, scale])
  | succ t =>
    by_cases full : leadingBit * (D * 2 ^ m.scale) ≤ n
    · have log : (n / D).log2 = 52 + m.scale := by
        apply log2_div positive
        · calc 2 ^ (52 + m.scale) * D = leadingBit * (D * 2 ^ m.scale) := by
                rw [leadingBit_eq, Nat.pow_add]; ring
            _ ≤ n := full
        · calc n < 2 * leadingBit * (D * 2 ^ m.scale) := top
            _ = 2 ^ (52 + m.scale + 1) * D := by
                rw [leadingBit_eq, Nat.pow_add, Nat.pow_add]; ring
      exact same (by rw [log, Nat.add_sub_cancel_left])
    · obtain ⟨significand, low⟩ := near.of_lt canonical (by omega) (Nat.lt_of_not_le full)
      have double : D * 2 ^ m.scale = 2 * (D * 2 ^ t) := by rw [scale, Nat.pow_succ]; ring
      rw [double] at low full
      have high : n < 2 * leadingBit * (D * 2 ^ t) := by
        rw [Nat.mul_comm 2, Nat.mul_assoc]
        exact Nat.lt_of_not_le full
      rw [patternAt_of_below positive rfl low high, pattern, significand, scale]

end Magnitude

theorem nearestPattern_eq {m : Magnitude} {N D : Nat} (canonical : m.Canonical)
    (finite : m.pattern < infinityPattern) (positive : 0 < D)
    (near : m.Near (N * unitsPerOne) (D * 2 ^ m.scale)) : nearestPattern N D = m.pattern := by
  have rounded := Magnitude.patternAt_eq canonical positive near
  rw [Magnitude.patternAt] at rounded
  rw [nearestPattern]
  simp only [Nat.pow_eq]
  rw [rounded]
  exact Nat.min_eq_left (Nat.le_of_lt finite)

end SemanticParsing.Decimal
