import Mathlib.Algebra.Order.Ring.Int
import SemanticParsing.Number
/-! When the arithmetic of 64-bit integers has a result, and that the result is exact. -/
namespace SemanticParsing.Whole

theorem fit?_eq_some_iff {n : Int} {r : Int64} : fit? n = some r ↔ n = r.toInt := by
  constructor
  · intro fits
    by_cases inside : Int64.minValue.toInt ≤ n ∧ n ≤ Int64.maxValue.toInt
    · rw [fit?, if_pos inside, Option.some.injEq] at fits
      have below : n < 2 ^ 63 := by
        have largest := inside.2
        rw [Int64.toInt_maxValue] at largest
        omega
      rw [← fits, Int64.toInt_ofInt_of_le inside.1 below]
    · rw [fit?, if_neg inside] at fits
      cases fits
  · rintro rfl
    rw [fit?, if_pos ⟨r.minValue_le_toInt, r.toInt_le⟩, Int64.ofInt_toInt]

def InRange (n : Int) : Prop := -2 ^ 63 ≤ n ∧ n < 2 ^ 63

instance (n : Int) : Decidable (InRange n) := inferInstanceAs (Decidable (_ ∧ _))

theorem InRange.exists_toInt {n : Int} (h : InRange n) : ∃ r : Int64, n = r.toInt :=
  ⟨Int64.ofInt n, (Int64.toInt_ofInt_of_le h.1 h.2).symm⟩

theorem add?_eq_some_iff {a b r : Int64} : add? a b = some r ↔ a.toInt + b.toInt = r.toInt :=
  fit?_eq_some_iff

theorem subtract?_eq_some_iff {a b r : Int64} :
    subtract? a b = some r ↔ a.toInt - b.toInt = r.toInt :=
  fit?_eq_some_iff

theorem multiply?_eq_some_iff {a b r : Int64} :
    multiply? a b = some r ↔ a.toInt * b.toInt = r.toInt :=
  fit?_eq_some_iff

theorem divide?_eq_some_iff {a b r : Int64} :
    divide? a b = some r ↔ b.toInt ≠ 0 ∧ a.toInt = r.toInt * b.toInt := by
  by_cases exact : b.toInt ≠ 0 ∧ a.toInt % b.toInt = 0
  · rw [divide?, if_pos exact, fit?_eq_some_iff,
      Int.ediv_eq_iff_eq_mul_left exact.1 (Int.dvd_of_emod_eq_zero exact.2)]
    exact ⟨fun same => ⟨exact.1, same⟩, And.right⟩
  · rw [divide?, if_neg exact]
    constructor
    · intro impossible
      cases impossible
    · rintro ⟨nonzero, same⟩
      exact absurd ⟨nonzero, by rw [same, Int.mul_emod_left]⟩ exact

theorem pow_ne_toInt {n : Int} {k : Nat} (base : 1 < n.natAbs) (exponent : 63 < k) (r : Int64) :
    n ^ k ≠ r.toInt := by
  intro same
  have large : 2 ^ 64 ≤ (n ^ k).natAbs := by
    rw [Int.natAbs_pow]
    calc 2 ^ 64 ≤ 2 ^ k := Nat.pow_le_pow_right (by omega) exponent
      _ ≤ n.natAbs ^ k := Nat.pow_le_pow_left base k
  have above := r.le_toInt
  have below := r.toInt_lt
  rw [same] at large
  omega

theorem pow_eq_pow_parity {n : Int} (base : n.natAbs ≤ 1) {k : Nat} (positive : 0 < k) :
    n ^ (2 + k % 2) = n ^ k := by
  have split : k = k % 2 + 2 * (k / 2) := by omega
  obtain rfl | unit : n = 0 ∨ n.natAbs = 1 := by omega
  · rw [zero_pow (by omega), zero_pow (by omega)]
  · have square : n ^ 2 = 1 := by
      rw [← Int.natAbs_sq, unit]
      rfl
    calc n ^ (2 + k % 2) = n ^ (k % 2) := by rw [pow_add, square, one_mul]
      _ = n ^ (k % 2 + 2 * (k / 2)) := by rw [pow_add, pow_mul, square, one_pow, mul_one]
      _ = n ^ k := by rw [← split]

theorem power?_eq_some_iff {a b r : Int64} :
    power? a b = some r ↔
      (0 ≤ b.toInt ∧ b.toInt ≤ exponentLimit) ∧ a.toInt ^ b.toInt.toNat = r.toInt := by
  by_cases range : b.toInt < 0 ∨ exponentLimit < b.toInt
  · simp only [power?, if_pos range]
    constructor
    · intro impossible
      cases impossible
    · intro inside
      omega
  have inside : 0 ≤ b.toInt ∧ b.toInt ≤ exponentLimit := by omega
  rw [power?, if_neg range]
  by_cases long : 63 < b.toInt
  · by_cases large : 1 < a.toInt.natAbs
    · have differs := pow_ne_toInt large (k := b.toInt.toNat) (by omega) r
      rw [if_pos ⟨long, large⟩]
      constructor
      · intro impossible
        cases impossible
      · intro result
        exact absurd result.2 differs
    · have parity := pow_eq_pow_parity (n := a.toInt) (by omega) (k := b.toInt.toNat) (by omega)
      simp only [long, large, and_false, if_false, if_true, fit?_eq_some_iff]
      exact ⟨fun same => ⟨inside, parity.symm.trans same⟩, fun same => parity.trans same.2⟩
  · simp only [long, false_and, if_false, fit?_eq_some_iff]
    exact ⟨fun same => ⟨inside, same⟩, And.right⟩

end SemanticParsing.Whole
