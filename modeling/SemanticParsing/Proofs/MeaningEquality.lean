import Mathlib
import SemanticParsing.Proofs.Alike
/-!
A double is its sign and its pattern, and the pattern of a finite one is below infinity's. A value
that holds no NaN is equal to itself.
-/
namespace SemanticParsing

namespace Decimal

open Float.Model (Format)
open Float.Model.UnpackedFloat

abbrev word (x : Float) : BitVec Format.binary64.numBits :=
  x.toBits.toBitVec

theorem toNat_exponent (b : BitVec Format.binary64.numBits) :
    (unpackExponent b).toNat = b.toNat / 2 ^ 52 % 2 ^ 11 := by
  simp [unpackExponent, Nat.shiftRight_eq_div_pow]

variable {x : Float}

theorem ne_nan_of_isFinite (h : x.isFinite) : x ≠ .nan := by
  rintro rfl
  cases h

theorem beq_self_of_isFinite (h : x.isFinite) : x == x :=
  Float.beq_self_iff.mpr (ne_nan_of_isFinite h)

theorem beq_self_of_isNaN_eq_false (h : x.isNaN = false) : x == x := by
  rw [Float.isNaN_eq_decide_eq_nan, decide_eq_false_iff_not] at h
  exact Float.beq_self_iff.mpr h

theorem exponent_of_isFinite (h : x.isFinite) : unpackExponent (word x) ≠ 2047#11 := by
  intro ones
  change (unpack Format.binary64 (word x)).isFinite = true at h
  have allOnes : unpackExponent (word x) = -1#11 := ones
  rw [unpack, if_pos allOnes] at h
  split at h <;> cases h

theorem magnitudePattern_lt (h : x.isFinite) : magnitudePattern x < infinityPattern := by
  have finite := exponent_of_isFinite h
  have exponent := toNat_exponent (word x)
  have different : (unpackExponent (word x)).toNat ≠ 2047 :=
    fun same => finite (BitVec.eq_of_toNat_eq same)
  have small : x.toBits.toNat < 2 ^ 64 := x.toBits.toNat_lt
  change _ = x.toBits.toNat / 2 ^ 52 % 2 ^ 11 at exponent
  rw [magnitudePattern, infinityPattern, signBit, leadingBit]
  simp only [Nat.pow_eq]
  omega

theorem ofSignAndPattern_self (x : Float) :
    ofSignAndPattern (isNegative x) (magnitudePattern x) = x := by
  have small : x.toBits.toNat < 2 ^ 64 := x.toBits.toNat_lt
  have whole : (if isNegative x then signBit + magnitudePattern x else magnitudePattern x) =
      x.toBits.toNat := by
    by_cases negative : 2 ^ 63 ≤ x.toBits.toNat
    · have sign : isNegative x = true := decide_eq_true negative
      rw [sign, if_pos rfl, magnitudePattern, signBit, Nat.pow_eq]
      omega
    · have sign : isNegative x = false := decide_eq_false negative
      rw [sign, if_neg (by simp), magnitudePattern, signBit, Nat.pow_eq]
      omega
  rw [ofSignAndPattern, whole, UInt64.ofNat_toNat, Float.ofBits_toBits]

theorem beq_ofInteger_zero (zero : magnitudePattern x = 0) :
    (x == ofInteger 0) = true := by
  have integer : ofInteger 0 = ofSignAndPattern false 0 := by
    rw [ofInteger, Int.natAbs_zero, nearestPattern, Nat.zero_mul]
    rfl
  rw [← ofSignAndPattern_self x, zero, integer]
  cases isNegative x <;> decide

end Decimal

namespace Value

variable {v : Value} {items others : List Value}

theorem same_list (h : List.Forall₂ (fun v w => v.same w = true) items others) :
    (list items).same (list others) := by
  rw [same]
  induction h with
  | nil => rfl
  | cons same _ ih => simp [sameItems, same, ih]

mutual

/-- No NaN stands in the value or in its lists. The body of a procedure is never compared. -/
def isNaNFree : Value → Bool
  | float x => !x.isNaN
  | list items => allNaNFree items
  | _ => true

def allNaNFree : List Value → Bool
  | [] => true
  | v :: rest => v.isNaNFree && allNaNFree rest

end

theorem allNaNFree_iff : allNaNFree items ↔ ∀ v ∈ items, v.isNaNFree := by
  induction items with
  | nil => simp [allNaNFree]
  | cons v rest ih => simp [allNaNFree, ih]

theorem same_self (h : v.isNaNFree) : v.same v := by
  induction v using Value.induction with
  | atom v isAtom =>
    cases isAtom with
    | float x => exact Decimal.beq_self_of_isNaN_eq_false (by simpa [isNaNFree] using h)
    | _ => simp [same]
  | list items ih =>
    rw [isNaNFree, allNaNFree_iff] at h
    exact same_list (List.forall₂_same.mpr fun v member => ih v member (h v member))
  | lambda => simp [same]

end Value

end SemanticParsing
