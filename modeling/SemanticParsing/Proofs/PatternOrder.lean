import SemanticParsing.Proofs.DoubleOrder
import SemanticParsing.Proofs.Rounding
/-! Doubles other than NaN are in the order of their patterns, the negative ones in reverse. -/
namespace SemanticParsing.Decimal

open Float.Model (Format UnpackedFloat)
open Float.Model.UnpackedFloat

theorem toNat_mantissa (b : BitVec Format.binary64.numBits) :
    (unpackMantissa b).toNat = b.toNat % 2 ^ 52 := by
  simp [unpackMantissa]

theorem unpackSign_eq_zero_iff (b : BitVec Format.binary64.numBits) :
    unpackSign b = 0#1 ↔ b.toNat < 2 ^ 63 := by
  have bit : (unpackSign b).toNat = b.toNat / 2 ^ 63 % 2 := by
    simp [unpackSign, Nat.shiftRight_eq_div_pow]
  have small : b.toNat < 2 ^ 64 := b.isLt
  rw [← BitVec.toNat_inj, bit, BitVec.toNat_ofNat]
  omega

variable {x : Float} {p q : ℕ}

theorem sign_word (x : Float) : Sign.ofBitVec (unpackSign (word x)) =
    if isNegative x then .negative else .positive := by
  have clear := unpackSign_eq_zero_iff (word x)
  change _ ↔ x.toBits.toNat < 2 ^ 63 at clear
  by_cases negative : isNegative x = true
  · have large : 2 ^ 63 ≤ x.toBits.toNat := of_decide_eq_true negative
    rw [if_pos negative, Sign.ofBitVec, if_neg (mt clear.mp (Nat.not_lt.mpr large))]
  · have small : ¬ 2 ^ 63 ≤ x.toBits.toNat := fun large => negative (decide_eq_true large)
    rw [if_neg negative, Sign.ofBitVec, if_pos (clear.mpr (Nat.lt_of_not_le small))]

theorem magnitudePattern_eq (x : Float) : magnitudePattern x =
    (unpackExponent (word x)).toNat * leadingBit + (unpackMantissa (word x)).toNat := by
  have exponent := toNat_exponent (word x)
  have mantissa := toNat_mantissa (word x)
  change _ = x.toBits.toNat / 2 ^ 52 % 2 ^ 11 at exponent
  change _ = x.toBits.toNat % 2 ^ 52 at mantissa
  rw [exponent, mantissa, magnitudePattern, signBit, leadingBit]
  simp only [Nat.pow_eq]
  omega

namespace Place

/-- The place of the double with the given pattern and no sign. -/
def ofPattern (pattern : ℕ) : Place :=
  if pattern = 0 then .of 0 0 0
  else if pattern = infinityPattern then .of 2 0 0
  else .of 1 ((Magnitude.ofPattern pattern).scale - 1074) (Magnitude.ofPattern pattern).significand

def signed (negative : Bool) (place : Place) : Place := if negative then -place else place

theorem ofPattern_zero : ofPattern 0 = .of 0 0 0 := rfl

theorem ofPattern_infinity : ofPattern infinityPattern = .of 2 0 0 := by
  have nonzero : infinityPattern ≠ 0 := by decide
  rw [ofPattern, if_neg nonzero, if_pos rfl]

theorem ofPattern_finite (positive : 0 < p) (finite : p < infinityPattern) : ofPattern p =
    .of 1 ((Magnitude.ofPattern p).scale - 1074) (Magnitude.ofPattern p).significand := by
  rw [ofPattern, if_neg (Nat.ne_of_gt positive), if_neg (Nat.ne_of_lt finite)]

theorem ofPattern_fraction (positive : 0 < p) (small : p < leadingBit) :
    ofPattern p = .of 1 (-1074) p := by
  have finite : p < infinityPattern := small.trans (by decide)
  rw [ofPattern_finite positive finite, Magnitude.ofPattern, if_pos small]
  rfl

theorem ofPattern_normal {e f : ℕ} (positive : 0 < e) (finite : e < 2047)
    (fraction : f < leadingBit) :
    ofPattern (e * leadingBit + f) = .of 1 (e - 1075) (leadingBit + f : ℕ) := by
  have bit : 0 < leadingBit := by decide
  have low : leadingBit ≤ e * leadingBit := Nat.le_mul_of_pos_left _ positive
  have high : (e + 1) * leadingBit ≤ infinityPattern := Nat.mul_le_mul_right _ finite
  have quotient : (e * leadingBit + f) / leadingBit = e := by
    rw [Nat.add_comm, Nat.add_mul_div_right _ _ bit, Nat.div_eq_of_lt fraction, Nat.zero_add]
  have rest : (e * leadingBit + f) % leadingBit = f := by
    rw [Nat.add_comm, Nat.add_mul_mod_self_right, Nat.mod_eq_of_lt fraction]
  rw [Nat.succ_mul] at high
  rw [ofPattern_finite (by omega) (by omega), Magnitude.ofPattern, if_neg (by omega), quotient,
    rest]
  congr 1
  dsimp only
  omega

end Place

theorem ofUnpacked_finite (negative : Bool) {m : ℕ} {e : ℤ} (positive : 0 < m) :
    Place.ofUnpacked (.finite (if negative then .negative else .positive) m e positive) =
      .signed negative (.of 1 e m) := by
  cases negative <;> rfl

/-- The place of a double is given by its sign and its pattern. -/
theorem place_eq (h : x.isNaN = false) :
    place x = .signed (isNegative x) (.ofPattern (magnitudePattern x)) := by
  have known : unpack Format.binary64 (word x) ≠ .notANumber := unpack_ne_notANumber h
  have pattern := magnitudePattern_eq x
  have sign := sign_word x
  have fraction : (unpackMantissa (word x)).toNat < leadingBit := (unpackMantissa (word x)).isLt
  change Place.ofUnpacked (unpack Format.binary64 (word x)) = _
  fun_cases unpack Format.binary64 (word x) with
  | case1 mantissa exponent _ _ ones zero =>
    have top : (unpackExponent (word x)).toNat = 2047 := congrArg BitVec.toNat ones
    have none : (unpackMantissa (word x)).toNat = 0 := congrArg BitVec.toNat zero
    change Place.ofUnpacked (.infinity (Sign.ofBitVec (unpackSign (word x)))) = _
    rw [pattern, top, none, Nat.add_zero, ← infinityPattern, Place.ofPattern_infinity, sign]
    cases isNegative x <;> rfl
  | case2 mantissa exponent ones nonzero =>
    exact absurd (by rw [unpack]; exact (if_pos ones).trans (if_neg nonzero)) known
  | case3 mantissa exponent _ _ _ zeros zero =>
    have low : (unpackExponent (word x)).toNat = 0 := congrArg BitVec.toNat zeros
    have none : (unpackMantissa (word x)).toNat = 0 := congrArg BitVec.toNat zero
    change Place.ofUnpacked (.zero (Sign.ofBitVec (unpackSign (word x)))) = _
    rw [pattern, low, none, Nat.zero_mul, Place.ofPattern_zero, sign]
    cases isNegative x <;> rfl
  | case4 mantissa exponent _ _ _ _ zeros nonzero =>
    have low : (unpackExponent (word x)).toNat = 0 := congrArg BitVec.toNat zeros
    have positive : 0 < (unpackMantissa (word x)).toNat :=
      Nat.pos_of_ne_zero fun none => nonzero (BitVec.eq_of_toNat_eq none)
    have scale : ((unpackExponent (word x)).toNat : ℤ) - 1075 + 1 = -1074 := by omega
    rw [pattern, low, Nat.zero_mul, Nat.zero_add, Place.ofPattern_fraction positive fraction]
    change Place.ofUnpacked (.finite (Sign.ofBitVec (unpackSign (word x)))
      (unpackMantissa (word x)).toNat ((unpackExponent (word x)).toNat - 1075 + 1) positive) = _
    rw [sign, ofUnpacked_finite, scale]
  | case5 mantissa exponent _ _ _ ones zeros =>
    have top : (unpackExponent (word x)).toNat ≠ 2047 :=
      fun same => ones (BitVec.eq_of_toNat_eq same)
    have low : (unpackExponent (word x)).toNat ≠ 0 :=
      fun same => zeros (BitVec.eq_of_toNat_eq same)
    have bits : (unpackExponent (word x)).toNat < 2048 := (unpackExponent (word x)).isLt
    have leading : (1#1 ++ unpackMantissa (word x)).toNat =
        leadingBit + (unpackMantissa (word x)).toNat := by
      rw [BitVec.toNat_append]
      exact (Nat.shiftLeft_add_eq_or_of_lt fraction 1).symm
    rw [pattern, Place.ofPattern_normal (by omega) (by omega) fraction]
    change Place.ofUnpacked (.finite (Sign.ofBitVec (unpackSign (word x)))
      (1#1 ++ unpackMantissa (word x)).toNat ((unpackExponent (word x)).toNat - 1075) _) = _
    rw [sign, ofUnpacked_finite, leading]

theorem Magnitude.ofPattern_lt (h : p < q) :
    (ofPattern p).scale < (ofPattern q).scale ∨
      (ofPattern p).scale = (ofPattern q).scale ∧
        (ofPattern p).significand < (ofPattern q).significand := by
  have lower := pattern_ofPattern p
  have upper := pattern_ofPattern q
  have full := (ofPattern_canonical p).full
  have below := (ofPattern_canonical q).below
  rw [pattern] at lower upper
  obtain less | same | more :=
    Nat.lt_trichotomy (ofPattern p).scale (ofPattern q).scale
  · exact .inl less
  · rw [same] at lower
    exact .inr ⟨same, by omega⟩
  · -- a greater scale means a greater pattern, because of the leading bit
    have multiples := Nat.mul_le_mul_right leadingBit (Nat.succ_le_of_lt more)
    rw [Nat.succ_mul] at multiples
    have leading := full (by omega)
    omega

namespace Place

theorem of_lt_of {a b c a' b' c' : ℤ} :
    of a b c < of a' b' c' ↔ a < a' ∨ a = a' ∧ (b < b' ∨ b = b' ∧ c < c') := by
  simp [of, Prod.Lex.toLex_lt_toLex]

theorem ofPattern_lt (h : p < q) (finite : q ≤ infinityPattern) : ofPattern p < ofPattern q := by
  have less := Magnitude.ofPattern_lt h
  obtain rfl | finite := finite.eq_or_lt
  · rw [ofPattern_infinity]
    obtain rfl | positive := p.eq_zero_or_pos
    · decide
    · rw [ofPattern_finite positive h, of_lt_of]
      exact .inl (by decide)
  · rw [ofPattern_finite (by omega) finite]
    obtain rfl | positive := p.eq_zero_or_pos
    · rw [ofPattern_zero, of_lt_of]
      exact .inl (by decide)
    · rw [ofPattern_finite positive (h.trans finite), of_lt_of]
      exact .inr ⟨rfl, by omega⟩

theorem ofPattern_le (h : p ≤ q) (finite : q ≤ infinityPattern) : ofPattern p ≤ ofPattern q := by
  obtain rfl | less := h.eq_or_lt
  · exact le_rfl
  · exact (ofPattern_lt less finite).le

theorem zero_le_ofPattern (finite : p ≤ infinityPattern) : 0 ≤ ofPattern p :=
  ofPattern_le (Nat.zero_le p) finite

theorem ofPattern_pos (positive : 0 < p) (finite : p ≤ infinityPattern) : 0 < ofPattern p :=
  ofPattern_lt positive finite

end Place

theorem isNaNBits_eq_false {bits : BitVec Format.binary64.numBits}
    (h : bits.toNat % signBit ≤ infinityPattern) : isNaNBits bits = false := by
  have exponent := toNat_exponent bits
  have mantissa := toNat_mantissa bits
  have sign : signBit = 2 ^ 63 := rfl
  have infinity : infinityPattern = 2047 * 2 ^ 52 := rfl
  rw [sign, infinity] at h
  rw [isNaNBits, decide_eq_false_iff_not]
  rintro ⟨ones, nonzero⟩
  have top : (unpackExponent bits).toNat = 2047 := congrArg BitVec.toNat ones
  refine nonzero (BitVec.eq_of_toNat_eq (mantissa.trans ?_))
  change bits.toNat % 2 ^ 52 = 0
  omega

theorem toBits_ofSignAndPattern (negative : Bool) (h : p ≤ infinityPattern) :
    (ofSignAndPattern negative p).toBits.toNat = if negative then signBit + p else p := by
  have bound : infinityPattern < signBit := by decide
  have small : (if negative then signBit + p else p) < 2 ^ 64 := by
    have sign : signBit = 2 ^ 63 := rfl
    split <;> omega
  have pattern : (if negative then signBit + p else p) % signBit = p := by
    split
    · exact (Nat.add_mod_left signBit p).trans (Nat.mod_eq_of_lt (by omega))
    · exact Nat.mod_eq_of_lt (by omega)
  rw [ofSignAndPattern]
  generalize written : UInt64.ofNat (if negative then signBit + p else p) = bits
  have value : bits.toNat = if negative then signBit + p else p := by
    rw [← written, UInt64.toNat_ofNat', Nat.mod_eq_of_lt small]
  rw [← value] at pattern ⊢
  -- only the bits of a NaN are replaced
  have number : @isNaNBits Format.binary64 bits.toBitVec = false :=
    isNaNBits_eq_false (pattern.trans_le h)
  have same : (Float.ofBits bits).toBits.toBitVec = bits.toBitVec :=
    (@pack_unpack Format.binary64 bits.toBitVec (by decide)).trans (if_neg (by simp [number]))
  exact congrArg BitVec.toNat same

section

variable (negative : Bool) (h : p ≤ infinityPattern)
include h

theorem isNegative_ofSignAndPattern : isNegative (ofSignAndPattern negative p) = negative := by
  have bound : infinityPattern < signBit := by decide
  rw [isNegative, toBits_ofSignAndPattern negative h]
  cases negative with
  | false => exact decide_eq_false (by rw [if_neg Bool.false_ne_true]; omega)
  | true => exact decide_eq_true (by rw [if_pos rfl]; omega)

theorem magnitudePattern_ofSignAndPattern :
    magnitudePattern (ofSignAndPattern negative p) = p := by
  have bound : infinityPattern < signBit := by decide
  rw [magnitudePattern, toBits_ofSignAndPattern negative h]
  cases negative with
  | false =>
    rw [if_neg Bool.false_ne_true]
    exact Nat.mod_eq_of_lt (by omega)
  | true =>
    rw [if_pos rfl]
    exact (Nat.add_mod_left signBit p).trans (Nat.mod_eq_of_lt (by omega))

theorem isNaN_ofSignAndPattern : (ofSignAndPattern negative p).isNaN = false := by
  rw [Float.isNaN_eq_decide_eq_nan, decide_eq_false_iff_not]
  intro nan
  have pattern := magnitudePattern_ofSignAndPattern negative h
  have above : infinityPattern < magnitudePattern .nan := by decide
  rw [nan] at pattern
  omega

theorem place_ofSignAndPattern :
    place (ofSignAndPattern negative p) = .signed negative (.ofPattern p) := by
  rw [place_eq (isNaN_ofSignAndPattern negative h), isNegative_ofSignAndPattern negative h,
    magnitudePattern_ofSignAndPattern negative h]

end

end SemanticParsing.Decimal
