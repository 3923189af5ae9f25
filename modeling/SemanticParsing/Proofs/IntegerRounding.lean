import SemanticParsing.Proofs.PatternOrder
import SemanticParsing.Proofs.ShortestDecimal
/-! Rounding integers to doubles keeps their order, and tells them apart up to `2 ^ 53`. -/
namespace SemanticParsing.Decimal

variable {n n' d D : ℕ}

theorem roundHalfEven_mono (h : n ≤ n') : roundHalfEven n d ≤ roundHalfEven n' d := by
  have split := Nat.div_add_mod n d
  have split' := Nat.div_add_mod n' d
  rw [roundHalfEven, roundHalfEven]
  obtain same | less := (Nat.div_le_div_right (c := d) h).eq_or_lt
  · rw [same] at split ⊢
    split_ifs <;> omega
  · split_ifs <;> omega

theorem roundHalfEven_mul (k : ℕ) (positive : 0 < d) : roundHalfEven (k * d) d = k :=
  roundHalfEven_eq positive (by omega) (by omega) (by omega)

theorem roundHalfEven_of_dvd (positive : 0 < d) (exact : d ∣ n) : roundHalfEven n d * d = n := by
  obtain ⟨k, rfl⟩ := exact
  rw [Nat.mul_comm d k, roundHalfEven_mul k positive]

def scaleOf (n D : ℕ) : ℕ := (n / D).log2 - 52

theorem scaleOf_mono (h : n ≤ n') : scaleOf n D ≤ scaleOf n' D := by
  have log : (n / D).log2 ≤ (n' / D).log2 := by
    rw [Nat.log2_eq_log_two, Nat.log2_eq_log_two]
    exact Nat.log_mono_right (Nat.div_le_div_right h)
  rw [scaleOf, scaleOf]
  omega

section

variable (positive : 0 < D)
include positive

theorem lt_of_scaleOf : n < 2 * leadingBit * (D * 2 ^ scaleOf n D) := by
  have log : n / D < 2 ^ ((n / D).log2 + 1) := Nat.lt_log2_self
  have exponent : (n / D).log2 + 1 ≤ 53 + scaleOf n D := by
    rw [scaleOf]
    omega
  calc n < 2 ^ (53 + scaleOf n D) * D :=
        (Nat.div_lt_iff_lt_mul positive).mp
          (log.trans_le (Nat.pow_le_pow_right Nat.two_pos exponent))
    _ = 2 * leadingBit * (D * 2 ^ scaleOf n D) := by
        rw [leadingBit_eq, Nat.pow_add]
        ring

theorem le_of_scaleOf (scaled : 0 < scaleOf n D) :
    leadingBit * (D * 2 ^ scaleOf n D) ≤ n := by
  have exponent : (n / D).log2 = 52 + scaleOf n D := by
    rw [scaleOf] at scaled ⊢
    omega
  have nonzero : n / D ≠ 0 := by
    intro zero
    rw [zero, Nat.log2_zero] at exponent
    omega
  have log : 2 ^ (n / D).log2 ≤ n / D := Nat.log2_self_le nonzero
  calc leadingBit * (D * 2 ^ scaleOf n D) = 2 ^ (n / D).log2 * D := by
        rw [leadingBit_eq, exponent, Nat.pow_add]
        ring
    _ ≤ n := (Nat.le_div_iff_mul_le positive).mp log

theorem roundHalfEven_scaleOf_le : roundHalfEven n (D * 2 ^ scaleOf n D) ≤ 2 * leadingBit :=
  calc roundHalfEven n (D * 2 ^ scaleOf n D)
      ≤ roundHalfEven (2 * leadingBit * (D * 2 ^ scaleOf n D)) (D * 2 ^ scaleOf n D) :=
        roundHalfEven_mono (lt_of_scaleOf positive).le
    _ = 2 * leadingBit := roundHalfEven_mul _ (Nat.mul_pos positive (Nat.two_pow_pos _))

theorem le_roundHalfEven_scaleOf (scaled : 0 < scaleOf n D) :
    leadingBit ≤ roundHalfEven n (D * 2 ^ scaleOf n D) :=
  calc leadingBit
      = roundHalfEven (leadingBit * (D * 2 ^ scaleOf n D)) (D * 2 ^ scaleOf n D) :=
        (roundHalfEven_mul _ (Nat.mul_pos positive (Nat.two_pow_pos _))).symm
    _ ≤ roundHalfEven n (D * 2 ^ scaleOf n D) := roundHalfEven_mono (le_of_scaleOf positive scaled)

namespace Magnitude

theorem patternAt_mono (h : n ≤ n') :
    patternAt n D (scaleOf n D) ≤ patternAt n' D (scaleOf n' D) := by
  rw [patternAt, patternAt, pattern, pattern]
  obtain same | less := (scaleOf_mono (D := D) h).eq_or_lt
  · rw [same]
    exact Nat.add_le_add_left (roundHalfEven_mono h) _
  · have top : roundHalfEven n (D * 2 ^ scaleOf n D) ≤ 2 * leadingBit :=
      roundHalfEven_scaleOf_le positive
    have bottom := le_roundHalfEven_scaleOf positive (Nat.zero_lt_of_lt less)
    have multiples := Nat.mul_le_mul_right leadingBit (Nat.succ_le_of_lt less)
    rw [Nat.succ_mul] at multiples
    dsimp only
    omega

theorem patternAt_lt (h : n < n') (exact : D * 2 ^ scaleOf n D ∣ n)
    (exact' : D * 2 ^ scaleOf n' D ∣ n') :
    patternAt n D (scaleOf n D) < patternAt n' D (scaleOf n' D) := by
  have step (n : ℕ) : 0 < D * 2 ^ scaleOf n D := Nat.mul_pos positive (Nat.two_pow_pos _)
  have rounded := roundHalfEven_of_dvd (step n) exact
  have rounded' := roundHalfEven_of_dvd (step n') exact'
  rw [patternAt, patternAt, pattern, pattern]
  obtain same | less := (scaleOf_mono (D := D) h.le).eq_or_lt
  · rw [← same] at rounded' ⊢
    have order := Nat.lt_of_mul_lt_mul_right ((rounded.trans_lt h).trans_eq rounded'.symm)
    exact Nat.add_lt_add_left order _
  · have top : roundHalfEven n (D * 2 ^ scaleOf n D) < 2 * leadingBit :=
      Nat.lt_of_mul_lt_mul_right (rounded.trans_lt (lt_of_scaleOf positive))
    have bottom := le_roundHalfEven_scaleOf positive (Nat.zero_lt_of_lt less)
    have multiples := Nat.mul_le_mul_right leadingBit (Nat.succ_le_of_lt less)
    rw [Nat.succ_mul] at multiples
    dsimp only
    omega

end Magnitude

end

theorem nearestPattern_one (n : ℕ) : nearestPattern n 1 =
    min (Magnitude.patternAt (n * unitsPerOne) 1 (scaleOf (n * unitsPerOne) 1)) infinityPattern :=
  rfl

theorem nearestPattern_le_infinityPattern (n d : ℕ) : nearestPattern n d ≤ infinityPattern :=
  Nat.min_le_right _ _

theorem nearestPattern_mono (h : n ≤ n') : nearestPattern n 1 ≤ nearestPattern n' 1 := by
  have units : n * unitsPerOne ≤ n' * unitsPerOne := Nat.mul_le_mul_right _ h
  rw [nearestPattern_one, nearestPattern_one]
  exact min_le_min_right _ (Magnitude.patternAt_mono Nat.one_pos units)

theorem scaleOf_two_pow (k : ℕ) : scaleOf (2 ^ 53 * 2 ^ k) 1 = k + 1 := by
  rw [scaleOf, ← Nat.pow_add, Nat.div_one, Nat.log2_two_pow]
  omega

theorem patternAt_units_le (h : n ≤ 2 ^ 53) :
    Magnitude.patternAt (n * unitsPerOne) 1 (scaleOf (n * unitsPerOne) 1) ≤ infinityPattern := by
  obtain ⟨k, bits, units⟩ := exists_unitBits
  rw [units, Nat.pow_eq]
  have scale : scaleOf (n * 2 ^ k) 1 ≤ k + 1 :=
    (scaleOf_mono (Nat.mul_le_mul_right _ h)).trans_eq (scaleOf_two_pow k)
  have significand := roundHalfEven_scaleOf_le (n := n * 2 ^ k) Nat.one_pos
  have multiples := Nat.mul_le_mul_right leadingBit scale
  have small : k + 1 + 2 ≤ 2047 := by omega
  have room := Nat.mul_le_mul_right leadingBit small
  rw [Nat.add_mul] at room
  rw [Magnitude.patternAt, Magnitude.pattern, infinityPattern]
  dsimp only
  omega

theorem step_dvd_units (h : n ≤ 2 ^ 53) :
    1 * 2 ^ scaleOf (n * unitsPerOne) 1 ∣ n * unitsPerOne := by
  obtain ⟨k, -, units⟩ := exists_unitBits
  rw [units, Nat.pow_eq, Nat.one_mul]
  obtain rfl | less := h.eq_or_lt
  · rw [scaleOf_two_pow, ← Nat.pow_add]
    exact Nat.pow_dvd_pow 2 (by omega)
  · have scale : scaleOf (n * 2 ^ k) 1 ≤ k := by
      obtain zero | nonzero := (n * 2 ^ k).eq_zero_or_pos
      · simp [scaleOf, zero]
      · have bits : n * 2 ^ k < 2 ^ (53 + k) := by
          rw [Nat.pow_add]
          exact Nat.mul_lt_mul_of_pos_right less (Nat.two_pow_pos k)
        have log := (Nat.log2_lt nonzero.ne').mpr bits
        rw [scaleOf, Nat.div_one]
        omega
    exact (Nat.pow_dvd_pow 2 scale).mul_left n

theorem nearestPattern_lt (h : n < n') (bound : n' ≤ 2 ^ 53) :
    nearestPattern n 1 < nearestPattern n' 1 := by
  have units : n * unitsPerOne < n' * unitsPerOne := Nat.mul_lt_mul_of_pos_right h unitsPerOne_pos
  have bound' : n ≤ 2 ^ 53 := h.le.trans bound
  rw [nearestPattern_one, nearestPattern_one, min_eq_left (patternAt_units_le bound),
    min_eq_left (patternAt_units_le bound')]
  exact Magnitude.patternAt_lt Nat.one_pos units (step_dvd_units bound') (step_dvd_units bound)

theorem isNaN_ofInteger (n : ℤ) : (ofInteger n).isNaN = false :=
  isNaN_ofSignAndPattern _ (nearestPattern_le_infinityPattern _ _)

theorem place_ofInteger (n : ℤ) :
    place (ofInteger n) = .signed (n < 0) (.ofPattern (nearestPattern n.natAbs 1)) :=
  place_ofSignAndPattern _ (nearestPattern_le_infinityPattern _ _)

theorem place_ofInteger_of_nonneg {n : ℤ} (h : 0 ≤ n) :
    place (ofInteger n) = .ofPattern (nearestPattern n.natAbs 1) := by
  rw [place_ofInteger, Place.signed, decide_eq_false (not_lt.mpr h), if_neg Bool.false_ne_true]

theorem place_ofInteger_of_neg {n : ℤ} (h : n < 0) :
    place (ofInteger n) = -.ofPattern (nearestPattern n.natAbs 1) := by
  rw [place_ofInteger, Place.signed, decide_eq_true h, if_pos rfl]

variable {m n : ℤ}

theorem place_ofInteger_mono (h : m ≤ n) : place (ofInteger m) ≤ place (ofInteger n) := by
  have finite (n : ℕ) := nearestPattern_le_infinityPattern n 1
  obtain negative | nonneg := lt_or_ge m 0
  · rw [place_ofInteger_of_neg negative]
    obtain negative' | nonneg' := lt_or_ge n 0
    · rw [place_ofInteger_of_neg negative']
      exact neg_le_neg (Place.ofPattern_le (nearestPattern_mono (by omega)) (finite _))
    · rw [place_ofInteger_of_nonneg nonneg']
      exact (neg_nonpos.mpr (Place.zero_le_ofPattern (finite _))).trans
        (Place.zero_le_ofPattern (finite _))
  · rw [place_ofInteger_of_nonneg nonneg, place_ofInteger_of_nonneg (nonneg.trans h)]
    exact Place.ofPattern_le (nearestPattern_mono (by omega)) (finite _)

theorem place_ofInteger_lt (h : m < n) (hm : m.natAbs ≤ 2 ^ 53) (hn : n.natAbs ≤ 2 ^ 53) :
    place (ofInteger m) < place (ofInteger n) := by
  have finite (n : ℕ) := nearestPattern_le_infinityPattern n 1
  obtain negative | nonneg := lt_or_ge m 0
  · have positive : 0 < nearestPattern m.natAbs 1 :=
      Nat.zero_lt_of_lt (nearestPattern_lt (by omega : 0 < m.natAbs) hm)
    rw [place_ofInteger_of_neg negative]
    obtain negative' | nonneg' := lt_or_ge n 0
    · rw [place_ofInteger_of_neg negative']
      exact neg_lt_neg (Place.ofPattern_lt (nearestPattern_lt (by omega) hm) (finite _))
    · rw [place_ofInteger_of_nonneg nonneg']
      exact (neg_lt_zero.mpr (Place.ofPattern_pos positive (finite _))).trans_le
        (Place.zero_le_ofPattern (finite _))
  · rw [place_ofInteger_of_nonneg nonneg, place_ofInteger_of_nonneg (nonneg.trans h.le)]
    exact Place.ofPattern_lt (nearestPattern_lt (by omega) hn) (finite _)

theorem ofInteger_lt_iff :
    ofInteger m < ofInteger n ↔ m < n ∧ (ofInteger m == ofInteger n) = false := by
  rw [lt_iff (isNaN_ofInteger m) (isNaN_ofInteger n), ← Bool.not_eq_true,
    beq_iff (isNaN_ofInteger m) (isNaN_ofInteger n)]
  constructor
  · intro less
    exact ⟨not_le.mp fun h => less.not_ge (place_ofInteger_mono h), less.ne⟩
  · rintro ⟨less, different⟩
    exact (place_ofInteger_mono less.le).lt_of_ne different

theorem ofInteger_beq_iff (hm : m.natAbs ≤ 2 ^ 53) (hn : n.natAbs ≤ 2 ^ 53) :
    (ofInteger m == ofInteger n) = true ↔ m = n := by
  rw [beq_iff (isNaN_ofInteger m) (isNaN_ofInteger n)]
  constructor
  · intro same
    obtain less | same' | more := lt_trichotomy m n
    · exact absurd same (place_ofInteger_lt less hm hn).ne
    · exact same'
    · exact absurd same (place_ofInteger_lt more hn hm).ne'
  · rintro rfl
    rfl

end SemanticParsing.Decimal
