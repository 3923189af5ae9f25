import SemanticParsing.Proofs.MeaningEquality
/-! Doubles other than NaN stand in a line, the two zeros at one place of it. Finite doubles that
are equal have no difference. -/
namespace SemanticParsing.Decimal

open Float.Model (UnpackedFloat)

/-- Places are compared by sign and size class first, then by exponent, then by significand. -/
abbrev Place := ℤ ×ₗ ℤ ×ₗ ℤ

def Place.of (size exponent significand : ℤ) : Place := toLex (size, toLex (exponent, significand))

/-- Among negative numbers the greater exponent and the greater significand come first. -/
def Place.ofUnpacked : UnpackedFloat → Place
  | .infinity .positive => .of 2 0 0
  | .finite .positive significand exponent _ => .of 1 exponent significand
  | .zero _ | .notANumber => .of 0 0 0
  | .finite .negative significand exponent _ => .of (-1) (-exponent) (-significand)
  | .infinity .negative => .of (-2) 0 0

def place (x : Float) : Place := .ofUnpacked x.toModel.unpack

theorem compare_neg (a b : ℤ) : compare (-a) (-b) = (compare a b).swap := by
  rw [← cmp_eq_compare, ← cmp_eq_compare, cmp_swap]
  exact StrictAnti.cmp_map_eq (fun _ _ => Int.neg_lt_neg) a b

theorem compare_natCast (a b : ℕ) : compare (a : ℤ) (b : ℤ) = compare a b := by
  rw [← cmp_eq_compare, ← cmp_eq_compare]
  exact StrictMono.cmp_map_eq (fun _ _ => Int.ofNat_lt.mpr) a b

namespace Place

theorem compare_of (a b c a' b' c' : ℤ) : compare (of a b c) (of a' b' c') =
    (compare a a').then ((compare b b').then (compare c c')) := by
  rw [of, of, Prod.Lex.compare_def]
  rfl

/-- The comparison of doubles goes by their kinds and signs, so the cases are all pairs of them. -/
theorem compare_ofUnpacked {a b : UnpackedFloat} (ha : a ≠ .notANumber) (hb : b ≠ .notANumber) :
    a.compare b = some (compare (ofUnpacked a) (ofUnpacked b)) := by
  rcases a with (_ | _) | _ | (_ | _) | ⟨_ | _, m, e, _⟩ <;>
    rcases b with (_ | _) | _ | (_ | _) | ⟨_ | _, m', e', _⟩ <;> try contradiction
  all_goals
    simp [UnpackedFloat.compare, ofUnpacked, compare_of, compare_neg, compare_natCast,
      Ordering.swap_then]
  all_goals rfl

end Place

variable {x y : Float}

theorem unpack_ne_notANumber (h : x.isNaN = false) : x.toModel.unpack ≠ .notANumber := by
  intro same
  have nan : x.isNaN = true := UnpackedFloat.isNaN_iff.mpr same
  rw [h] at nan
  cases nan

theorem compare_place (hx : x.isNaN = false) (hy : y.isNaN = false) :
    x.toModel.unpack.compare y.toModel.unpack = some (compare (place x) (place y)) :=
  Place.compare_ofUnpacked (unpack_ne_notANumber hx) (unpack_ne_notANumber hy)

theorem lt_iff (hx : x.isNaN = false) (hy : y.isNaN = false) : x < y ↔ place x < place y := by
  have unpacked : x < y ↔ x.toModel.unpack.lt y.toModel.unpack = true := decide_eq_true_iff
  rw [unpacked, UnpackedFloat.lt, compare_place hx hy, beq_iff_eq, Option.some_inj,
    compare_lt_iff_lt]

theorem le_iff (hx : x.isNaN = false) (hy : y.isNaN = false) : x ≤ y ↔ place x ≤ place y := by
  have unpacked : x ≤ y ↔ x.toModel.unpack.le y.toModel.unpack = true := decide_eq_true_iff
  rw [unpacked, UnpackedFloat.le, compare_place hx hy, Option.any_some, ← compare_le_iff_le,
    Ordering.isLE_iff_ne_gt]

theorem beq_iff (hx : x.isNaN = false) (hy : y.isNaN = false) : x == y ↔ place x = place y := by
  have unpacked : (x == y) = true ↔ x.toModel.unpack.beq y.toModel.unpack = true := Iff.rfl
  rw [unpacked, UnpackedFloat.beq, compare_place hx hy, beq_iff_eq, Option.some_inj,
    compare_eq_iff_eq]

theorem compare_notANumber (a : UnpackedFloat) :
    UnpackedFloat.compare .notANumber a = none ∧ a.compare .notANumber = none := by
  rcases a with (_ | _) | _ | _ | _ <;> exact ⟨rfl, rfl⟩

theorem isNaN_of_compare {o : Ordering}
    (h : x.toModel.unpack.compare y.toModel.unpack = some o) :
    x.isNaN = false ∧ y.isNaN = false := by
  refine ⟨Bool.eq_false_iff.mpr fun nan => ?_, Bool.eq_false_iff.mpr fun nan => ?_⟩
  · rw [UnpackedFloat.isNaN_iff.mp nan, (compare_notANumber _).1] at h
    cases h
  · rw [UnpackedFloat.isNaN_iff.mp nan, (compare_notANumber _).2] at h
    cases h

theorem isNaN_of_lt (h : x < y) : x.isNaN = false ∧ y.isNaN = false := by
  have unpacked : x.toModel.unpack.lt y.toModel.unpack = true := of_decide_eq_true h
  rw [UnpackedFloat.lt, beq_iff_eq] at unpacked
  exact isNaN_of_compare unpacked

theorem isNaN_of_le (h : x ≤ y) : x.isNaN = false ∧ y.isNaN = false := by
  have unpacked : x.toModel.unpack.le y.toModel.unpack = true := of_decide_eq_true h
  rw [UnpackedFloat.le, Option.any_eq_true] at unpacked
  obtain ⟨_, compared, -⟩ := unpacked
  exact isNaN_of_compare compared

theorem not_le_of_isNaN (nan : y.isNaN = true) : ¬ x ≤ y := by
  intro le
  rw [(isNaN_of_le le).2] at nan
  cases nan

protected theorem le_refl (hx : x.isNaN = false) : x ≤ x := (le_iff hx hx).mpr le_rfl

protected theorem le_trans {z : Float} (first : x ≤ y) (second : y ≤ z) : x ≤ z := by
  obtain ⟨hx, hy⟩ := isNaN_of_le first
  have hz := (isNaN_of_le second).2
  rw [le_iff hx hy] at first
  rw [le_iff hy hz] at second
  exact (le_iff hx hz).mpr (first.trans second)

theorem not_le_iff (hx : x.isNaN = false) (hy : y.isNaN = false) : ¬ x ≤ y ↔ y < x := by
  rw [le_iff hx hy, lt_iff hy hx, not_le]

protected theorem le_of_lt (h : x < y) : x ≤ y := by
  obtain ⟨hx, hy⟩ := isNaN_of_lt h
  exact (le_iff hx hy).mpr ((lt_iff hx hy).mp h).le

theorem sub_self_of_isFinite (h : x.isFinite) : x - x = 0.0 := by
  have cancels : UnpackedFloat.sub .binary64 x.toModel.unpack x.toModel.unpack =
      .zero .positive := by
    change x.toModel.unpack.isFinite = true at h
    cases unpacked : x.toModel.unpack with
    | notANumber | infinity =>
      rw [unpacked] at h
      cases h
    | zero sign => cases sign <;> rfl
    | finite sign significand exponent =>
      simp only [UnpackedFloat.sub, Int.sub_self, UnpackedFloat.normalize]
      rfl
  change Float.ofModel (.pack (.sub .binary64 x.toModel.unpack x.toModel.unpack)) = _
  rw [cancels]
  decide

theorem sub_beq_zero (h : x.isFinite) (same : x == y) : x - y == 0.0 := by
  obtain ⟨-, -, rfl | ⟨rfl, rfl⟩ | ⟨rfl, rfl⟩⟩ := Float.beq_iff_ne_nan_and_eq.mp same
  · rw [sub_self_of_isFinite h]
    decide
  · decide
  · decide

end SemanticParsing.Decimal
