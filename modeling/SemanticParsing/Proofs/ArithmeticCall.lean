import Mathlib.Algebra.BigOperators.Group.List.Basic
import Mathlib.Algebra.Order.Field.Rat
import Mathlib.Algebra.Order.Ring.Cast
import SemanticParsing.Proofs.ArithmeticTerm
import SemanticParsing.Proofs.WholeArithmetic
/-! Calls of the arithmetic procedures: from integers to the exact integer while everything fits,
and once to a float always to a float. -/
namespace SemanticParsing

/-- A result is right for something that has an exact value and stays whole under a condition:
an integer is that value and comes up only under the condition, and the only error is a division
by zero. -/
def Agrees (whole : Prop) (value : Option ℚ) : Checked Value → Prop
  | .ok (.int r) => whole ∧ value = some (Whole.toRat r)
  | .ok (.float _) | .error .divisionByZero => ¬ whole
  | _ => False

def ToFloat (result : Checked Value) : Prop := ∃ x, result = .ok (.float x)

def Value.IsFloat (v : Value) : Prop := ∃ x, v = .float x

theorem Value.number_cases {v : Value} (number : v.isNumber) : (∃ n, v = .int n) ∨ v.IsFloat := by
  cases v with
  | int n => exact .inl ⟨n, rfl⟩
  | float x => exact .inr ⟨x, rfl⟩
  | _ => cases number

theorem Agrees.of_toFloat {whole : Prop} {value : Option ℚ} {result : Checked Value}
    (float : ToFloat result) (broken : ¬ whole) : Agrees whole value result := by
  obtain ⟨x, rfl⟩ := float
  exact broken

namespace Arithmetic

variable {a : Arithmetic} {f : ℚ → ℚ → ℚ}

def Computes (a : Arithmetic) (f : ℚ → ℚ → ℚ) : Prop :=
  ∀ m n r, a.whole m n = some r ↔ f (Whole.toRat m) (Whole.toRat n) = Whole.toRat r

theorem onFloats_of_numbers {left right : Value} (first : left.isNumber) (second : right.isNumber) :
    ToFloat (a.onFloats left right) := by
  have reads (v : Value) (number : v.isNumber) : ∃ x, Arguments.number a.name v = .ok x := by
    obtain ⟨n, rfl⟩ | ⟨x, rfl⟩ := Value.number_cases number <;> exact ⟨_, rfl⟩
  obtain ⟨x, readLeft⟩ := reads left first
  obtain ⟨y, readRight⟩ := reads right second
  refine ⟨a.real x y, ?_⟩
  rw [onFloats, readLeft, readRight]
  rfl

theorem combine_float {left right : Value} (first : left.isNumber) (second : right.isNumber)
    (float : left.IsFloat ∨ right.IsFloat) : ToFloat (a.combine left right) := by
  have onFloats : a.combine left right = a.onFloats left right := by
    obtain ⟨x, rfl⟩ | ⟨x, rfl⟩ := float
    · rfl
    · cases left <;> rfl
  rw [onFloats]
  exact onFloats_of_numbers first second

theorem combine_whole {m n r : Int64} (result : a.whole m n = some r) :
    a.combine (.int m) (.int n) = .ok (.int r) := by
  simp only [combine, result]

theorem combine_inexact {m n : Int64} (result : a.whole m n = none) :
    ToFloat (a.combine (.int m) (.int n)) := by
  simp only [combine, result]
  exact onFloats_of_numbers rfl rfl

theorem combine_isNumber {left right : Value} (first : left.isNumber) (second : right.isNumber) :
    ∃ v, a.combine left right = .ok v ∧ v.isNumber := by
  have fromFloat (result : ToFloat (a.combine left right)) :
      ∃ v, a.combine left right = .ok v ∧ v.isNumber := by
    obtain ⟨x, same⟩ := result
    exact ⟨_, same, rfl⟩
  cases Value.number_cases first with
  | inr float => exact fromFloat (combine_float first second (.inl float))
  | inl integer =>
    obtain ⟨m, rfl⟩ := integer
    cases Value.number_cases second with
    | inr float => exact fromFloat (combine_float first second (.inr float))
    | inl integer =>
      obtain ⟨n, rfl⟩ := integer
      cases result : a.whole m n with
      | some r => exact ⟨_, combine_whole result, rfl⟩
      | none => exact fromFloat (combine_inexact result)

theorem fold_cons {first next value : Value} (rest : List Value)
    (result : a.combine first next = .ok value) :
    a.fold first (next :: rest) = a.fold value rest := by
  rw [fold, List.foldlM_cons, result]
  rfl

theorem fold_singleton (first next : Value) : a.fold first [next] = a.combine first next := by
  rw [fold, List.foldlM_cons]
  exact bind_pure _

theorem fold_isNumber {first : Value} {rest : List Value} (start : first.isNumber)
    (numbers : ∀ v ∈ rest, v.isNumber) : ∃ v, a.fold first rest = .ok v ∧ v.isNumber := by
  induction rest generalizing first with
  | nil => exact ⟨first, rfl, start⟩
  | cons next rest ih =>
    obtain ⟨value, result, number⟩ :=
      combine_isNumber (a := a) start (numbers next List.mem_cons_self)
    rw [fold_cons rest result]
    exact ih number fun v member => numbers v (List.mem_cons_of_mem _ member)

theorem fold_float {first : Value} {rest : List Value} (start : first.isNumber)
    (numbers : ∀ v ∈ rest, v.isNumber) (float : ∃ v ∈ first :: rest, v.IsFloat) :
    ToFloat (a.fold first rest) := by
  induction rest generalizing first with
  | nil =>
    obtain ⟨v, member, x, rfl⟩ := float
    obtain rfl := List.mem_singleton.mp member
    exact ⟨x, rfl⟩
  | cons next rest ih =>
    have second : next.isNumber := numbers next List.mem_cons_self
    have later : ∀ v ∈ rest, v.isNumber := fun v member => numbers v (List.mem_cons_of_mem _ member)
    obtain ⟨value, result, number⟩ := combine_isNumber (a := a) start second
    rw [fold_cons rest result]
    refine ih number later ?_
    have met (here : first.IsFloat ∨ next.IsFloat) : value.IsFloat := by
      obtain ⟨x, same⟩ := combine_float (a := a) start second here
      rw [result] at same
      exact ⟨x, Except.ok.inj same⟩
    obtain ⟨v, member, isFloat⟩ := float
    simp only [List.mem_cons] at member
    obtain rfl | rfl | member := member
    · exact ⟨value, List.mem_cons_self, met (.inl isFloat)⟩
    · exact ⟨value, List.mem_cons_self, met (.inr isFloat)⟩
    · exact ⟨v, List.mem_cons_of_mem _ member, isFloat⟩

theorem fold_ints (computes : a.Computes f) (start : Int64) (ns : List Int64) :
    (∃ r, a.fold (.int start) (ns.map .int) = .ok (.int r) ∧
      (ns.map Whole.toRat).foldl f (Whole.toRat start) = Whole.toRat r ∧
      ∀ q ∈ (ns.map Whole.toRat).scanl f (Whole.toRat start), Whole.Fits q) ∨
    (ToFloat (a.fold (.int start) (ns.map .int)) ∧
      ∃ q ∈ (ns.map Whole.toRat).scanl f (Whole.toRat start), ¬ Whole.Fits q) := by
  induction ns generalizing start with
  | nil => exact .inl ⟨start, rfl, rfl, by simpa using ⟨start, rfl⟩⟩
  | cons n ns ih =>
    simp only [List.map_cons, List.foldl_cons, List.scanl_cons, List.mem_cons]
    cases result : a.whole start n with
    | some r =>
      have step := (computes start n r).mp result
      rw [fold_cons _ (combine_whole result), step]
      obtain ⟨last, same, value, fit⟩ | ⟨float, q, member, tooLarge⟩ := ih r
      · refine .inl ⟨last, same, value, ?_⟩
        rintro q (rfl | member)
        · exact ⟨start, rfl⟩
        · exact fit q member
      · exact .inr ⟨float, q, .inr member, tooLarge⟩
    | none =>
      refine .inr ⟨?_, f (Whole.toRat start) (Whole.toRat n), ?_, ?_⟩
      · obtain ⟨x, same⟩ := combine_inexact result
        rw [fold_cons _ same]
        refine fold_float rfl ?_ ⟨_, List.mem_cons_self, x, rfl⟩
        intro v member
        obtain ⟨m, _, rfl⟩ := List.mem_map.mp member
        rfl
      · exact .inr (by cases ns <;> simp)
      · rintro ⟨r, step⟩
        rw [(computes start n r).mpr step] at result
        cases result

theorem addition_computes : addition.Computes (· + ·) := by
  intro m n r
  refine Whole.add?_eq_some_iff.trans ?_
  simp only [Whole.toRat]
  norm_cast

theorem subtraction_computes : subtraction.Computes (· - ·) := by
  intro m n r
  refine Whole.subtract?_eq_some_iff.trans ?_
  simp only [Whole.toRat]
  norm_cast

theorem multiplication_computes : multiplication.Computes (· * ·) := by
  intro m n r
  refine Whole.multiply?_eq_some_iff.trans ?_
  simp only [Whole.toRat]
  norm_cast

end Arithmetic

namespace Sign

variable {sign : Sign} {a : Arithmetic}

theorem agrees_of_fold {f : ℚ → ℚ → ℚ} (computes : a.Computes f) {values : List ℚ} (start : Int64)
    (rest : List Int64) (admitted : sign.Admits values)
    (partials : sign.partials values = (rest.map Whole.toRat).scanl f (Whole.toRat start))
    (value : sign.value? values = some ((rest.map Whole.toRat).foldl f (Whole.toRat start))) :
    Agrees (sign.StaysWhole values) (sign.value? values)
      (a.fold (.int start) (rest.map .int)) := by
  obtain ⟨r, same, last, fit⟩ | ⟨float, q, member, tooLarge⟩ :=
    Arithmetic.fold_ints computes start rest
  · rw [same]
    rw [last] at value
    exact ⟨⟨admitted, by rwa [partials], _, value, r, rfl⟩, value⟩
  · refine .of_toFloat float fun whole => tooLarge ?_
    exact whole.partials_fit q (partials ▸ member)

theorem agrees_of_combine {m n : Int64} {values : List ℚ} (alone : sign.partials values = [])
    (computes : ∀ r, a.whole m n = some r ↔
      sign.Admits values ∧ sign.value? values = some (Whole.toRat r)) :
    Agrees (sign.StaysWhole values) (sign.value? values) (a.combine (.int m) (.int n)) := by
  cases result : a.whole m n with
  | some r =>
    obtain ⟨admitted, value⟩ := (computes r).mp result
    rw [Arithmetic.combine_whole result]
    exact ⟨⟨admitted, by simp [alone], _, value, r, rfl⟩, value⟩
  | none =>
    refine .of_toFloat (Arithmetic.combine_inexact result) fun whole => ?_
    obtain ⟨_, value, r, rfl⟩ := whole.value_fits
    rw [(computes r).mpr ⟨whole.admitted, value⟩] at result
    cases result

theorem toRat_eq_zero {n : Int64} : Whole.toRat n = 0 ↔ n.toInt = 0 := by
  simp only [Whole.toRat]
  norm_cast

theorem division_computes {m n r : Int64} :
    Arithmetic.division.whole m n = some r ↔
      slash.Admits [Whole.toRat m, Whole.toRat n] ∧
        slash.value? [Whole.toRat m, Whole.toRat n] = some (Whole.toRat r) := by
  refine Whole.divide?_eq_some_iff.trans ?_
  by_cases zero : Whole.toRat n = 0
  · simp [Admits, zero, toRat_eq_zero.mp zero]
  · have divisor : n.toInt ≠ 0 := mt toRat_eq_zero.mpr zero
    simp only [Admits, value?, zero, divisor, if_false, Option.some.injEq, div_eq_iff, ne_eq,
      not_false_eq_true, true_and]
    simp only [Whole.toRat]
    norm_cast

theorem power_computes {m n r : Int64} :
    Arithmetic.power.whole m n = some r ↔
      power.Admits [Whole.toRat m, Whole.toRat n] ∧
        power.value? [Whole.toRat m, Whole.toRat n] = some (Whole.toRat r) := by
  refine Whole.power?_eq_some_iff.trans ?_
  have range : (0 ≤ n.toInt ∧ n.toInt ≤ Whole.exponentLimit) ↔
      power.Admits [Whole.toRat m, Whole.toRat n] := by
    simp only [Admits, Whole.toRat, Whole.exponentLimit]
    norm_cast
  rw [range]
  refine and_congr_right fun admitted => ?_
  have positive := (range.mpr admitted).1
  have integer : (Whole.toRat n).isInt := by simp [Whole.toRat, Rat.isInt]
  have defined : Whole.toRat m = 0 → 0 ≤ Whole.toRat n := by
    intro _
    simpa [Whole.toRat] using positive
  have value : power.value? [Whole.toRat m, Whole.toRat n] =
      some (Whole.toRat m ^ n.toInt.toNat) := by
    have exponent : (Whole.toRat n).num = n.toInt := Rat.num_intCast _
    rw [value?, if_pos ⟨integer, defined⟩, exponent, ← zpow_natCast,
      Int.toNat_of_nonneg positive]
  rw [value, Option.some.injEq]
  simp only [Whole.toRat]
  norm_cast

theorem foldl_subtract (x : ℚ) (rest : List ℚ) : rest.foldl (· - ·) x = x - rest.sum := by
  induction rest generalizing x with
  | nil => simp
  | cons y rest ih => rw [List.foldl_cons, ih, List.sum_cons, sub_sub]

theorem call_ints (sign : Sign) (ns : List Int64) (count : sign.Takes ns.length) :
    Agrees (sign.StaysWhole (ns.map Whole.toRat)) (sign.value? (ns.map Whole.toRat))
      (sign.operation.call (ns.map .int)) := by
  cases sign with
  | plus =>
    refine agrees_of_fold Arithmetic.addition_computes 0 ns trivial ?_ ?_
    · simp [partials, Whole.toRat]
    · simp [value?, Whole.toRat, List.sum_eq_foldl]
  | times =>
    refine agrees_of_fold Arithmetic.multiplication_computes 1 ns trivial ?_ ?_
    · simp [partials, Whole.toRat]
    · simp [value?, Whole.toRat, List.prod_eq_foldl]
  | minus =>
    cases ns with
    | nil => cases count
    | cons m rest =>
      cases rest with
      | nil =>
        have admitted : minus.Admits [Whole.toRat m] := trivial
        have folds : minus.operation.call [.int m] =
            Arithmetic.subtraction.fold (.int 0) [.int m] := by
          rw [Arithmetic.fold_singleton]
          rfl
        simp only [List.map_cons, List.map_nil, folds]
        refine agrees_of_fold Arithmetic.subtraction_computes 0 [m] admitted ?_ ?_ <;>
          simp [partials, value?, Whole.toRat]
      | cons n rest =>
        refine agrees_of_fold Arithmetic.subtraction_computes m (n :: rest) trivial rfl ?_
        rw [foldl_subtract]
        rfl
  | slash =>
    obtain ⟨m, n, rfl⟩ := List.length_eq_two.mp count
    by_cases zero : n = 0
    · subst zero
      intro whole
      exact whole.admitted (by simp [Whole.toRat])
    · have call : slash.operation.call [.int m, .int n] =
          Arithmetic.division.combine (.int m) (.int n) := if_neg zero
      simp only [List.map_cons, List.map_nil, call]
      exact agrees_of_combine rfl fun r => division_computes
  | power | pow =>
    obtain ⟨m, n, rfl⟩ := List.length_eq_two.mp count
    exact agrees_of_combine rfl fun r => power_computes

theorem quotient_float {left right : Value} (first : left.isNumber) (second : right.isNumber)
    (float : left.IsFloat ∨ right.IsFloat) : ToFloat (Operation.quotient left right) := by
  have combines : Operation.quotient left right = Arithmetic.division.combine left right := by
    obtain ⟨x, rfl⟩ | ⟨x, rfl⟩ := float
    · rfl
    · cases left <;> rfl
  rw [combines]
  exact Arithmetic.combine_float first second float

theorem pair_float {v w : Value} (numbers : ∀ u ∈ [v, w], u.isNumber)
    (float : ∃ u ∈ [v, w], u.IsFloat) : v.isNumber ∧ w.isNumber ∧ (v.IsFloat ∨ w.IsFloat) := by
  simpa [and_assoc] using And.intro numbers float

theorem call_float (sign : Sign) (values : List Value) (count : sign.Takes values.length)
    (numbers : ∀ v ∈ values, v.isNumber) (float : ∃ v ∈ values, v.IsFloat) :
    ToFloat (sign.operation.call values) := by
  have later (start : Value) : ∃ v ∈ start :: values, v.IsFloat := by
    obtain ⟨v, member, isFloat⟩ := float
    exact ⟨v, List.mem_cons_of_mem _ member, isFloat⟩
  cases sign with
  | plus => exact Arithmetic.fold_float rfl numbers (later _)
  | times => exact Arithmetic.fold_float rfl numbers (later _)
  | minus =>
    cases values with
    | nil => cases count
    | cons v rest =>
      cases rest with
      | nil =>
        simp only [List.mem_singleton, forall_eq, exists_eq_left] at numbers float
        exact Arithmetic.combine_float rfl numbers (.inr float)
      | cons w rest =>
        exact Arithmetic.fold_float (numbers v List.mem_cons_self)
          (fun u member => numbers u (List.mem_cons_of_mem _ member)) float
  | slash =>
    obtain ⟨v, w, rfl⟩ := List.length_eq_two.mp count
    obtain ⟨first, second, float⟩ := pair_float numbers float
    exact quotient_float first second float
  | power | pow =>
    obtain ⟨v, w, rfl⟩ := List.length_eq_two.mp count
    obtain ⟨first, second, float⟩ := pair_float numbers float
    exact Arithmetic.combine_float first second float

end Sign

end SemanticParsing
