import Mathlib.Algebra.BigOperators.Group.List.Defs
import Mathlib.Algebra.Field.Rat
import SemanticParsing.Evaluator.Operation
import SemanticParsing.Scope
/-! Expressions of integer literals and arithmetic signs, with their exact rational values. -/
namespace SemanticParsing

def Whole.toRat (n : Int64) : ℚ := n.toInt

theorem Whole.toRat_inj {m n : Int64} : Whole.toRat m = Whole.toRat n ↔ m = n := by
  simp only [Whole.toRat]
  norm_cast
  exact Int64.toInt_inj

def Whole.Fits (q : ℚ) : Prop := ∃ n : Int64, q = Whole.toRat n

inductive Sign where
  | plus | times | minus | slash | power | pow
  deriving DecidableEq, Repr

namespace Sign

def operation : Sign → Operation
  | plus => .add
  | times => .multiply
  | minus => .subtract
  | slash => .divide
  | power => .power
  | pow => .pow

def Takes : Sign → Nat → Prop
  | plus, _ | times, _ => True
  | minus, count => 1 ≤ count
  | slash, count | power, count | pow, count => count = 2

/-- The value of a sign before exact operands. Nothing is divided by zero, and only powers with an
integer exponent are rational numbers in general. -/
def value? : Sign → List ℚ → Option ℚ
  | plus, values => some values.sum
  | times, values => some values.prod
  | minus, [x] => some (-x)
  | minus, x :: rest => some (x - rest.sum)
  | slash, [x, y] => if y = 0 then none else some (x / y)
  | power, [x, y] | pow, [x, y] =>
    if y.isInt ∧ (x = 0 → 0 ≤ y) then some (x ^ y.num) else none
  | _, _ => none

/-- What a fold over the operands passes through, from left to right. -/
def partials : Sign → List ℚ → List ℚ
  | plus, values => values.scanl (· + ·) 0
  | times, values => values.scanl (· * ·) 1
  | minus, [x] => [0, -x]
  | minus, x :: rest => rest.scanl (· - ·) x
  | _, _ => []

/-- The divisor is not zero, and the exponent is one of 32 bits without a sign. -/
def Admits : Sign → List ℚ → Prop
  | slash, [_, y] => y ≠ 0
  | power, [_, y] | pow, [_, y] => 0 ≤ y ∧ y ≤ 2 ^ 32 - 1
  | _, _ => True

/-- From these operands everything stays an integer of 64 bits, up to the value itself. -/
structure StaysWhole (sign : Sign) (values : List ℚ) : Prop where
  admitted : sign.Admits values
  partials_fit : ∀ q ∈ sign.partials values, Whole.Fits q
  value_fits : ∃ q, sign.value? values = some q ∧ Whole.Fits q

end Sign

inductive Term where
  | literal (n : Int64)
  | apply (sign : Sign) (operands : List Term)

namespace Term

def expression : Term → Value
  | literal n => .int n
  | apply sign operands => .list (.symbol sign.operation.name :: operands.map expression)

def depth : Term → Nat
  | literal _ => 0
  | apply _ operands => (operands.map depth).foldr max 0 + 1

def WellFormed : Term → Prop
  | literal _ => True
  | apply sign operands => sign.Takes operands.length ∧ ∀ t ∈ operands, t.WellFormed

def value? : Term → Option ℚ
  | literal n => some (Whole.toRat n)
  | apply sign operands => do sign.value? (← operands.mapM value?)

/-- All that comes up in a term is an integer of 64 bits: its subterms and what folds over operands
pass through. Divisors are not zero and exponents are in range. -/
def StaysWhole : Term → Prop
  | literal _ => True
  | apply sign operands =>
    (∀ t ∈ operands, t.StaysWhole) ∧
      ∃ values, operands.mapM value? = some values ∧ sign.StaysWhole values

/-- What the procedures make of a term when they are called on its operands' values. -/
def outcome : Term → Checked Value
  | literal n => .ok (.int n)
  | apply sign operands => do sign.operation.call (← operands.mapM outcome)

end Term

end SemanticParsing
