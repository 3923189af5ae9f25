import SemanticParsing.Evaluator.Form
/-!
What the operations compute. Arithmetic stays with integers while both sides are integers and the
exact result fits; otherwise it is done in floating point. Arguments are checked from left to
right, their number first.
-/
namespace SemanticParsing

abbrev Checked := Except EvalError

namespace Arguments

def one (procedure : String) : List Value → Checked Value
  | [a] => .ok a
  | arguments => .error (.argumentCount procedure .one arguments.length)

def two (procedure : String) : List Value → Checked (Value × Value)
  | [a, b] => .ok (a, b)
  | arguments => .error (.argumentCount procedure .two arguments.length)

def number (procedure : String) (v : Value) : Checked Float :=
  match v.asFloat? with
  | some x => .ok x
  | none => .error (.argumentKind procedure .number v.text)

def list (procedure : String) (v : Value) : Checked (List Value) :=
  match v.asList? with
  | some items => .ok items
  | none => .error (.argumentKind procedure .list v.text)

def procedure (procedure : String) (v : Value) : Checked Value :=
  if v.isProcedure then .ok v else .error (.argumentKind procedure .procedure v.text)

end Arguments

structure Arithmetic where
  name : String
  whole : Int64 → Int64 → Option Int64
  real : Float → Float → Float

namespace Arithmetic

def addition : Arithmetic := ⟨Operation.add.name, Whole.add?, (· + ·)⟩

def subtraction : Arithmetic := ⟨Operation.subtract.name, Whole.subtract?, (· - ·)⟩

def multiplication : Arithmetic := ⟨Operation.multiply.name, Whole.multiply?, (· * ·)⟩

def division : Arithmetic := ⟨Operation.divide.name, Whole.divide?, (· / ·)⟩

def power : Arithmetic := ⟨Operation.power.name, Whole.power?, Float.pow⟩

def onFloats (a : Arithmetic) (left right : Value) : Checked Value := do
  let x ← Arguments.number a.name left
  let y ← Arguments.number a.name right
  return .float (a.real x y)

def combine (a : Arithmetic) (left right : Value) : Checked Value :=
  match left, right with
  | .int m, .int n =>
    match a.whole m n with
    | some result => .ok (.int result)
    | none => a.onFloats left right
  | _, _ => a.onFloats left right

def fold (a : Arithmetic) (first : Value) (rest : List Value) : Checked Value :=
  rest.foldlM a.combine first

end Arithmetic

namespace Comparison

def holds : Comparison → Float → Float → Bool
  | greater, x, y => x > y
  | less, x, y => x < y
  | atLeast, x, y => x ≥ y
  | atMost, x, y => x ≤ y

end Comparison

namespace RealFunction

def apply : RealFunction → Float → Float
  | sin => Float.sin
  | cos => Float.cos
  | tan => Float.tan
  | asin => Float.asin
  | acos => Float.acos
  | atan => Float.atan
  | exp => Float.exp
  | log => Float.log
  | sqrt => Float.sqrt
  | floor => Float.floor
  | ceil => Float.ceil
  | round => Float.round

end RealFunction

namespace Operation

def subtractAll : List Value → Checked Value
  | [] => .error (.argumentCount subtract.name .one 0)
  | [only] => Arithmetic.subtraction.combine (.int 0) only
  | first :: rest => Arithmetic.subtraction.fold first rest

def quotient (left right : Value) : Checked Value :=
  match left, right with
  | .int _, .int n =>
    if n = 0 then .error .divisionByZero else Arithmetic.division.combine left right
  | _, _ => Arithmetic.division.combine left right

/-- The first argument, replaced by each later one that `keeps` does not hold it against. A single
argument is given back unchecked. -/
def extremum (name : String) (keeps : Float → Float → Bool) : List Value → Checked Value
  | [] => .error (.argumentCount name .atLeastOne 0)
  | first :: rest => rest.foldlM (fun best argument => do
      let x ← Arguments.number name best
      let y ← Arguments.number name argument
      return if keeps x y then best else argument) first

def absolute : Value → Checked Value
  | .int n =>
    match Whole.abs? n with
    | some result => .ok (.int result)
    | none => .ok (.float (Decimal.ofInteger n.toInt).abs)
  | v => do return .float (← Arguments.number abs.name v).abs

def isEmptyOrNil : Value → Bool
  | .nil => true
  | .list items => items.isEmpty
  | _ => false

def call (op : Operation) (arguments : List Value) : Checked Value :=
  match op with
  | add => Arithmetic.addition.fold (.int 0) arguments
  | multiply => Arithmetic.multiplication.fold (.int 1) arguments
  | subtract => subtractAll arguments
  | divide => do
    let (left, right) ← Arguments.two divide.name arguments
    quotient left right
  | power | pow => do
    let (left, right) ← Arguments.two op.reportedName arguments
    Arithmetic.power.combine left right
  | compare c => do
    let (left, right) ← Arguments.two c.name arguments
    let x ← Arguments.number c.name left
    let y ← Arguments.number c.name right
    return .bool (c.holds x y)
  | equal | isEq | isEqual => do
    let (left, right) ← Arguments.two op.reportedName arguments
    return .bool (left.same right)
  | append => do
    let (items, last) ← Arguments.two append.name arguments
    return .list ((← Arguments.list append.name items) ++ [last])
  | begin => .ok (arguments.getLast?.getD .nil)
  | car => do
    let v ← Arguments.one car.name arguments
    match ← Arguments.list car.name v with
    | [] => throw (.argumentKind car.name .nonEmptyList v.text)
    | first :: _ => return first
  | cdr => do
    let v ← Arguments.one cdr.name arguments
    return .list (← Arguments.list cdr.name v).tail
  | cons => do
    let (first, items) ← Arguments.two cons.name arguments
    return .list (first :: (← Arguments.list cons.name items))
  | length => do
    let v ← Arguments.one length.name arguments
    return .int (Int64.ofNat (← Arguments.list length.name v).length)
  | list => .ok (.list arguments)
  | not => do return .bool (!(← Arguments.one not.name arguments).isTruthy)
  | isNull => do return .bool (isEmptyOrNil (← Arguments.one isNull.name arguments))
  | isNumber => do return .bool (← Arguments.one isNumber.name arguments).isNumber
  | isProcedure => do return .bool (← Arguments.one isProcedure.name arguments).isProcedure
  | isSymbol => do return .bool (← Arguments.one isSymbol.name arguments).isSymbol
  | abs => do absolute (← Arguments.one abs.name arguments)
  | max => extremum max.name (· ≥ ·) arguments
  | min => extremum min.name (· ≤ ·) arguments
  | atan2 => do
    let (left, right) ← Arguments.two atan2.name arguments
    let y ← Arguments.number atan2.name left
    let x ← Arguments.number atan2.name right
    return .float (y.atan2 x)
  | real f => do
    let v ← Arguments.one f.name arguments
    return .float (f.apply (← Arguments.number f.name v))

end Operation

end SemanticParsing
