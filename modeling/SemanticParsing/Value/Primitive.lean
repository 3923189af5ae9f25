/-!
The built-in procedures, by name. An `Operation` only computes with its arguments; `apply` and
`map` call a procedure that they are given, so they need the evaluator.
-/
namespace SemanticParsing

inductive Comparison where
  | greater | less | atLeast | atMost
  deriving DecidableEq, Repr

namespace Comparison

def all : List Comparison := [greater, less, atLeast, atMost]

def name : Comparison → String
  | greater => ">"
  | less => "<"
  | atLeast => ">="
  | atMost => "<="

end Comparison

inductive RealFunction where
  | sin | cos | tan | asin | acos | atan | exp | log | sqrt | floor | ceil | round
  deriving DecidableEq, Repr

namespace RealFunction

def all : List RealFunction :=
  [sin, cos, tan, asin, acos, atan, exp, log, sqrt, floor, ceil, round]

def name : RealFunction → String
  | sin => "sin"
  | cos => "cos"
  | tan => "tan"
  | asin => "asin"
  | acos => "acos"
  | atan => "atan"
  | exp => "exp"
  | log => "log"
  | sqrt => "sqrt"
  | floor => "floor"
  | ceil => "ceil"
  | round => "round"

end RealFunction

/-- Powers and equality have several names. Procedures of different names are different values,
even when they compute the same. -/
inductive Operation where
  | add | subtract | multiply | divide | power | pow
  | compare (comparison : Comparison)
  | equal | isEq | isEqual
  | append | begin | car | cdr | cons | length | list | not
  | isNull | isNumber | isProcedure | isSymbol
  | abs | max | min | atan2
  | real (function : RealFunction)
  deriving DecidableEq, Repr

namespace Operation

def all : List Operation :=
  [add, subtract, multiply, divide, power, pow] ++ Comparison.all.map compare ++
  [equal, isEq, isEqual, append, begin, car, cdr, cons, length, list, not,
    isNull, isNumber, isProcedure, isSymbol, abs, max, min, atan2] ++ RealFunction.all.map real

def name : Operation → String
  | add => "+"
  | subtract => "-"
  | multiply => "*"
  | divide => "/"
  | power => "**"
  | pow => "pow"
  | compare c => c.name
  | equal => "="
  | isEq => "eq?"
  | isEqual => "equal?"
  | append => "append"
  | begin => "begin"
  | car => "car"
  | cdr => "cdr"
  | cons => "cons"
  | length => "length"
  | list => "list"
  | not => "not"
  | isNull => "null?"
  | isNumber => "number?"
  | isProcedure => "procedure?"
  | isSymbol => "symbol?"
  | abs => "abs"
  | max => "max"
  | min => "min"
  | atan2 => "atan2"
  | real f => f.name

def reportedName : Operation → String
  | pow => power.name
  | isEq | isEqual => equal.name
  | op => op.name

end Operation

inductive Primitive where
  | operation (op : Operation)
  | apply
  | map
  deriving DecidableEq, Repr

namespace Primitive

def all : List Primitive := Operation.all.map operation ++ [apply, map]

def name : Primitive → String
  | operation op => op.name
  | apply => "apply"
  | map => "map"

end Primitive

end SemanticParsing
