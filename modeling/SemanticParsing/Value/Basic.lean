import SemanticParsing.Decimal
import SemanticParsing.Value.Primitive
/-!
Symbolic expressions and how they are written. Meanings of sentences, programs and the results of
running them are all of this one type.
-/
namespace SemanticParsing

abbrev ScopeId := Nat

inductive Value where
  | int (n : Int64)
  | float (x : Float)
  | bool (b : Bool)
  | symbol (name : String)
  | list (items : List Value)
  | primitive (p : Primitive)
  /-- A procedure made by a `lambda` form in the given scope. No two of them have the same
  identity, whatever their text. -/
  | lambda (parameters : List String) (body : List Value) (scope : ScopeId) (identity : Nat)
  | nil
  deriving Inhabited

namespace Value

def isNumber : Value → Bool
  | int _ | float _ => true
  | _ => false

def isProcedure : Value → Bool
  | primitive _ | lambda .. => true
  | _ => false

def isSymbol : Value → Bool
  | symbol _ => true
  | _ => false

def isTruthy : Value → Bool
  | bool false | nil => false
  | _ => true

/-- A number as a double; an integer is rounded to the nearest one. -/
def asFloat? : Value → Option Float
  | int n => some (Decimal.ofInteger n.toInt)
  | float x => some x
  | _ => none

def asSymbol? : Value → Option String
  | symbol name => some name
  | _ => none

def asList? : Value → Option (List Value)
  | list items => some items
  | _ => none

def nth? (v : Value) (i : Nat) : Option Value :=
  v.asList?.bind (·[i]?)

mutual

/-- Equality of meanings: numbers by what they denote, an integer being rounded when it meets a
float; lists element by element; built-in procedures by name; other procedures by identity. -/
def same : Value → Value → Bool
  | int a, int b => a == b
  | int a, float y => Decimal.ofInteger a.toInt == y
  | float x, int b => x == Decimal.ofInteger b.toInt
  | float x, float y => x == y
  | bool a, bool b => a == b
  | symbol a, symbol b => a == b
  | list as, list bs => sameItems as bs
  | primitive p, primitive q => p == q
  | lambda _ _ _ i, lambda _ _ _ j => i == j
  | nil, nil => true
  | _, _ => false

def sameItems : List Value → List Value → Bool
  | [], [] => true
  | a :: as, b :: bs => same a b && sameItems as bs
  | _, _ => false

end

def lambdaText (parameters : List String) : String :=
  "#<lambda (" ++ " ".intercalate parameters ++ ")>"

mutual

def text : Value → String
  | int n => Decimal.integerText n.toInt
  | float x => Decimal.Layout.plain.text x
  | bool true => "#t"
  | bool false => "#f"
  | symbol name => name
  | list items => "(" ++ itemsText items ++ ")"
  | primitive p => "#<procedure " ++ p.name ++ ">"
  | lambda parameters .. => lambdaText parameters
  | nil => "nil"

def itemsText : List Value → String
  | [] => ""
  | [v] => text v
  | v :: rest => text v ++ " " ++ itemsText rest

end

end Value

end SemanticParsing
