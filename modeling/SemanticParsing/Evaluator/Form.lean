import SemanticParsing.Value.Basic
/-!
The forms of a list expression, and why an evaluation gives no value. A list whose first item is a
keyword is a special form or malformed, whatever the keyword is bound to.
-/
namespace SemanticParsing

inductive Keyword where
  | quote | conditional | define | assign | lambda
  deriving DecidableEq, Repr

namespace Keyword

def all : List Keyword := [quote, conditional, define, assign, lambda]

def name : Keyword → String
  | quote => "quote"
  | conditional => "if"
  | define => "define"
  | assign => "set!"
  | lambda => "lambda"

def ofName? (name : String) : Option Keyword :=
  all.find? (·.name = name)

end Keyword

inductive Arity where
  | one | two | atLeastOne | asParameters
  deriving DecidableEq, Repr

def Arity.text : Arity → String
  | one => "1"
  | two => "2"
  | atLeastOne => "at least 1"
  | asParameters => "as many as its parameters"

inductive Kind where
  | number | list | procedure | nonEmptyList
  deriving DecidableEq, Repr

def Kind.text : Kind → String
  | number => "a number"
  | list => "a list"
  | procedure => "a procedure"
  | nonEmptyList => "a non-empty list"

inductive EvalError where
  | unbound (symbol : String)
  | notAProcedure (value : String)
  | argumentCount (procedure : String) (expected : Arity) (given : Nat)
  | argumentKind (procedure : String) (expected : Kind) (given : String)
  | malformed (form : Keyword) (expression : String)
  | divisionByZero
  deriving DecidableEq, Repr

def EvalError.message : EvalError → String
  | unbound symbol => symbol ++ " not found in your Environment"
  | notAProcedure value => "`" ++ value ++ "` is not a procedure"
  | argumentCount procedure expected given =>
    procedure ++ " expects " ++ expected.text ++ " argument(s) but was given " ++ toString given
  | argumentKind procedure expected given =>
    procedure ++ " expects " ++ expected.text ++ " but was given `" ++ given ++ "`"
  | malformed form expression => "Malformed `" ++ form.name ++ "` expression: " ++ expression
  | divisionByZero => "Division by zero"

/-- Why an action ended without a value. Running out of fuel says nothing about the program. -/
inductive Stop where
  | error (e : EvalError)
  | outOfFuel
  deriving DecidableEq, Repr

def Stop.message : Stop → String
  | error e => e.message
  | outOfFuel => "Evaluation was cut short"

/-- Something that reads and changes a state and gives a value or stops. What it changed before
it stopped stays changed. -/
abbrev Action (σ : Type) := ExceptT Stop (StateM σ)

inductive Form where
  | empty
  | quote (datum : Value)
  | conditional (test consequence alternative : Value)
  | define (name : String) (value : Value)
  | assign (name : String) (value : Value)
  | lambda (parameters : List String) (body : List Value)
  | application (operator : Value) (operands : List Value)
  | malformed (keyword : Keyword)

namespace Form

/-- One symbol stands for a list of itself. -/
def parameters? : Value → Option (List String)
  | .symbol name => some [name]
  | .list items => items.mapM Value.asSymbol?
  | _ => none

def ofKeyword : Keyword → List Value → Form
  | .quote, [datum] => quote datum
  | .conditional, [test, consequence, alternative] => conditional test consequence alternative
  | .define, [.symbol name, value] => define name value
  | .assign, [.symbol name, value] => assign name value
  | .lambda, parameters :: first :: rest =>
    match parameters? parameters with
    | some names => lambda names (first :: rest)
    | none => malformed .lambda
  | keyword, _ => malformed keyword

def ofItems : List Value → Form
  | [] => empty
  | .symbol name :: rest =>
    match Keyword.ofName? name with
    | some keyword => ofKeyword keyword rest
    | none => application (.symbol name) rest
  | operator :: operands => application operator operands

end Form

end SemanticParsing
