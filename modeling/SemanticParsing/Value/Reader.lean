import SemanticParsing.Text.Pieces
import SemanticParsing.Value.Basic
/-!
Reading an expression: a program is cut into parentheses and atoms, and the tokens must form
exactly one expression, `expression := atom | '(' expression* ')'`.
-/
namespace SemanticParsing

inductive ReadError where
  | unexpectedEnd
  | missingOpen
  | missingClose
  | trailing (rest : List String)
  deriving DecidableEq, Repr

def ReadError.message : ReadError → String
  | unexpectedEnd => "Unexpected end of input"
  | missingOpen => "Missing ("
  | missingClose => "Missing )"
  | trailing rest => "Unexpected input after expression: `" ++ Text.phrase rest ++ "`"

namespace Value

def isParenthesis (c : Char) : Bool := c = '(' || c = ')'

def tokens (program : String) : List String :=
  Text.pieces isParenthesis program

def readWhole? (token : String) : Option Int64 :=
  (Decimal.readInteger? token.toList).bind Whole.fit?

/-- The finite double that a token with a digit in it spells. Words for infinity and for what is
not a number have no digit, so they stay symbols. -/
def readReal? (token : String) : Option Float :=
  if token.toList.any Char.isDigit then (Decimal.readFloat? token.toList).filter Float.isFinite
  else none

def atom (token : String) : Value :=
  match readWhole? token with
  | some n => int n
  | none =>
    match readReal? token with
    | some x => float x
    | none =>
      if token = "#t" then bool true
      else if token = "#f" then bool false
      else symbol token

/-- Reads the tokens of one expression, given the lists that are open around them: the items read
so far of each, innermost first and last item first. Every token is looked at once. -/
def readTokens : List (List Value) → List String → Except ReadError (Value × List String)
  | [], [] => .error .unexpectedEnd
  | _ :: _, [] => .error .missingClose
  | stack, token :: rest =>
    if token = "(" then readTokens ([] :: stack) rest
    else if token = ")" then
      match stack with
      | [] => .error .missingOpen
      | [items] => .ok (list items.reverse, rest)
      | items :: outer :: stack => readTokens ((list items.reverse :: outer) :: stack) rest
    else
      match stack with
      | [] => .ok (atom token, rest)
      | items :: stack => readTokens ((atom token :: items) :: stack) rest

def read (program : String) : Except ReadError Value := do
  let (value, rest) ← readTokens [] (tokens program)
  if rest.isEmpty then return value else throw (.trailing rest)

end Value

end SemanticParsing
