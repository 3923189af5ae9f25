import SemanticParsing.Text.Pieces
import SemanticParsing.Value.Basic
/-!
Rules and derivations. A rule expands a category to a phrase of terminals or to two categories;
`Rule.shape` says which shapes a grammar accepts. The meaning of a derivation is computed once, from
the meanings of its parts, when it is built.
-/
namespace SemanticParsing

/-- A way to build a meaning from the meanings of the children. Ways of the same identity are the
same one, which cannot be seen from the function. -/
structure Combinator where
  identity : Nat
  build : List Value → Value

inductive Semantics where
  | literal (meaning : Value)
  | combinator (c : Combinator)

namespace Semantics

def meaning : Semantics → List Value → Value
  | literal v, _ => v
  | combinator c, children => c.build children

def literal? : Semantics → Option Value
  | literal v => some v
  | combinator _ => none

def same : Semantics → Semantics → Bool
  | literal v, literal w => v.same w
  | combinator c, combinator d => c.identity == d.identity
  | _, _ => false

def text : Semantics → String
  | literal v => v.text
  | combinator _ => "λ"

def describe : Semantics → String
  | literal v => "Literal(" ++ v.text ++ ")"
  | combinator _ => "Combinator"

end Semantics

namespace Category

/-- Categories start with a dollar sign; every other label is a terminal. -/
def isCategory (label : String) : Bool := label.toList.head? = some '$'

/-- Operator categories hold the meanings that are procedures. -/
def isOperator (label : String) : Bool := ['O', 'p'].isSuffixOf label.toList

def sentence : String := "$E"

end Category

structure Rule where
  lhs : String
  rhs : List String
  semantics : Semantics
  isWord_of_mem : ∀ label ∈ rhs, Text.IsWord label

inductive RuleError where
  | invalid (rule : String)
  | combinatorOnLexical (rule : String)
  deriving DecidableEq, Repr

def RuleError.message : RuleError → String
  | invalid rule => "Cannot accept rule " ++ rule ++
    ": the right hand side must be all terminals or exactly two categories"
  | combinatorOnLexical rule => "Lexical rule " ++ rule ++ " must carry a literal meaning"

inductive Shape where
  | lexical
  | binary (left right : String)
  deriving DecidableEq, Repr

namespace Rule

def ofText (lhs rhs : String) (semantics : Semantics) : Rule :=
  ⟨lhs, Text.words rhs, semantics, Text.isWord_of_mem_words rhs⟩

def lexical (lhs rhs : String) (meaning : Value) : Rule :=
  ofText lhs rhs (.literal meaning)

def text (rule : Rule) : String :=
  "Rule(" ++ rule.lhs ++ ", " ++ Text.phrase rule.rhs ++ ", " ++ rule.semantics.text ++ ")"

def isLexical (rule : Rule) : Bool :=
  !rule.rhs.isEmpty && rule.rhs.all fun label => !Category.isCategory label

def pair? (rule : Rule) : Option (String × String) :=
  match rule.rhs with
  | [left, right] =>
    if Category.isCategory left && Category.isCategory right then some (left, right) else none
  | _ => none

def isBinary (rule : Rule) : Bool := rule.pair?.isSome

def shape (rule : Rule) : Except RuleError Shape :=
  if !Category.isCategory rule.lhs then .error (.invalid rule.text)
  else if rule.isLexical then
    match rule.semantics with
    | .literal _ => .ok .lexical
    | .combinator _ => .error (.combinatorOnLexical rule.text)
  else
    match rule.pair? with
    | some (left, right) => .ok (.binary left right)
    | none => .error (.invalid rule.text)

end Rule

/-- A rule at its position in a grammar. A rule that was added twice occurs twice. -/
structure Occurrence where
  position : Nat
  rule : Rule

inductive Derivation where
  | leaf (use : Occurrence) (tokens : List String) (meaning : Value)
  | node (use : Occurrence) (left right : Derivation) (meaning : Value)

namespace Derivation

def use : Derivation → Occurrence
  | leaf u _ _ | node u _ _ _ => u

def rule (d : Derivation) : Rule := d.use.rule

def meaning : Derivation → Value
  | leaf _ _ m | node _ _ _ m => m

def category (d : Derivation) : String := d.rule.lhs

def ofTokens (use : Occurrence) (tokens : List String) : Derivation :=
  leaf use tokens (use.rule.semantics.meaning [])

def ofPair (use : Occurrence) (left right : Derivation) : Derivation :=
  node use left right (use.rule.semantics.meaning [left.meaning, right.meaning])

/-- The meaning by the rules of the whole tree, whatever the nodes carry. -/
def computedMeaning : Derivation → Value
  | leaf u _ _ => u.rule.semantics.meaning []
  | node u left right _ =>
    u.rule.semantics.meaning [left.computedMeaning, right.computedMeaning]

def leaves : Derivation → List String
  | leaf _ tokens _ => tokens
  | node _ left right _ => left.leaves ++ right.leaves

/-- All nodes, parents before children and left before right. -/
def nodes : Derivation → List Derivation
  | d@(leaf ..) => [d]
  | d@(node _ left right _) => d :: (left.nodes ++ right.nodes)

def text : Derivation → String
  | leaf u tokens _ => "(" ++ u.rule.lhs ++ ", " ++ Text.phrase tokens ++ ")"
  | node u left right _ => "(" ++ u.rule.lhs ++ ", " ++ left.text ++ " " ++ right.text ++ ")"

end Derivation

end SemanticParsing
