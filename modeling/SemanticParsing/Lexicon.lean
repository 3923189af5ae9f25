import SemanticParsing.Model
/-!
Lexical rules that need not be written by hand: every pairing of the phrases and meanings of a
category, or of the tokens of some examples with candidate meanings and categories.
-/
namespace SemanticParsing.Lexicon

def gatherTokens (examples : List Example) : List String :=
  (examples.flatMap Example.tokens).eraseDups

/-- The first of every class of semantics that are the same, in order of first appearance. -/
def distinct (attested : List Semantics) : List Semantics :=
  attested.foldl (fun kept semantics =>
    if kept.any fun other => other.same semantics then kept else kept ++ [semantics]) []

def expandCategory (rules : List Rule) : List Rule :=
  let meanings := distinct (rules.map Rule.semantics)
  rules.flatMap fun rule => meanings.map fun semantics => { rule with semantics }

/-- Tries every phrase with all meanings of its category. The other rules come first, unchanged;
the categories follow in order of first appearance. -/
def expandAmbiguous (rules : List Rule) : List Rule :=
  let lexical := rules.filter Rule.isLexical
  let categories := (lexical.map Rule.lhs).eraseDups
  rules.filter (fun rule => !rule.isLexical) ++
    categories.flatMap fun lhs => expandCategory (lexical.filter (·.lhs = lhs))

def product (tokens : List String) (meanings : List Value) (categories : List String) :
    List Rule :=
  tokens.flatMap fun token => meanings.flatMap fun meaning => categories.map fun category =>
    Rule.lexical category token meaning

def classify {σ : Type} (executor : Executor σ) (meanings : List Value) :
    Action σ (List (Value × Bool)) :=
  meanings.mapM fun meaning => do return (meaning, (← executor meaning).isProcedure)

/-- Every rule from a token to a meaning of the kind that its category holds: procedures go with
operator categories and come first, other meanings with the remaining categories. -/
def synthesize {σ : Type} (executor : Executor σ) (tokens : List String) (meanings : List Value)
    (categories : List String) : Action σ (List Rule) := do
  let classified ← classify executor meanings
  let ofKind (isProcedure : Bool) :=
    product tokens ((classified.filter (·.2 = isProcedure)).map (·.1))
      (categories.filter (Category.isOperator · = isProcedure))
  return ofKind true ++ ofKind false

end SemanticParsing.Lexicon
