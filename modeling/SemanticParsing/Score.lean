import Std.Data.ExtTreeMap
import SemanticParsing.Grammar.Rule
/-!
Features of derivations, their weighted sums, and stable sorting. The program counts with doubles;
nothing here says that sums may be reordered or that every number can be compared.
-/
namespace SemanticParsing

/-- Numbers with the operations of scoring and learning, which need not obey any law. -/
class Scalar (α : Type) extends Add α, Sub α, Mul α, BEq α where
  zero : α
  one : α
  emptySum : α
  less : α → α → Bool
  lessOrEqual : α → α → Bool

/-- A sum of doubles starts from negative zero, which changes no number it is added to. -/
instance : Scalar Float where
  zero := 0.0
  one := 1.0
  emptySum := -0.0
  less x y := x < y
  lessOrEqual x y := x ≤ y

abbrev Table (α : Type) := Std.ExtTreeMap String α

namespace Table

variable {α : Type} [Scalar α]

def number (table : Table α) (name : String) : α := table.getD name Scalar.zero

def addAt (table : Table α) (name : String) (amount : α) : Table α :=
  table.alter name fun old => some (old.getD Scalar.zero + amount)

def sum (numbers : List α) : α := numbers.foldl (· + ·) Scalar.emptySum

/-- The weighted sum of features, added up in the order of their names. -/
def dot (features weights : Table α) : α :=
  sum (features.toList.map fun (name, count) => weights.number name * count)

end Table

abbrev FeatureFunction (σ α : Type) := σ → Derivation → Table α

namespace Feature

variable {σ α : Type} [Scalar α]

def none : FeatureFunction σ α := fun _ _ => ∅

/-- The head of a list that stands for unary minus, which is not subtraction. -/
def unaryMinus : String := "~"

/-- The operator of a list: its first item, except that a negation is told from a difference. -/
def head? : List Value → Option String
  | [] => Option.none
  | [.symbol "-", _] => some unaryMinus
  | first :: _ => some first.text

/-- Counts a child list under its parent's head, unless the heads are equal. -/
def countNesting (parent : String) (child : Value) (features : Table α) : Table α :=
  match child.asList?.bind head? with
  | some head => if head = parent then features
    else features.addAt (head ++ "," ++ parent) Scalar.one
  | Option.none => features

mutual

def addNestings (features : Table α) : Value → Table α
  | .list (first :: rest) =>
    match head? (first :: rest) with
    | some parent => addChildren parent features rest
    | Option.none => features
  | _ => features

def addChildren (parent : String) (features : Table α) : List Value → Table α
  | [] => features
  | child :: rest =>
    addChildren parent (countNesting parent child (addNestings features child)) rest

end

/-- How often a list with one head is an argument of a list with another, as `child,parent`. -/
def precedence (meaning : Value) : Table α := addNestings ∅ meaning

def precedences : FeatureFunction σ α := fun _ d => precedence d.meaning

def rules : FeatureFunction σ α := fun _ d =>
  d.nodes.foldl (fun features node => features.addAt node.rule.text Scalar.one) ∅

def constant (features : Table α) : FeatureFunction σ α := fun _ _ => features

def addAll (features more : Table α) : Table α :=
  more.foldl (fun features name count => features.addAt name count) features

def combined (parts : List (FeatureFunction σ α)) : FeatureFunction σ α := fun state d =>
  parts.foldl (fun features part => addAll features (part state d)) ∅

end Feature

namespace Ranking

variable {α : Type}

def insertFromEnd (before : α → α → Bool) (x : α) : List α → List α
  | [] => [x]
  | y :: rest => if before x y then y :: insertFromEnd before x rest else x :: y :: rest

def sort (before : α → α → Bool) (xs : List α) : List α :=
  (xs.foldl (fun sorted x => insertFromEnd before x sorted) []).reverse

end Ranking

end SemanticParsing
