import Std.Data.ExtTreeMap
import SemanticParsing.Grammar.Rule
/-!
Grammars: rules indexed for parsing, lexical rules by their phrase and binary rules by the pair of
their categories. The rules of one key are in the order in which they were added.
-/
namespace SemanticParsing

abbrev Index (κ β : Type) [Ord κ] := Std.ExtTreeMap κ (List β)

namespace Index

variable {κ β : Type} [Ord κ] [Std.TransOrd κ]

def items (index : Index κ β) (key : κ) : List β := index.getD key []

def file (index : Index κ β) (key : κ) (item : β) : Index κ β :=
  index.insert key (index.items key ++ [item])

def count (index : Index κ β) : Nat := index.values.flatten.length

theorem items_empty (key : κ) : items (∅ : Index κ β) key = [] := by
  simp [items]

variable [Std.LawfulEqOrd κ]

theorem mem_file {index : Index κ β} {key other : κ} {item : β} :
    other ∈ index.file key item ↔ key = other ∨ other ∈ index := by
  simp [file, Std.ExtTreeMap.mem_insert]

theorem getElem?_file [DecidableEq κ] (index : Index κ β) (key other : κ) (item : β) :
    (index.file key item)[other]? =
      if key = other then some (index.items key ++ [item]) else index[other]? := by
  simp [file, Std.ExtTreeMap.getElem?_insert]

theorem items_file [DecidableEq κ] (index : Index κ β) (key other : κ) (item : β) :
    (index.file key item).items other =
      if key = other then index.items key ++ [item] else index.items other := by
  simp [file, items, Std.ExtTreeMap.getD_insert]

end Index

abbrev CategoryPair := String × String

instance : Ord CategoryPair := lexOrd

structure Grammar where
  /-- By the tokens of the phrase, joined by single spaces. -/
  lexical : Index String Occurrence := ∅
  longestPhrase : Nat := 0
  binary : Index CategoryPair Occurrence := ∅
  /-- The pairs that have rules, in the order in which they got their first. -/
  binaryOrder : List CategoryPair := []
  nextPosition : Nat := 0
  startCategory : String := Category.sentence
  mem_binary : ∀ pair ∈ binaryOrder, pair ∈ binary := by simp

namespace Grammar

def empty : Grammar := {}

instance : Inhabited Grammar := ⟨empty⟩

def addLexical (grammar : Grammar) (rule : Rule) : Grammar :=
  { grammar with
    lexical := grammar.lexical.file (Text.phrase rule.rhs) ⟨grammar.nextPosition, rule⟩
    longestPhrase := max grammar.longestPhrase rule.rhs.length
    nextPosition := grammar.nextPosition + 1 }

def addBinary (grammar : Grammar) (pair : CategoryPair) (rule : Rule) : Grammar :=
  { grammar with
    binary := grammar.binary.file pair ⟨grammar.nextPosition, rule⟩
    binaryOrder :=
      if pair ∈ grammar.binary then grammar.binaryOrder else grammar.binaryOrder ++ [pair]
    nextPosition := grammar.nextPosition + 1
    mem_binary := by
      intro other member
      rw [Index.mem_file]
      split at member
      · exact .inr (grammar.mem_binary other member)
      · cases List.mem_append.mp member with
        | inl old => exact .inr (grammar.mem_binary other old)
        | inr new => exact .inl (List.mem_singleton.mp new).symm }

/-- Adds a rule after all others, unless it has neither shape. -/
def add (grammar : Grammar) (rule : Rule) : Except RuleError Grammar := do
  match ← rule.shape with
  | .lexical => return grammar.addLexical rule
  | .binary left right => return grammar.addBinary (left, right) rule

/-- Adds a rule to the grammar in hand, which is the same after a rule that it cannot accept. -/
def offer (rule : Rule) : ExceptT RuleError (StateM Grammar) Unit := do
  set (← (← get).add rule)

/-- The grammar of a list of rules; the first rule that cannot be accepted is the error. -/
def ofRules (rules : List Rule) : Except RuleError Grammar :=
  rules.foldlM add empty

def withStartCategory (grammar : Grammar) (category : String) : Grammar :=
  { grammar with startCategory := category }

def lexicalRules (grammar : Grammar) (phrase : String) : List Occurrence :=
  grammar.lexical.items phrase

def binaryRules (grammar : Grammar) (left right : String) : List Occurrence :=
  grammar.binary.items (left, right)

def ruleCount (grammar : Grammar) : Nat := grammar.lexical.count + grammar.binary.count

end Grammar

end SemanticParsing
