import Std.Data.ExtTreeMap
import SemanticParsing.Text.Quoted
import SemanticParsing.Value.Basic
/-!
Scopes. A scope binds symbols and may have an outer scope, which was made before it, so walking
outwards always ends. A symbol is resolved by the first scope on that walk that binds it.
-/
namespace SemanticParsing

structure Scope where
  bindings : Std.ExtTreeMap String Value := ∅
  outer : Option ScopeId := none

/-- All scopes made so far, scope `i` at index `i`, and the identity of the next procedure. -/
structure Heap where
  scopes : Array Scope := #[]
  nextIdentity : Nat := 0
  outer_lt : ∀ (s : ScopeId) (h : s < scopes.size) (o : ScopeId),
    scopes[s].outer = some o → o < s := by simp

namespace Heap

def empty : Heap := {}

def size (heap : Heap) : Nat := heap.scopes.size

def bindings (heap : Heap) (s : ScopeId) : Std.ExtTreeMap String Value :=
  (heap.scopes[s]?.map Scope.bindings).getD ∅

def outer? (heap : Heap) (s : ScopeId) : Option ScopeId :=
  heap.scopes[s]?.bind Scope.outer

theorem lt_of_outer? {heap : Heap} {s o : ScopeId} (h : heap.outer? s = some o) : o < s := by
  obtain ⟨scope, found, outer⟩ := Option.bind_eq_some_iff.mp h
  obtain ⟨inside, rfl⟩ := Array.getElem?_eq_some_iff.mp found
  exact heap.outer_lt s inside o outer

def chain (heap : Heap) (s : ScopeId) : List ScopeId :=
  match _h : heap.outer? s with
  | some o => s :: heap.chain o
  | none => [s]
termination_by s
decreasing_by exact lt_of_outer? _h

def binder? (heap : Heap) (s : ScopeId) (name : String) : Option ScopeId :=
  (heap.chain s).find? fun t => (heap.bindings t).contains name

def lookup? (heap : Heap) (s : ScopeId) (name : String) : Option Value :=
  (heap.binder? s name).bind fun t => (heap.bindings t)[name]?

def contains (heap : Heap) (s : ScopeId) (name : String) : Bool :=
  (heap.binder? s name).isSome

/-- Binds `name` in the scope itself, hiding any binding farther out. -/
def define (heap : Heap) (s : ScopeId) (name : String) (value : Value) : Heap where
  scopes := heap.scopes.modify s fun scope =>
    { scope with bindings := scope.bindings.insert name value }
  nextIdentity := heap.nextIdentity
  outer_lt := by
    intro t inside o outer
    have old := heap.outer_lt t (by simpa using inside) o
    grind

/-- Makes a scope. It can only be enclosed by a scope that is there already. -/
def push (heap : Heap) (bindings : Std.ExtTreeMap String Value) (outer : Option ScopeId) :
    ScopeId × Heap where
  fst := heap.size
  snd :=
    { scopes := heap.scopes.push ⟨bindings, outer.filter (· < heap.size)⟩
      nextIdentity := heap.nextIdentity
      outer_lt := by
        intro s inside o outer
        have old := heap.outer_lt s
        grind [Option.filter_eq_some_iff, Heap.size] }

def freshIdentity (heap : Heap) : Nat × Heap :=
  (heap.nextIdentity, { heap with nextIdentity := heap.nextIdentity + 1 })

def ownNames (heap : Heap) (s : ScopeId) : List String :=
  (heap.bindings s).keys

end Heap

namespace Scope

def constants : List (String × Float) :=
  [("PI", 3.141592653589793), ("E", 2.718281828459045), ("LN2", 0.6931471805599453),
    ("LN10", 2.302585092994046), ("LOG2E", 1.4426950408889634),
    ("LOG10E", 0.4342944819032518), ("SQRT2", 1.4142135623730951),
    ("SQRT1_2", 0.7071067811865476)]

/-- No constant has the name of a procedure, so the order does not matter. -/
def standardEntries : List (String × Value) :=
  constants.map (fun (name, x) => (name, .float x)) ++
  Primitive.all.map fun p => (p.name, .primitive p)

def standardBindings : Std.ExtTreeMap String Value :=
  standardEntries.foldl (fun map (name, value) => map.insert name value) ∅

end Scope

namespace Heap

def pushStandard (heap : Heap) : ScopeId × Heap :=
  heap.push Scope.standardBindings none

def describe (heap : Heap) (s : ScopeId) : String :=
  "Environment \x7b symbols: [" ++ ", ".intercalate ((heap.ownNames s).map Text.quoted) ++
    "], has_outer: " ++ toString (heap.outer? s).isSome ++ " \x7d"

end Heap

end SemanticParsing
