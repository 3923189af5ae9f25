import SemanticParsing.Proofs.FormSyntax
/-! The symbols that an expression can evaluate, and expressions that can be evaluated in a scope
because all of these are seen from it. -/
namespace SemanticParsing

namespace Value

def parameterNames : Value → List String
  | symbol name => [name]
  | list items => items.filterMap asSymbol?
  | _ => []

mutual

def freeSymbols : Value → List String
  | symbol name => [name]
  | list (symbol "quote" :: _) => []
  | list (symbol "if" :: parts) => freeSymbolsOf parts
  | list [symbol "define", symbol _, e] => freeSymbols e
  | list [symbol "set!", symbol name, e] => name :: freeSymbols e
  | list (symbol "lambda" :: parameters :: body) =>
    (freeSymbolsOf body).filter (· ∉ parameters.parameterNames)
  | list items => freeSymbolsOf items
  | _ => []

def freeSymbolsOf : List Value → List String
  | [] => []
  | e :: rest => freeSymbols e ++ freeSymbolsOf rest

end

theorem mem_freeSymbolsOf {items : List Value} {name : String} :
    name ∈ freeSymbolsOf items ↔ ∃ e ∈ items, name ∈ e.freeSymbols := by
  induction items with
  | nil => simp [freeSymbolsOf]
  | cons e rest ih => simp [freeSymbolsOf, ih]

theorem filterMap_of_mapM {items : List Value} {names : List String}
    (h : items.mapM asSymbol? = some names) : items.filterMap asSymbol? = names := by
  induction items generalizing names with
  | nil => simpa using h
  | cons item items ih =>
    rw [List.mapM_cons] at h
    obtain ⟨name, first, h⟩ := Option.bind_eq_some_iff.mp h
    obtain ⟨rest, others, h⟩ := Option.bind_eq_some_iff.mp h
    cases h
    rw [List.filterMap_cons_some first, ih others]

theorem parameterNames_of_parameters? {v : Value} {names : List String}
    (h : Form.parameters? v = some names) : v.parameterNames = names := by
  cases v with
  | symbol name => simpa [Form.parameters?, parameterNames] using h
  | list items => exact filterMap_of_mapM h
  | _ => simp [Form.parameters?] at h

theorem freeSymbols_conditional (test consequence alternative : Value) :
    freeSymbols (list [symbol "if", test, consequence, alternative]) =
      freeSymbolsOf [test, consequence, alternative] := by
  simp [freeSymbols]

theorem freeSymbols_define (name : String) (e : Value) :
    freeSymbols (list [symbol "define", symbol name, e]) = e.freeSymbols := by
  simp [freeSymbols]

theorem freeSymbols_assign (name : String) (e : Value) :
    freeSymbols (list [symbol "set!", symbol name, e]) = name :: e.freeSymbols := by
  simp [freeSymbols]

theorem freeSymbols_lambda (parameters : Value) (body : List Value) :
    freeSymbols (list (symbol "lambda" :: parameters :: body)) =
      (freeSymbolsOf body).filter (· ∉ parameters.parameterNames) := by
  simp [freeSymbols]

theorem freeSymbols_application {operator : Value} {operands : List Value}
    (ordinary : ∀ keyword : Keyword, operator ≠ symbol keyword.name) :
    freeSymbols (list (operator :: operands)) = freeSymbolsOf (operator :: operands) := by
  have quote := ordinary .quote
  have conditional := ordinary .conditional
  have define := ordinary .define
  have assign := ordinary .assign
  have lambda := ordinary .lambda
  simp only [Keyword.name] at *
  unfold freeSymbols
  split <;> simp_all

/-- The free symbols of each procedure in the value are among its parameters or are seen from the
scope that it was made in. -/
def Closed (heap : Heap) (v : Value) : Prop :=
  ∀ parameters body s i, (lambda parameters body s i).Occurs v →
    ∀ name ∈ freeSymbolsOf body, name ∈ parameters ∨ heap.contains s name

structure ScopedIn (heap : Heap) (s : ScopeId) (e : Value) : Prop where
  seen : ∀ name ∈ e.freeSymbols, heap.contains s name
  closed : e.Closed heap

variable {heap after : Heap} {s : ScopeId} {v e : Value} {items : List Value}

theorem Closed.mono (h : v.Closed heap)
    (grows : ∀ s name, heap.contains s name → after.contains s name) : v.Closed after :=
  fun parameters body s i occurs name free =>
    (h parameters body s i occurs name free).imp_right (grows s name)

theorem ScopedIn.mono (h : e.ScopedIn heap s)
    (grows : ∀ s name, heap.contains s name → after.contains s name) : e.ScopedIn after s where
  seen name free := grows s name (h.seen name free)
  closed := h.closed.mono grows

theorem IsAtom.closed (h : v.IsAtom) : v.Closed heap := h.eachLambda

theorem closed_list : (list items).Closed heap ↔ ∀ v ∈ items, v.Closed heap := eachLambda_list

theorem ScopedIn.item (h : (list items).ScopedIn heap s) (member : e ∈ items)
    (free : ∀ name ∈ e.freeSymbols, name ∈ (list items).freeSymbols) : e.ScopedIn heap s where
  seen name isFree := h.seen name (free name isFree)
  closed := closed_list.mp h.closed e member

theorem Closed.body {parameters : List String} {body : List Value} {i : Nat}
    (h : (lambda parameters body s i).Closed heap) (member : e ∈ body) : e.Closed heap :=
  (eachLambda_lambda.mp h).2 e member

theorem closed_lambda {parameters : List String} {body : List Value} {i : Nat}
    (own : ∀ name ∈ freeSymbolsOf body, name ∈ parameters ∨ heap.contains s name)
    (inside : ∀ e ∈ body, e.Closed heap) : (lambda parameters body s i).Closed heap :=
  eachLambda_lambda.mpr ⟨own, inside⟩

end Value

def Heap.Closed (heap : Heap) : Prop :=
  ∀ (s : ScopeId) (name : String) (v : Value), (heap.bindings s)[name]? = some v → v.Closed heap

end SemanticParsing
