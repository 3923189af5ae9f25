import SemanticParsing.Evaluator.Form
import SemanticParsing.Proofs.Alike
import SemanticParsing.Proofs.ScopeChain
/-!
The special forms, each by the list that spells it, and the names that they assign or define. Alike
lists are of alike forms.
-/
namespace SemanticParsing

namespace Form

/-- The list spells the form. A list of a keyword that spells none of its forms is malformed, and
every other list that is not empty is an application. -/
inductive Spells : List Value → Form → Prop
  | empty : Spells [] empty
  | quote (datum : Value) : Spells [.symbol "quote", datum] (quote datum)
  | conditional (test consequence alternative : Value) :
      Spells [.symbol "if", test, consequence, alternative]
        (conditional test consequence alternative)
  | define (name : String) (expression : Value) :
      Spells [.symbol "define", .symbol name, expression] (define name expression)
  | assign (name : String) (expression : Value) :
      Spells [.symbol "set!", .symbol name, expression] (assign name expression)
  | lambda {list : Value} {parameters : List String} (names : parameters? list = some parameters)
      (first : Value) (rest : List Value) :
      Spells (.symbol "lambda" :: list :: first :: rest) (lambda parameters (first :: rest))
  | application {operator : Value}
      (ordinary : ∀ keyword : Keyword, operator ≠ .symbol keyword.name) (operands : List Value) :
      Spells (operator :: operands) (application operator operands)
  | malformed (keyword : Keyword) (rest : List Value) :
      Spells (.symbol keyword.name :: rest) (malformed keyword)

theorem keyword_of_ofName? {name : String} {keyword : Keyword}
    (h : Keyword.ofName? name = some keyword) : keyword.name = name := by
  simpa using List.find?_some h

theorem ofName?_name (keyword : Keyword) : Keyword.ofName? keyword.name = some keyword := by
  cases keyword <;> decide

theorem spells_ofKeyword (keyword : Keyword) (rest : List Value) :
    Spells (.symbol keyword.name :: rest) (ofKeyword keyword rest) := by
  fun_cases ofKeyword keyword rest with
  | case1 datum => exact .quote datum
  | case2 test consequence alternative => exact .conditional test consequence alternative
  | case3 name expression => exact .define name expression
  | case4 name expression => exact .assign name expression
  | case5 list first rest parameters names => exact .lambda names first rest
  | case6 list first rest _ => exact .malformed .lambda _
  | case7 => exact .malformed keyword rest

theorem spells_ofItems (items : List Value) : Spells items (ofItems items) := by
  fun_cases ofItems items with
  | case1 => exact .empty
  | case2 name rest keyword known =>
    rw [← keyword_of_ofName? known]
    exact spells_ofKeyword keyword rest
  | case3 name rest unknown =>
    refine .application (fun keyword same => ?_) rest
    obtain rfl := Value.symbol.inj same
    rw [ofName?_name] at unknown
    cases unknown
  | case4 operator operands notSymbol =>
    exact .application (fun keyword same => notSymbol _ same) operands

end Form

namespace Value

mutual

/-- The names in the forms `(keyword name e)` of an expression. Quoted data holds no forms. Bodies
of `lambda` forms are looked into on request, as they are evaluated only when called. -/
def targets (keyword : Keyword) (bodies : Bool) : Value → List String
  | list (symbol "quote" :: _) => []
  | list (symbol "lambda" :: _ :: body) => if bodies then targetsOf keyword bodies body else []
  | list [symbol head, symbol name, e] =>
    if head = keyword.name then name :: targets keyword bodies e else targets keyword bodies e
  | list items => targetsOf keyword bodies items
  | _ => []

def targetsOf (keyword : Keyword) (bodies : Bool) : List Value → List String
  | [] => []
  | e :: rest => targets keyword bodies e ++ targetsOf keyword bodies rest

end

abbrev assignedNames (e : Value) : List String := e.targets .assign true

abbrev definedNames (e : Value) : List String := e.targets .define false

variable {keyword : Keyword} {bodies : Bool} {items body : List Value} {v e : Value}
  {name : String}

theorem mem_targetsOf : name ∈ targetsOf keyword bodies items ↔
    ∃ e ∈ items, name ∈ e.targets keyword bodies := by
  induction items with
  | nil => simp [targetsOf]
  | cons e rest ih => simp [targetsOf, ih]

theorem targets_lambda (parameters : Value) :
    targets keyword bodies (list (symbol "lambda" :: parameters :: body)) =
      if bodies then targetsOf keyword bodies body else [] := by
  simp [targets]

theorem targets_define (name : String) (e : Value) :
    targets .define bodies (list [symbol "define", symbol name, e]) =
      name :: e.targets .define bodies := by
  simp [targets, Keyword.name]

theorem targets_assign (name : String) (e : Value) :
    targets .assign bodies (list [symbol "set!", symbol name, e]) =
      name :: e.targets .assign bodies := by
  simp [targets, Keyword.name]

theorem targets_item (evaluated : items.head? ≠ some (symbol "quote") ∧
      items.head? ≠ some (symbol "lambda")) (member : e ∈ items)
    (h : name ∈ e.targets keyword bodies) : name ∈ (list items).targets keyword bodies := by
  unfold targets
  split
  case h_1 same => cases same; exact absurd rfl evaluated.1
  case h_2 same => cases same; exact absurd rfl evaluated.2
  case h_3 head target part _ _ same =>
    cases same
    have isPart : name ∈ part.targets keyword bodies := by
      simp only [List.mem_cons, List.not_mem_nil, or_false] at member
      obtain rfl | rfl | rfl := member
      · simp [targets] at h
      · simp [targets] at h
      · exact h
    split
    · exact List.mem_cons_of_mem _ isPart
    · exact isPart
  case h_4 same =>
    cases same
    exact mem_targetsOf.mpr ⟨e, member, h⟩
  case h_5 notList => exact absurd rfl (notList items)

def Unassigning (v : Value) : Prop :=
  v.EachLambda fun _ body _ _ => targetsOf .assign true body = []

theorem targetsOf_eq_nil : targetsOf keyword bodies items = [] ↔
    ∀ e ∈ items, e.targets keyword bodies = [] := by
  simp only [List.eq_nil_iff_forall_not_mem, mem_targetsOf]
  grind

end Value

def Heap.Unassigning (heap : Heap) : Prop :=
  ∀ (s : ScopeId) (name : String) (v : Value), (heap.bindings s)[name]? = some v → v.Unassigning

namespace Form

open Value (AllAlike)

inductive Alike (corresponds : Value → Value → Prop) : Form → Form → Prop
  | empty : Alike corresponds empty empty
  | quote {datum datum' : Value} : Value.Alike corresponds datum datum' →
      Alike corresponds (quote datum) (quote datum')
  | conditional {test test' consequence consequence' alternative alternative' : Value} :
      Value.Alike corresponds test test' → Value.Alike corresponds consequence consequence' →
      Value.Alike corresponds alternative alternative' →
      Alike corresponds (conditional test consequence alternative)
        (conditional test' consequence' alternative')
  | define (name : String) {e e' : Value} : Value.Alike corresponds e e' →
      Alike corresponds (define name e) (define name e')
  | assign (name : String) {e e' : Value} : Value.Alike corresponds e e' →
      Alike corresponds (assign name e) (assign name e')
  | lambda (parameters : List String) {body body' : List Value} :
      AllAlike corresponds body body' →
      Alike corresponds (lambda parameters body) (lambda parameters body')
  | application {operator operator' : Value} {operands operands' : List Value} :
      Value.Alike corresponds operator operator' → AllAlike corresponds operands operands' →
      Alike corresponds (application operator operands) (application operator' operands')
  | malformed (keyword : Keyword) : Alike corresponds (malformed keyword) (malformed keyword)

variable {corresponds : Value → Value → Prop} {v w : Value} {items others : List Value}

theorem asSymbol?_eq (h : Value.Alike corresponds v w) : v.asSymbol? = w.asSymbol? := by
  cases h <;> rfl

theorem mapM_asSymbol?_eq (h : AllAlike corresponds items others) :
    items.mapM Value.asSymbol? = others.mapM Value.asSymbol? := by
  induction h with
  | nil => rfl
  | cons first _ ih => rw [List.mapM_cons, List.mapM_cons, asSymbol?_eq first, ih]

theorem parameters?_eq (h : Value.Alike corresponds v w) : parameters? v = parameters? w := by
  cases h with
  | list length each => exact mapM_asSymbol?_eq (Value.forall₂_iff.mpr ⟨length, each⟩)
  | _ => rfl

theorem ofKeyword_alike (keyword : Keyword) (h : AllAlike corresponds items others) :
    Alike corresponds (ofKeyword keyword items) (ofKeyword keyword others) := by
  cases keyword with
  | quote =>
    match h with
    | .nil | .cons _ (.cons _ _) => exact .malformed .quote
    | .cons datum .nil => exact .quote datum
  | conditional =>
    match h with
    | .nil | .cons _ .nil | .cons _ (.cons _ .nil) | .cons _ (.cons _ (.cons _ (.cons _ _))) =>
      exact .malformed .conditional
    | .cons test (.cons consequence (.cons alternative .nil)) =>
      exact .conditional test consequence alternative
  | define | assign =>
    match h with
    | .nil => exact .malformed _
    | .cons first rest =>
      cases first with
      | list | lambda => exact .malformed _
      | atom isAtom =>
        cases isAtom with
        | symbol name =>
          match rest with
          | .nil | .cons _ (.cons _ _) => exact .malformed _
          | .cons e .nil =>
            constructor
            exact e
        | _ => exact .malformed _
  | lambda =>
    match h with
    | .nil | .cons _ .nil => exact .malformed .lambda
    | .cons written (.cons first rest) =>
      simp only [ofKeyword, parameters?_eq written]
      split
      · exact .lambda _ (.cons first rest)
      · exact .malformed .lambda

theorem ofItems_alike (h : AllAlike corresponds items others) :
    Alike corresponds (ofItems items) (ofItems others) := by
  cases h with
  | nil => exact .empty
  | cons operator operands =>
    have ordinary := Alike.application operator operands
    cases operator with
    | list | lambda => exact ordinary
    | atom isAtom =>
      cases isAtom with
      | symbol name =>
        simp only [ofItems]
        split
        · exact ofKeyword_alike _ operands
        · exact ordinary
      | _ => exact ordinary

end Form

end SemanticParsing
