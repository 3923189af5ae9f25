import SemanticParsing.Proofs.EvaluatorDiscipline
import SemanticParsing.Proofs.FreeSymbols
import SemanticParsing.Proofs.StandardScope
/-! Evaluating what is scoped never meets an unbound symbol, and leaves everything scoped. -/
namespace SemanticParsing

open Value

/-- Every procedure stays closed, names stay seen, and no symbol is found unbound. -/
def Heap.scoping : Discipline Heap where
  Inv := Closed
  Step before after := ∀ s name, before.contains s name → after.contains s name
  Stops stop := ∀ name, stop ≠ .error (.unbound name)
  refl _ _ _ := id
  trans first second s name := second s name ∘ first s name

abbrev Evaluator.Scoped (heap : Heap) (action : Action Heap Value) : Prop :=
  action.Keeps Heap.scoping heap fun after v => v.Closed after

variable {heap : Heap} {s : ScopeId} {name : String} {v e : Value} {items arguments : List Value}

namespace Heap

theorem Closed.define (h : heap.Closed) (closed : v.Closed heap) :
    (heap.define s name v).Closed := by
  intro t x w bound
  obtain rfl | old := bound_of_define bound
  · exact closed.mono fun _ _ => contains_define
  · exact (h t x w old).mono fun _ _ => contains_define

theorem Closed.push {bindings : Std.ExtTreeMap String Value} {outer : Option ScopeId}
    (h : heap.Closed)
    (closed : ∀ (name : String) (v : Value), bindings[name]? = some v → v.Closed heap) :
    (heap.push bindings outer).2.Closed := by
  intro t x w bound
  obtain new | old := bound_of_push bound
  · exact (closed x w new).mono fun _ _ => contains_push
  · exact (h t x w old).mono fun _ _ => contains_push

theorem Closed.freshIdentity (h : heap.Closed) : heap.freshIdentity.2.Closed :=
  fun t x w bound => (h t x w bound).mono fun _ _ => contains_freshIdentity

theorem closed_empty : Heap.empty.Closed := by
  intro s name v bound
  simp [Heap.bindings, Heap.empty] at bound

theorem Closed.pushStandard (h : heap.Closed) : heap.pushStandard.2.Closed :=
  h.push fun _ _ bound => (Scope.isAtom_of_standardBindings bound).closed

theorem Closed.of_lookup? (h : heap.Closed) (found : heap.lookup? s name = some v) :
    v.Closed heap := by
  obtain ⟨t, -, bound⟩ := exists_bound_of_lookup? found
  exact h t name v bound

end Heap

namespace Evaluator

theorem lookup_scoped (h : heap.Closed) (seen : heap.contains s name) :
    Scoped heap (Scope.lookup s name) := by
  obtain ⟨v, found⟩ := Heap.exists_lookup?_of_contains seen
  exact Action.keeps_of_run (Scope.run_lookup_of_some found) h (Heap.scoping.refl heap)
    (h.of_lookup? found)

theorem define_scoped (h : heap.Closed) (closed : v.Closed heap) :
    (Scope.define s name v).Keeps Heap.scoping heap fun _ _ => True :=
  Action.keeps_of_run rfl (h.define closed) (fun _ _ => Heap.contains_define) trivial

theorem assign_scoped (h : heap.Closed) (seen : heap.contains s name) (closed : v.Closed heap) :
    (Scope.assign s name v).Keeps Heap.scoping heap fun _ _ => True := by
  obtain ⟨t, found⟩ := Option.isSome_iff_exists.mp seen
  exact Action.keeps_of_run (Scope.run_assign_of_some found) (h.define closed)
    (fun _ _ => Heap.contains_define) trivial

theorem makeLambda_scoped {parameters : List String} {body : List Value} (h : heap.Closed)
    (own : ∀ name ∈ freeSymbolsOf body, name ∈ parameters ∨ heap.contains s name)
    (inside : ∀ e ∈ body, e.Closed heap) : Scoped heap (makeLambda parameters body s) := by
  have closed : (lambda parameters body s heap.nextIdentity).Closed heap := closed_lambda own inside
  have grows (t : ScopeId) (x : String) : heap.contains t x → heap.freshIdentity.2.contains t x :=
    Heap.contains_freshIdentity
  exact Action.keeps_of_run (run_makeLambda parameters body s heap) h.freshIdentity grows
    (closed.mono grows)

theorem push_scoped {parameters : List String} (h : heap.Closed)
    (length : parameters.length = arguments.length) (closed : ∀ v ∈ arguments, v.Closed heap) :
    (Scope.push (bind parameters arguments) (some s)).Keeps Heap.scoping heap fun after inner =>
      ∀ name, name ∈ parameters ∨ heap.contains s name → after.contains inner name := by
  refine Action.keeps_of_run (Scope.run_push (bind parameters arguments) (some s) heap) ?_ ?_ ?_
  · exact h.push fun name v bound => closed v (mem_of_bind bound)
  · exact fun _ _ => Heap.contains_push
  · exact fun name own => Heap.contains_push_self (own.imp_left (mem_bind length))

theorem part_scoped {form : Form} (spells : Form.Spells items form) (member : e ∈ form.parts)
    (inScope : (list items).ScopedIn heap s) : e.ScopedIn heap s := by
  cases spells with
  | conditional test consequence alternative =>
    refine inScope.item (List.mem_cons_of_mem _ member) fun name free => ?_
    rw [freeSymbols_conditional]
    exact mem_freeSymbolsOf.mpr ⟨e, member, free⟩
  | define name part =>
    obtain rfl := List.mem_singleton.mp member
    exact inScope.item (by simp) fun name free => by rwa [freeSymbols_define]
  | assign name part =>
    obtain rfl := List.mem_singleton.mp member
    refine inScope.item (by simp) fun name free => ?_
    rw [freeSymbols_assign]
    exact List.mem_cons_of_mem _ free
  | application ordinary operands =>
    refine inScope.item member fun name free => ?_
    rw [freeSymbols_application ordinary]
    exact mem_freeSymbolsOf.mpr ⟨e, member, free⟩
  | _ => cases member

abbrev SeesBody (heap : Heap) (parameters : List String) (body : List Value) (s : ScopeId)
    (_ : Nat) : Prop :=
  ∀ name ∈ freeSymbolsOf body, name ∈ parameters ∨ heap.contains s name

theorem scoping_upheld : Upholds Heap.scoping SeesBody fun heap s e => e.ScopedIn heap s where
  stops _ bound := bound
  procedure_later grows sees name free := (sees name free).imp_right (grows _ name)
  fits_later grows inScope := inScope.mono grows
  procedures inScope := inScope.closed
  part := part_scoped
  lookup closed inScope := lookup_scoped closed (inScope.seen _ (by simp [freeSymbols]))
  define closed _ good := define_scoped closed good
  assign closed inScope good := by
    refine assign_scoped closed (inScope.seen _ ?_) good
    rw [freeSymbols_assign]
    exact List.mem_cons_self
  lambda {heap s written parameters body} closed names inScope := by
    refine makeLambda_scoped closed (fun name free => ?_) fun e member => ?_
    · by_cases parameter : name ∈ parameters
      · exact .inl parameter
      · refine .inr (inScope.seen name ?_)
        rw [freeSymbols_lambda, parameterNames_of_parameters? names]
        simpa [parameter] using free
    · exact closed_list.mp inScope.closed e (List.mem_cons_of_mem _ (List.mem_cons_of_mem _ member))
  enter {heap s i parameters body arguments} closed length procedure good := by
    refine (push_scoped closed length good).imp fun after inner grows seen e member => ⟨?_, ?_⟩
    · intro name free
      have isFree : name ∈ freeSymbolsOf body := mem_freeSymbolsOf.mpr ⟨e, member, free⟩
      exact seen name (procedure parameters body s i .self name isFree)
    · exact Closed.mono (Closed.body procedure member) grows

theorem scopedTo (depth : Nat) :
    KeepsTo Heap.scoping SeesBody (fun heap s e => e.ScopedIn heap s) depth :=
  scoping_upheld.keepsTo depth

/-- What is scoped in a scope of a closed heap is evaluated there without an unbound symbol, however
far the evaluation goes. Whether it gives a value or stops, the heap that it leaves is closed, and
so is the value, and from each scope the names are seen that were seen before. -/
theorem eval_finds_symbols (fuel : Nat) (heap : Heap) (s : ScopeId) (e : Value)
    (closed : heap.Closed) (inScope : e.ScopedIn heap s) :
    (∀ name, ((eval fuel e s).run.run heap).1 ≠ .error (.error (.unbound name))) ∧
      (∀ v, ((eval fuel e s).run.run heap).1 = .ok v →
        v.Closed ((eval fuel e s).run.run heap).2) ∧
      ((eval fuel e s).run.run heap).2.Closed ∧
      ∀ t name, heap.contains t name → ((eval fuel e s).run.run heap).2.contains t name := by
  have kept := (scopedTo fuel).eval heap e s closed inScope
  exact ⟨fun name same => kept.stops _ same name rfl, kept.post, kept.inv, kept.step⟩

def doubling : Value :=
  .lambda ["x"] [.list [.symbol "+", .symbol "x", .symbol "x"]] 0 0

def doublingHeap : Heap :=
  Heap.empty.pushStandard.2.define 0 "double" doubling

def doublingProgram : Value :=
  .list [.symbol "map",
    .list [.symbol "lambda", .list [.symbol "x"],
      .list [.symbol "apply", .symbol "double", .list [.symbol "list", .symbol "x"]]],
    .list [.symbol "quote", .list [.int 1, .int 2]]]

theorem doublingHeap_contains (p : Primitive) : doublingHeap.contains 0 p.name :=
  Heap.contains_define (Heap.contains_pushStandard .empty p)

theorem doublingHeap_closed : doublingHeap.Closed := by
  refine Heap.closed_empty.pushStandard.define (closed_lambda (fun name free => ?_) ?_)
  · have names : freeSymbolsOf [list [symbol "+", symbol "x", symbol "x"]] = ["+", "x", "x"] := by
      decide
    simp only [names, List.mem_cons, List.not_mem_nil, or_false] at free
    obtain rfl | rfl | rfl := free
    · exact .inr (Heap.contains_pushStandard .empty (.operation .add))
    · exact .inl (by simp)
    · exact .inl (by simp)
  · simp [closed_list, (IsAtom.symbol _).closed]

theorem doublingProgram_inScope : doublingProgram.ScopedIn doublingHeap 0 where
  seen name free := by
    have names : doublingProgram.freeSymbols = ["map", "apply", "double", "list"] := by decide
    simp only [names, List.mem_cons, List.not_mem_nil, or_false] at free
    obtain rfl | rfl | rfl | rfl := free
    · exact doublingHeap_contains .map
    · exact doublingHeap_contains .apply
    · refine Heap.contains_cases.mpr (.inl ?_)
      rw [doublingHeap, Heap.bindings_define_self (by decide)]
      simp
    · exact doublingHeap_contains (.operation .list)
  closed := by
    simp [doublingProgram, closed_list, (IsAtom.symbol _).closed, (IsAtom.int _).closed]

theorem doublingProgram_finds_symbols :
    (∀ name, ((eval 9 doublingProgram 0).run.run doublingHeap).1 ≠ .error (.error (.unbound name))) ∧
      ∀ t name, doublingHeap.contains t name →
        ((eval 9 doublingProgram 0).run.run doublingHeap).2.contains t name :=
  have found := eval_finds_symbols 9 doublingHeap 0 doublingProgram doublingHeap_closed
    doublingProgram_inScope
  ⟨found.1, found.2.2.2⟩

end Evaluator

end SemanticParsing
