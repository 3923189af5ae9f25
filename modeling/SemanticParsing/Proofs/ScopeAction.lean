import SemanticParsing.Evaluator.Basic
import SemanticParsing.Proofs.AlikeResult
import SemanticParsing.Proofs.ScopeChain
/-! The actions on scopes that an evaluation is made of, and what `apply` and `map` call. -/
namespace SemanticParsing

variable {heap : Heap} {s t : ScopeId} {name : String} {v : Value}

namespace Scope

theorem run_get_bind {α : Type} (next : Heap → Action Heap α) (heap : Heap) :
    (get >>= next).run.run heap = (next heap).run.run heap := rfl

theorem run_lookup_of_some (h : heap.lookup? s name = some v) :
    (lookup s name).run.run heap = (.ok v, heap) := by
  rw [lookup, run_get_bind, h]
  rfl

theorem run_lookup_of_none (h : heap.lookup? s name = none) :
    (lookup s name).run.run heap = (.error (.error (.unbound name)), heap) := by
  rw [lookup, run_get_bind, h]
  rfl

theorem run_assign_of_some (h : heap.binder? s name = some t) :
    (assign s name v).run.run heap = (.ok (), heap.define t name v) := by
  rw [assign, run_get_bind, h]
  rfl

theorem run_assign_of_none (h : heap.binder? s name = none) :
    (assign s name v).run.run heap = (.error (.error (.unbound name)), heap) := by
  rw [assign, run_get_bind, h]
  rfl

theorem run_push (bindings : Std.ExtTreeMap String Value) (outer : Option ScopeId) (heap : Heap) :
    (push bindings outer).run.run heap = (.ok heap.size, (heap.push bindings outer).2) := rfl

end Scope

namespace Evaluator

theorem run_makeLambda (parameters : List String) (body : List Value) (s : ScopeId) (heap : Heap) :
    (makeLambda parameters body s).run.run heap =
      (.ok (.lambda parameters body s heap.nextIdentity), heap.freshIdentity.2) := rfl

theorem eq_of_callee {procedure : Value} {arguments items : List Value}
    (h : callee name arguments = .ok (procedure, items)) :
    arguments = [procedure, .list items] := by
  match arguments with
  | [first, second] =>
    simp only [callee, Arguments.two, Arguments.procedure, Arguments.list] at h
    cases isProcedure : first.isProcedure <;> cases second <;>
      simp_all [Value.asList?, Bind.bind, Except.bind, pure, Except.pure]
  | [] | [_] | _ :: _ :: _ :: _ => cases h

theorem callee_similar {corresponds : Value → Value → Prop} {arguments others : List Value}
    (name : String) (h : Value.AllAlike corresponds arguments others) :
    Similar (fun p q => Value.Alike corresponds p.1 q.1 ∧ Value.AllAlike corresponds p.2 q.2)
      (callee name arguments) (callee name others) := by
  refine (Arguments.two_similar name h).bind fun _ _ both => ?_
  refine (Arguments.procedure_similar name both.1).bind fun _ _ procedure => ?_
  refine (Arguments.list_similar name both.2).bind fun _ _ items => ?_
  exact ⟨procedure, items⟩

theorem callee_ne_unbound (arguments : List Value) (name symbol : String) :
    callee name arguments ≠ .error (.unbound symbol) := by
  have results := callee_similar name (Operation.procedureOf_self arguments)
  intro h
  rw [h] at results
  exact results.2 symbol rfl

theorem bindAll_rel {R : Value → Value → Prop} {map other : Std.ExtTreeMap String Value}
    {arguments others : List Value} (same : ∀ name : String, Option.Rel R map[name]? other[name]?)
    (h : List.Forall₂ R arguments others) (parameters : List String) (name : String) :
    Option.Rel R
      ((parameters.zip arguments).foldl (fun map pair => map.insert pair.1 pair.2) map)[name]?
      ((parameters.zip others).foldl (fun map pair => map.insert pair.1 pair.2) other)[name]? := by
  induction h generalizing parameters map other with
  | nil => simpa using same name
  | cons first _ ih =>
    cases parameters with
    | nil => simpa using same name
    | cons parameter parameters =>
      refine ih (fun name => ?_) parameters
      rw [Std.ExtTreeMap.getElem?_insert, Std.ExtTreeMap.getElem?_insert]
      split
      · exact .some first
      · exact same name

theorem bind_rel {R : Value → Value → Prop} {arguments others : List Value}
    (h : List.Forall₂ R arguments others) (parameters : List String) (name : String) :
    Option.Rel R (bind parameters arguments)[name]? (bind parameters others)[name]? :=
  bindAll_rel (fun _ => by simp) h parameters name

theorem mem_of_bind {parameters : List String} {arguments : List Value}
    (h : (bind parameters arguments)[name]? = some v) : v ∈ arguments := by
  have same : List.Forall₂ (fun v _ => v ∈ arguments) arguments arguments :=
    List.forall₂_same.mpr fun _ member => member
  have bound := bind_rel same parameters name
  rw [h] at bound
  cases bound
  assumption

theorem mem_bind {parameters : List String} {arguments : List Value}
    (length : parameters.length = arguments.length) (h : name ∈ parameters) :
    name ∈ bind parameters arguments := by
  have asList :
      bind parameters arguments = Std.ExtTreeMap.insertMany ∅ (parameters.zip arguments) :=
    Std.ExtTreeMap.insertMany_list_eq_foldl.symm
  rw [asList, Std.ExtTreeMap.mem_insertMany_list, List.map_fst_zip (Nat.le_of_eq length)]
  simpa using h

end Evaluator

end SemanticParsing
