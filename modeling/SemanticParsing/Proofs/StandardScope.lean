import Mathlib.Data.List.Nodup
import SemanticParsing.Proofs.Alike
import SemanticParsing.Proofs.ScopeChain
/-! What a standard scope binds: every built-in procedure under its own name. -/
namespace SemanticParsing

theorem Primitive.mem_all (p : Primitive) : p ∈ Primitive.all := by
  cases p with
  | operation op =>
    cases op with
    | compare c => cases c <;> decide
    | real f => cases f <;> decide
    | _ => decide
  | apply => decide
  | map => decide

namespace Scope

theorem standardEntries_distinct : (standardEntries.map Prod.fst).Nodup := by
  decide

theorem standardBindings_eq : standardBindings = Std.ExtTreeMap.insertMany ∅ standardEntries :=
  Std.ExtTreeMap.insertMany_list_eq_foldl.symm

theorem standardBindings_primitive (p : Primitive) :
    standardBindings[p.name]? = some (.primitive p) := by
  have member : (p.name, Value.primitive p) ∈ standardEntries :=
    List.mem_append_right _ (List.mem_map_of_mem p.mem_all)
  rw [standardBindings_eq]
  refine Std.ExtTreeMap.getElem?_insertMany_list_of_mem Std.ReflCmp.compare_self ?_ member
  have distinct := List.pairwise_map.mp standardEntries_distinct
  exact distinct.imp fun different same => different (Std.LawfulEqCmp.eq_of_compare same)

theorem bound_of_insertMany {map : Std.ExtTreeMap String Value} {entries : List (String × Value)}
    {name : String} {v : Value} (h : (map.insertMany entries)[name]? = some v) :
    (name, v) ∈ entries ∨ map[name]? = some v := by
  induction entries generalizing map with
  | nil => simpa using h
  | cons entry entries ih =>
    rw [Std.ExtTreeMap.insertMany_cons] at h
    obtain later | first := ih h
    · exact .inl (List.mem_cons_of_mem _ later)
    · rw [Std.ExtTreeMap.getElem?_insert] at first
      split at first
      case isTrue same =>
        obtain rfl := Option.some.inj first
        obtain rfl := Std.LawfulEqCmp.eq_of_compare same
        exact .inl List.mem_cons_self
      case isFalse => exact .inr first

theorem isAtom_of_standardBindings {name : String} {v : Value}
    (h : standardBindings[name]? = some v) : v.IsAtom := by
  rw [standardBindings_eq] at h
  obtain member | none := bound_of_insertMany h
  · obtain constant | primitive := List.mem_append.mp member
    · obtain ⟨_, -, same⟩ := List.mem_map.mp constant
      cases same
      exact .float _
    · obtain ⟨p, -, same⟩ := List.mem_map.mp primitive
      cases same
      exact .primitive p
  · simp at none

end Scope

namespace Heap

theorem lookup?_of_root {heap : Heap} {s : ScopeId} (root : heap.outer? s = none)
    (name : String) : heap.lookup? s name = (heap.bindings s)[name]? := by
  rw [lookup?, binder?, chain_of_none root]
  by_cases bound : name ∈ heap.bindings s <;> simp_all

theorem bindings_pushStandard (heap : Heap) :
    heap.pushStandard.2.bindings heap.pushStandard.1 = Scope.standardBindings :=
  bindings_push_self

theorem outer?_pushStandard (heap : Heap) :
    heap.pushStandard.2.outer? heap.pushStandard.1 = none :=
  outer?_push_self

theorem lookup?_pushStandard (heap : Heap) (p : Primitive) :
    heap.pushStandard.2.lookup? heap.pushStandard.1 p.name = some (.primitive p) := by
  rw [lookup?_of_root heap.outer?_pushStandard, bindings_pushStandard,
    Scope.standardBindings_primitive]

theorem contains_pushStandard (heap : Heap) (p : Primitive) :
    heap.pushStandard.2.contains heap.pushStandard.1 p.name := by
  rw [contains_cases, bindings_pushStandard]
  have bound : p.name ∈ Scope.standardBindings := by
    simp [Std.ExtTreeMap.mem_iff_isSome_getElem?, Scope.standardBindings_primitive]
  exact .inl bound

end Heap

end SemanticParsing
