import Mathlib.Data.List.Basic
import SemanticParsing.Scope
/-! How scopes change when one is made or binds a name, and what is seen from a scope. -/
namespace SemanticParsing.Heap

variable {heap after : Heap} {s t o : ScopeId} {name x : String} {v value : Value}
  {bindings : Std.ExtTreeMap String Value} {outer : Option ScopeId}

theorem bindings_of_le (h : heap.size ≤ s) : heap.bindings s = ∅ := by
  have none : heap.scopes[s]? = none := Array.getElem?_eq_none h
  simp [Heap.bindings, none]

theorem outer?_of_le (h : heap.size ≤ s) : heap.outer? s = none := by
  have none : heap.scopes[s]? = none := Array.getElem?_eq_none h
  simp [outer?, none]

theorem lt_of_bound (h : (heap.bindings s)[name]? = some v) : s < heap.size := by
  by_contra outside
  rw [bindings_of_le (Nat.le_of_not_lt outside)] at h
  simp at h

theorem scopes_eq_of (inside : s < heap.size) (inside' : s < after.size)
    (bindings : after.bindings s = heap.bindings s) (outer : after.outer? s = heap.outer? s) :
    after.scopes[s]? = heap.scopes[s]? := by
  have found : heap.scopes[s]? = some heap.scopes[s] := Array.getElem?_eq_getElem inside
  have found' : after.scopes[s]? = some after.scopes[s] := Array.getElem?_eq_getElem inside'
  simp only [Heap.bindings, outer?, found, found', Option.map_some, Option.getD_some,
    Option.bind_some] at bindings outer
  rw [found, found']
  exact congrArg₂ (fun bindings outer => some (Scope.mk bindings outer)) bindings outer

theorem size_define : (heap.define s name value).size = heap.size := by
  simp [define, size]

theorem outer?_define : (heap.define s name value).outer? t = heap.outer? t := by
  simp only [outer?, define, Array.getElem?_modify]
  split
  · cases heap.scopes[t]? <;> rfl
  · rfl

theorem bindings_define_self (inside : s < heap.size) :
    (heap.define s name value).bindings s = (heap.bindings s).insert name value := by
  have found : heap.scopes[s]? = some heap.scopes[s] := Array.getElem?_eq_getElem inside
  simp [Heap.bindings, define, Array.getElem?_modify, found]

theorem bindings_define_of_ne (h : t ≠ s) :
    (heap.define s name value).bindings t = heap.bindings t := by
  simp [Heap.bindings, define, Array.getElem?_modify, h.symm]

theorem bound_of_define (h : ((heap.define s name value).bindings t)[x]? = some v) :
    v = value ∨ (heap.bindings t)[x]? = some v := by
  by_cases same : t = s
  · subst same
    have inside := lt_of_bound h
    rw [size_define] at inside
    rw [bindings_define_self inside, Std.ExtTreeMap.getElem?_insert] at h
    split at h
    · exact .inl (Option.some.inj h).symm
    · exact .inr h
  · rw [bindings_define_of_ne same] at h
    exact .inr h

theorem mem_bindings_define (h : x ∈ heap.bindings t) :
    x ∈ (heap.define s name value).bindings t := by
  by_cases same : t = s
  · subst same
    by_cases inside : t < heap.size
    · rw [bindings_define_self inside]
      exact Std.ExtTreeMap.mem_insert.mpr (.inr h)
    · simp [bindings_of_le (Nat.le_of_not_lt inside)] at h
  · rwa [bindings_define_of_ne same]

theorem size_push : (heap.push bindings outer).2.size = heap.size + 1 := by
  simp [push, size]

theorem scopes_push_of_lt (inside : t < heap.size) :
    (heap.push bindings outer).2.scopes[t]? = heap.scopes[t]? := by
  rw [push, Array.getElem?_push_lt inside, Array.getElem?_eq_getElem inside]

theorem bindings_push_of_lt (inside : t < heap.size) :
    (heap.push bindings outer).2.bindings t = heap.bindings t := by
  rw [Heap.bindings, Heap.bindings, scopes_push_of_lt inside]

theorem outer?_push_of_lt (inside : t < heap.size) :
    (heap.push bindings outer).2.outer? t = heap.outer? t := by
  rw [outer?, outer?, scopes_push_of_lt inside]

theorem bindings_push_self :
    (heap.push bindings outer).2.bindings heap.size = bindings := by
  simp [push, Heap.bindings, size]

theorem outer?_push_self :
    (heap.push bindings outer).2.outer? heap.size = outer.filter (· < heap.size) := by
  simp [push, outer?, size]

theorem bound_of_push (h : ((heap.push bindings outer).2.bindings t)[x]? = some v) :
    bindings[x]? = some v ∨ (heap.bindings t)[x]? = some v := by
  have inside := lt_of_bound h
  rw [size_push] at inside
  obtain old | rfl := Nat.lt_succ_iff_lt_or_eq.mp inside
  · rw [bindings_push_of_lt old] at h
    exact .inr h
  · rw [bindings_push_self] at h
    exact .inl h

theorem outer?_freshIdentity : heap.freshIdentity.2.outer? t = heap.outer? t := rfl

theorem chain_of_none (h : heap.outer? s = none) : heap.chain s = [s] := by
  rw [chain]
  split <;> simp_all

theorem chain_of_some (h : heap.outer? s = some o) : heap.chain s = s :: heap.chain o := by
  rw [chain]
  split <;> simp_all

theorem binder?_eq (heap : Heap) (s : ScopeId) (name : String) :
    heap.binder? s name = if name ∈ heap.bindings s then some s
      else (heap.outer? s).bind fun o => heap.binder? o name := by
  cases h : heap.outer? s with
  | none => by_cases bound : name ∈ heap.bindings s <;> simp [binder?, chain_of_none h, bound]
  | some o => by_cases bound : name ∈ heap.bindings s <;> simp [binder?, chain_of_some h, bound]

theorem contains_iff : heap.contains s name ↔ ∃ t ∈ heap.chain s, name ∈ heap.bindings t := by
  simp [contains, binder?]

theorem contains_cases : heap.contains s name ↔
    name ∈ heap.bindings s ∨ ∃ o, heap.outer? s = some o ∧ heap.contains o name := by
  simp only [contains_iff]
  cases h : heap.outer? s with
  | none => simp [chain_of_none h]
  | some o => simp [chain_of_some h]

theorem lt_of_contains (h : heap.contains s name) : s < heap.size := by
  by_contra outside
  have large := Nat.le_of_not_lt outside
  rw [contains_cases, bindings_of_le large, outer?_of_le large] at h
  simp at h

theorem binds_of_binder? (h : heap.binder? s name = some t) :
    t ∈ heap.chain s ∧ name ∈ heap.bindings t := by
  refine ⟨List.mem_of_find?_eq_some h, ?_⟩
  simpa using List.find?_some h

theorem exists_bound_of_lookup? (h : heap.lookup? s name = some v) :
    ∃ t ∈ heap.chain s, (heap.bindings t)[name]? = some v := by
  obtain ⟨t, found, bound⟩ := Option.bind_eq_some_iff.mp h
  exact ⟨t, (binds_of_binder? found).1, bound⟩

theorem exists_lookup?_of_contains (h : heap.contains s name) :
    ∃ v, heap.lookup? s name = some v := by
  obtain ⟨t, found⟩ := Option.isSome_iff_exists.mp h
  have bound := (binds_of_binder? found).2
  refine ⟨(heap.bindings t)[name], ?_⟩
  rw [lookup?, found]
  exact Std.ExtTreeMap.getElem?_eq_some_getElem bound

theorem contains_of_keeps
    (outer : ∀ t < heap.size, after.outer? t = heap.outer? t)
    (names : ∀ t x, x ∈ heap.bindings t → x ∈ after.bindings t)
    (h : heap.contains s name) : after.contains s name := by
  induction s using Nat.strongRecOn with
  | ind s ih =>
    rw [contains_cases] at h ⊢
    refine h.imp (names s name) fun ⟨o, isOuter, seen⟩ => ⟨o, ?_, ih o (lt_of_outer? isOuter) seen⟩
    rw [outer s, isOuter]
    by_contra outside
    rw [outer?_of_le (Nat.le_of_not_lt outside)] at isOuter
    cases isOuter

theorem contains_define (h : heap.contains t x) : (heap.define s name value).contains t x :=
  contains_of_keeps (fun _ _ => outer?_define) (fun _ _ => mem_bindings_define) h

theorem contains_push (h : heap.contains t x) : (heap.push bindings outer).2.contains t x := by
  refine contains_of_keeps (fun _ => outer?_push_of_lt) (fun u y bound => ?_) h
  by_cases inside : u < heap.size
  · rwa [bindings_push_of_lt inside]
  · simp [bindings_of_le (Nat.le_of_not_lt inside)] at bound

theorem contains_freshIdentity (h : heap.contains t x) : heap.freshIdentity.2.contains t x :=
  contains_of_keeps (fun _ _ => outer?_freshIdentity) (fun _ _ bound => bound) h

theorem contains_push_self (h : x ∈ bindings ∨ heap.contains s x) :
    (heap.push bindings (some s)).2.contains heap.size x := by
  rw [contains_cases, bindings_push_self, outer?_push_self]
  refine h.imp id fun seen => ⟨s, ?_, contains_push seen⟩
  simpa using lt_of_contains seen

end SemanticParsing.Heap
