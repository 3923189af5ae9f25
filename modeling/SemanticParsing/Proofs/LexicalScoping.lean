import Mathlib.Logic.Relation
import SemanticParsing.Proofs.ScopeAction
/-! The laws of lexical scoping. Scopes never enclose themselves, so a walk outwards ends; what is
defined in a scope is seen from just the scopes that meet it before another binding, and what is
assigned is seen from just the scopes that resolve the name alike. -/
namespace SemanticParsing.Heap

variable {heap : Heap} {s t o u : ScopeId} {x y : String} {v : Value} {found : Option ScopeId}

theorem lt_of_encloses (h : Relation.TransGen (fun s o => heap.outer? s = some o) s o) : o < s := by
  induction h with
  | single outer => exact lt_of_outer? outer
  | tail _ outer ih => exact Nat.lt_trans (lt_of_outer? outer) ih

/-- The walk from a scope outwards in search of a name: to the first scope that binds it, or past
the outermost one. -/
inductive Walk (heap : Heap) (x : String) : ScopeId → Option ScopeId → Prop
  | here {s : ScopeId} : x ∈ heap.bindings s → Walk heap x s (some s)
  | outwards {s o : ScopeId} {found : Option ScopeId} : x ∉ heap.bindings s →
      heap.outer? s = some o → Walk heap x o found → Walk heap x s found
  | nowhere {s : ScopeId} : x ∉ heap.bindings s → heap.outer? s = none → Walk heap x s none

/-- The walk ends, since outer scopes are older, and it ends where the name is resolved. -/
theorem walk_binder? (heap : Heap) (s : ScopeId) (x : String) :
    heap.Walk x s (heap.binder? s x) := by
  induction s using Nat.strongRecOn with
  | ind s ih =>
    rw [binder?_eq]
    split
    case isTrue bound => exact .here bound
    case isFalse unbound =>
      cases outer : heap.outer? s with
      | none => exact .nowhere unbound outer
      | some o => exact .outwards unbound outer (ih o (lt_of_outer? outer))

theorem Walk.eq_binder? (h : heap.Walk x s found) : found = heap.binder? s x := by
  induction h with
  | here bound => rw [binder?_eq, if_pos bound]
  | outwards unbound outer _ ih => rw [binder?_eq, if_neg unbound, outer, Option.bind_some, ih]
  | nowhere unbound outer => rw [binder?_eq, if_neg unbound, outer, Option.bind_none]

theorem walk_iff : heap.Walk x s found ↔ found = heap.binder? s x :=
  ⟨Walk.eq_binder?, fun same => same ▸ walk_binder? heap s x⟩

theorem lookup?_eq (heap : Heap) (s : ScopeId) (x : String) : heap.lookup? s x =
    (heap.bindings s)[x]?.or ((heap.outer? s).bind fun o => heap.lookup? o x) := by
  by_cases bound : x ∈ heap.bindings s
  · have here := Std.ExtTreeMap.getElem?_eq_some_getElem bound
    rw [lookup?, binder?_eq, if_pos bound, Option.bind_some, here, Option.some_or]
  · rw [lookup?, binder?_eq, if_neg bound, Std.ExtTreeMap.getElem?_eq_none bound, Option.none_or,
      Option.bind_assoc]
    rfl

theorem contains_eq_isSome (heap : Heap) (s : ScopeId) (x : String) :
    heap.contains s x = (heap.lookup? s x).isSome := by
  rw [Bool.eq_iff_iff, Option.isSome_iff_exists]
  constructor
  · exact exists_lookup?_of_contains
  · rintro ⟨v, found⟩
    obtain ⟨t, binder, -⟩ := Option.bind_eq_some_iff.mp found
    exact Option.isSome_iff_exists.mpr ⟨t, binder⟩

/-- The walk outwards from `t` comes to `s` before any other scope that binds the name. -/
def Sees (heap : Heap) (t s : ScopeId) (x : String) : Prop :=
  ∃ nearer farther, heap.chain t = nearer ++ s :: farther ∧ ∀ u ∈ nearer, x ∉ heap.bindings u

theorem sees_self (heap : Heap) (s : ScopeId) (x : String) : heap.Sees s s x := by
  cases outer : heap.outer? s with
  | none => exact ⟨[], [], chain_of_none outer, by simp⟩
  | some o => exact ⟨[], heap.chain o, chain_of_some outer, by simp⟩

theorem sees_outwards (unbound : x ∉ heap.bindings t) (outer : heap.outer? t = some o)
    (h : heap.Sees o s x) : heap.Sees t s x := by
  obtain ⟨nearer, farther, chain, none⟩ := h
  refine ⟨t :: nearer, farther, ?_, List.forall_mem_cons.mpr ⟨unbound, none⟩⟩
  rw [chain_of_some outer, chain, List.cons_append]

theorem sees_cases (h : heap.Sees t s x) :
    t = s ∨ x ∉ heap.bindings t ∧ ∃ o, heap.outer? t = some o ∧ heap.Sees o s x := by
  obtain ⟨nearer, farther, chain, none⟩ := h
  cases outer : heap.outer? t with
  | none =>
    rw [chain_of_none outer] at chain
    cases nearer with
    | nil => exact .inl (List.cons.inj chain).1
    | cons => simp at chain
  | some o =>
    rw [chain_of_some outer] at chain
    cases nearer with
    | nil => exact .inl (List.cons.inj chain).1
    | cons u nearer =>
      obtain ⟨rfl, inner⟩ := List.cons.inj chain
      rw [List.forall_mem_cons] at none
      exact .inr ⟨none.1, o, rfl, nearer, farther, inner, none.2⟩

theorem sees_iff_of_bound (bound : x ∈ heap.bindings s) :
    heap.Sees t s x ↔ heap.binder? t x = some s := by
  have unbound (u : ScopeId) : (!(heap.bindings u).contains x) = true ↔ x ∉ heap.bindings u := by
    rw [Bool.not_eq_true', ← Std.ExtTreeMap.contains_iff_mem, Bool.not_eq_true]
  rw [binder?, List.find?_eq_some_iff_append, Sees]
  simp [bound, unbound]

theorem lookup?_define_of_sees (inside : s < heap.size) (h : heap.Sees t s x) :
    (heap.define s x v).lookup? t x = some v := by
  induction t using Nat.strongRecOn with
  | ind t ih =>
    by_cases same : t = s
    · subst same
      rw [lookup?_eq, bindings_define_self inside, Std.ExtTreeMap.getElem?_insert_self,
        Option.some_or]
    · obtain rfl | ⟨unbound, o, outer, seen⟩ := sees_cases h
      · contradiction
      · rw [lookup?_eq, bindings_define_of_ne same, Std.ExtTreeMap.getElem?_eq_none unbound,
          Option.none_or, outer?_define, outer, Option.bind_some, ih o (lt_of_outer? outer) seen]

theorem lookup?_define_of_not_sees (inside : s < heap.size) (h : ¬ (y = x ∧ heap.Sees t s x)) :
    (heap.define s x v).lookup? t y = heap.lookup? t y := by
  induction t using Nat.strongRecOn with
  | ind t ih =>
    have own : ((heap.define s x v).bindings t)[y]? = (heap.bindings t)[y]? := by
      by_cases same : t = s
      · subst same
        have different : x ≠ y := fun same => h ⟨same.symm, sees_self heap t x⟩
        rw [bindings_define_self inside, Std.ExtTreeMap.getElem?_insert, if_neg (by simpa)]
      · rw [bindings_define_of_ne same]
    rw [lookup?_eq, own, outer?_define, lookup?_eq heap]
    by_cases bound : y ∈ heap.bindings t
    · rw [Std.ExtTreeMap.getElem?_eq_some_getElem bound, Option.some_or, Option.some_or]
    · cases outer : heap.outer? t with
      | none => rfl
      | some o =>
        rw [Option.bind_some, Option.bind_some, ih o (lt_of_outer? outer)]
        rintro ⟨rfl, seen⟩
        exact h ⟨rfl, sees_outwards bound outer seen⟩

/-- The laws of lexical scoping for looking up, asking for, defining and assigning a name. -/
structure LexicalScoping (heap : Heap) : Prop where
  acyclic (s : ScopeId) : ¬ Relation.TransGen (fun s o => heap.outer? s = some o) s s
  walk (s : ScopeId) (x : String) (found : Option ScopeId) :
    heap.Walk x s found ↔ found = heap.binder? s x
  lookup (s : ScopeId) (x : String) : (Scope.lookup s x).run.run heap =
    ((heap.lookup? s x).elim (.error (.error (.unbound x))) .ok, heap)
  contains_lookup (s : ScopeId) (x : String) : heap.contains s x ↔
    ∃ w, (Scope.lookup s x).run.run heap = (.ok w, heap)
  contains_assign (s : ScopeId) (x : String) (v : Value) : heap.contains s x ↔
    ∃ after, (Scope.assign s x v).run.run heap = (.ok (), after)
  define (s t : ScopeId) (x y : String) (v : Value) : s < heap.size →
    ∃ after, (Scope.define s x v).run.run heap = (.ok (), after) ∧
      (y = x ∧ heap.Sees t s x → after.lookup? t y = some v) ∧
      (¬ (y = x ∧ heap.Sees t s x) → after.lookup? t y = heap.lookup? t y)
  assign (s t : ScopeId) (x y : String) (v : Value) (after : Heap) :
    (Scope.assign s x v).run.run heap = (.ok (), after) →
      (y = x ∧ heap.binder? t x = heap.binder? s x → after.lookup? t y = some v) ∧
      (¬ (y = x ∧ heap.binder? t x = heap.binder? s x) →
        after.lookup? t y = heap.lookup? t y) ∧
      after.contains t y = heap.contains t y
  assign_fails (s : ScopeId) (x : String) (v : Value) (stop : Stop) (after : Heap) :
    (Scope.assign s x v).run.run heap = (.error stop, after) →
      stop = .error (.unbound x) ∧ after = heap

theorem run_lookup (heap : Heap) (s : ScopeId) (x : String) : (Scope.lookup s x).run.run heap =
    ((heap.lookup? s x).elim (.error (.error (.unbound x))) .ok, heap) := by
  cases found : heap.lookup? s x with
  | none => exact Scope.run_lookup_of_none found
  | some v => exact Scope.run_lookup_of_some found

theorem run_assign (heap : Heap) (s : ScopeId) (x : String) (v : Value) :
    (Scope.assign s x v).run.run heap = (heap.binder? s x).elim
      (.error (.error (.unbound x)), heap) fun u => (.ok (), heap.define u x v) := by
  cases found : heap.binder? s x with
  | none => exact Scope.run_assign_of_none found
  | some u => exact Scope.run_assign_of_some found

theorem lookup?_assign (found : heap.binder? s x = some u) :
    (y = x ∧ heap.binder? t x = some u → (heap.define u x v).lookup? t y = some v) ∧
      (¬ (y = x ∧ heap.binder? t x = some u) →
        (heap.define u x v).lookup? t y = heap.lookup? t y) := by
  have bound := (binds_of_binder? found).2
  have inside := lt_of_bound (Std.ExtTreeMap.getElem?_eq_some_getElem bound)
  rw [← sees_iff_of_bound bound]
  constructor
  · rintro ⟨rfl, seen⟩
    exact lookup?_define_of_sees inside seen
  · exact lookup?_define_of_not_sees inside

theorem contains_assign_eq (found : heap.binder? s x = some u) :
    (heap.define u x v).contains t y = heap.contains t y := by
  obtain ⟨seen, unseen⟩ := lookup?_assign (t := t) (y := y) (v := v) found
  rw [contains_eq_isSome]
  by_cases alike : y = x ∧ heap.binder? t x = some u
  · rw [seen alike, alike.1, contains, alike.2]
    rfl
  · rw [unseen alike, contains_eq_isSome]

theorem lexicalScoping (heap : Heap) : heap.LexicalScoping where
  acyclic s cycle := Nat.lt_irrefl s (lt_of_encloses cycle)
  walk s x found := walk_iff
  lookup := run_lookup heap
  contains_lookup s x := by
    rw [contains_eq_isSome, run_lookup]
    cases heap.lookup? s x with
    | none =>
      refine ⟨fun known => (Bool.false_ne_true known).elim, ?_⟩
      rintro ⟨_, ran⟩
      cases ran
    | some w => exact ⟨fun _ => ⟨w, rfl⟩, fun _ => rfl⟩
  contains_assign s x v := by
    rw [contains, run_assign]
    cases heap.binder? s x with
    | none =>
      refine ⟨fun known => (Bool.false_ne_true known).elim, ?_⟩
      rintro ⟨_, ran⟩
      cases ran
    | some u => exact ⟨fun _ => ⟨_, rfl⟩, fun _ => rfl⟩
  define s t x y v inside := by
    refine ⟨heap.define s x v, rfl, ?_, lookup?_define_of_not_sees inside⟩
    rintro ⟨rfl, seen⟩
    exact lookup?_define_of_sees inside seen
  assign s t x y v after ran := by
    rw [run_assign] at ran
    cases found : heap.binder? s x with
    | none =>
      rw [found] at ran
      cases ran
    | some u =>
      rw [found] at ran
      cases ran
      obtain ⟨seen, unseen⟩ := lookup?_assign (t := t) (y := y) (v := v) found
      exact ⟨seen, unseen, contains_assign_eq found⟩
  assign_fails s x v stop after ran := by
    rw [run_assign] at ran
    cases found : heap.binder? s x with
    | none =>
      rw [found] at ran
      cases ran
      exact ⟨rfl, rfl⟩
    | some u =>
      rw [found] at ran
      cases ran

end SemanticParsing.Heap
