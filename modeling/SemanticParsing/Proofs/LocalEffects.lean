import SemanticParsing.Proofs.EvaluatorDiscipline
/-! Where nothing is assigned, an evaluation changes no scope that was there before but its own, and
that by its own definitions alone: procedures define names in the scopes of their calls. -/
namespace SemanticParsing

open Value

/-- Of the scopes below the bound, only `s` has changed, and that by definitions of the names. -/
structure Heap.ChangesOnly (bound : Nat) (s : ScopeId) (names : List String) (before after : Heap) :
    Prop where
  size_le : before.size ≤ after.size
  nextIdentity_le : before.nextIdentity ≤ after.nextIdentity
  outer : ∀ t < bound, after.outer? t = before.outer? t
  bindings : ∀ t < bound, ∃ entries : List (String × Value),
    (∀ entry ∈ entries, t = s ∧ entry.1 ∈ names) ∧
      after.bindings t = (before.bindings t).insertMany entries

variable {bound : Nat} {s t u : ScopeId} {names : List String} {heap before after : Heap}
  {name : String} {v e : Value} {items arguments : List Value}

namespace Heap

theorem changesOnly_of_kept (size : before.size ≤ after.size)
    (identities : before.nextIdentity ≤ after.nextIdentity)
    (outer : ∀ t < bound, after.outer? t = before.outer? t)
    (kept : ∀ t < bound, after.bindings t = before.bindings t) :
    before.ChangesOnly bound s names after where
  size_le := size
  nextIdentity_le := identities
  outer := outer
  bindings t below := ⟨[], by simp, (kept t below).trans Std.ExtTreeMap.insertMany_nil.symm⟩

theorem ChangesOnly.refl (heap : Heap) : heap.ChangesOnly bound s names heap :=
  changesOnly_of_kept (Nat.le_refl _) (Nat.le_refl _) (fun _ _ => rfl) fun _ _ => rfl

theorem ChangesOnly.trans {middle : Heap} (first : before.ChangesOnly bound s names middle)
    (second : middle.ChangesOnly bound s names after) : before.ChangesOnly bound s names after where
  size_le := Nat.le_trans first.size_le second.size_le
  nextIdentity_le := Nat.le_trans first.nextIdentity_le second.nextIdentity_le
  outer t below := (second.outer t below).trans (first.outer t below)
  bindings t below := by
    obtain ⟨entries, own, made⟩ := first.bindings t below
    obtain ⟨more, own', made'⟩ := second.bindings t below
    refine ⟨entries ++ more, fun entry member => ?_, ?_⟩
    · exact (List.mem_append.mp member).elim (own entry) (own' entry)
    · rw [made', made, Std.ExtTreeMap.insertMany_append]

theorem ChangesOnly.bindings_eq (h : before.ChangesOnly bound s names after) (below : t < bound)
    (outside : t ≠ s ∨ names = []) : after.bindings t = before.bindings t := by
  obtain ⟨entries, own, made⟩ := h.bindings t below
  have none : entries = [] := by
    refine List.eq_nil_iff_forall_not_mem.mpr fun entry member => ?_
    obtain ⟨same, named⟩ := own entry member
    obtain other | rfl := outside
    · exact other same
    · cases named
  rw [made, none, Std.ExtTreeMap.insertMany_nil]

theorem ChangesOnly.scopes_eq (h : before.ChangesOnly before.size s names after)
    (below : t < before.size) (outside : t ≠ s ∨ names = []) :
    after.scopes[t]? = before.scopes[t]? :=
  scopes_eq_of below (Nat.lt_of_lt_of_le below h.size_le) (h.bindings_eq below outside)
    (h.outer t below)

/-- No procedure bound in the heap assigns, the scopes below the bound are there, and of these only
`s` changes, by definitions of the names. -/
def localEffects (bound : Nat) (s : ScopeId) (names : List String) : Discipline Heap where
  Inv heap := heap.Unassigning ∧ bound ≤ heap.size
  Step := ChangesOnly bound s names
  Stops _ := True
  refl := ChangesOnly.refl
  trans := ChangesOnly.trans

theorem Unassigning.define (h : heap.Unassigning) (unassigning : v.Unassigning) :
    (heap.define u name v).Unassigning := by
  intro t x w bound
  obtain rfl | old := bound_of_define bound
  · exact unassigning
  · exact h t x w old

theorem Unassigning.push {bindings : Std.ExtTreeMap String Value} {outer : Option ScopeId}
    (h : heap.Unassigning)
    (unassigning : ∀ (name : String) (v : Value), bindings[name]? = some v → v.Unassigning) :
    (heap.push bindings outer).2.Unassigning := by
  intro t x w bound
  obtain new | old := bound_of_push bound
  · exact unassigning x w new
  · exact h t x w old

theorem Unassigning.of_lookup? (h : heap.Unassigning) (found : heap.lookup? u name = some v) :
    v.Unassigning := by
  obtain ⟨t, -, bound⟩ := exists_bound_of_lookup? found
  exact h t name v bound

theorem changesOnly_define (inside : bound ≤ heap.size)
    (allowed : bound ≤ u ∨ u = s ∧ name ∈ names) :
    heap.ChangesOnly bound s names (heap.define u name v) where
  size_le := Nat.le_of_eq size_define.symm
  nextIdentity_le := Nat.le_refl _
  outer _ _ := outer?_define
  bindings t below := by
    by_cases same : t = u
    · subst same
      obtain above | own := allowed
      · exact absurd below (Nat.not_lt.mpr above)
      · refine ⟨[(name, v)], by simpa using own, ?_⟩
        rw [bindings_define_self (Nat.lt_of_lt_of_le below inside),
          Std.ExtTreeMap.insertMany_list_singleton]
    · rw [bindings_define_of_ne same]
      exact ⟨[], by simp, Std.ExtTreeMap.insertMany_nil.symm⟩

theorem changesOnly_push {bindings : Std.ExtTreeMap String Value} {outer : Option ScopeId}
    (inside : bound ≤ heap.size) :
    heap.ChangesOnly bound s names (heap.push bindings outer).2 := by
  have old (t : ScopeId) (below : t < bound) : t < heap.size := Nat.lt_of_lt_of_le below inside
  refine changesOnly_of_kept ?_ (Nat.le_refl _) (fun t below => outer?_push_of_lt (old t below))
    fun t below => bindings_push_of_lt (old t below)
  rw [size_push]
  exact Nat.le_succ _

theorem changesOnly_freshIdentity : heap.ChangesOnly bound s names heap.freshIdentity.2 :=
  changesOnly_of_kept (Nat.le_refl _) (Nat.le_succ _) (fun _ _ => rfl) fun _ _ => rfl

end Heap

/-- The expression assigns nothing, neither do procedures in it, and it may be evaluated in the
scope: that is above the bound, or it is `s` and only the names are defined. -/
structure Value.Admitted (bound : Nat) (s : ScopeId) (names : List String) (u : ScopeId)
    (e : Value) : Prop where
  assigned : e.assignedNames = []
  unassigning : e.Unassigning
  place : bound ≤ u ∨ u = s ∧ ∀ name ∈ e.definedNames, name ∈ names

theorem Value.Admitted.item (h : (list items).Admitted bound s names u)
    (evaluated : items.head? ≠ some (symbol "quote") ∧ items.head? ≠ some (symbol "lambda"))
    (member : e ∈ items) : e.Admitted bound s names u where
  assigned := List.eq_nil_iff_forall_not_mem.mpr fun name isTarget =>
    List.eq_nil_iff_forall_not_mem.mp h.assigned name (targets_item evaluated member isTarget)
  unassigning := eachLambda_list.mp h.unassigning e member
  place := h.place.imp_right fun ⟨own, defined⟩ =>
    ⟨own, fun name isTarget => defined name (targets_item evaluated member isTarget)⟩

theorem Value.Admitted.part {form : Form} (spells : Form.Spells items form)
    (member : e ∈ form.parts) (h : (list items).Admitted bound s names u) :
    e.Admitted bound s names u := by
  cases spells with
  | conditional test consequence alternative =>
    exact h.item (by simp) (List.mem_cons_of_mem _ member)
  | define name part | assign name part =>
    obtain rfl := List.mem_singleton.mp member
    exact h.item (by simp) (by simp)
  | application ordinary operands =>
    refine h.item ?_ member
    simpa [Keyword.name] using And.intro (ordinary .quote) (ordinary .lambda)
  | _ => cases member

namespace Evaluator

theorem lookup_local (inv : (Heap.localEffects bound s names).Inv heap) :
    (Scope.lookup u name).Keeps (Heap.localEffects bound s names) heap
      fun _ v => v.Unassigning := by
  cases found : heap.lookup? u name with
  | some v =>
    exact Action.keeps_of_run (Scope.run_lookup_of_some found) inv (.refl heap)
      (inv.1.of_lookup? found)
  | none => exact Action.keeps_of_stop (Scope.run_lookup_of_none found) inv trivial

theorem define_local (inv : (Heap.localEffects bound s names).Inv heap)
    (unassigning : v.Unassigning) (allowed : bound ≤ u ∨ u = s ∧ name ∈ names) :
    (Scope.define u name v).Keeps (Heap.localEffects bound s names) heap fun _ _ => True := by
  have size : bound ≤ (heap.define u name v).size := by
    rw [Heap.size_define]
    exact inv.2
  exact Action.keeps_of_run rfl ⟨inv.1.define unassigning, size⟩
    (Heap.changesOnly_define inv.2 allowed) trivial

theorem push_local {parameters : List String} (inv : (Heap.localEffects bound s names).Inv heap)
    (unassigning : ∀ v ∈ arguments, v.Unassigning) :
    (Scope.push (bind parameters arguments) (some u)).Keeps (Heap.localEffects bound s names) heap
      fun _ inner => bound ≤ inner := by
  refine Action.keeps_of_run (Scope.run_push (bind parameters arguments) (some u) heap) ?_
    (Heap.changesOnly_push inv.2) inv.2
  refine ⟨inv.1.push fun name v bound => unassigning v (mem_of_bind bound), ?_⟩
  rw [Heap.size_push]
  exact Nat.le_succ_of_le inv.2

theorem localEffects_upheld (bound : Nat) (s : ScopeId) (names : List String) :
    Upholds (Heap.localEffects bound s names) (fun _ _ body _ _ => targetsOf .assign true body = [])
      fun _ u e => e.Admitted bound s names u where
  stops _ _ := trivial
  procedure_later _ own := own
  fits_later _ admitted := admitted
  procedures admitted := admitted.unassigning
  part := Admitted.part
  lookup inv _ := lookup_local inv
  define inv admitted good := by
    refine define_local inv good (admitted.place.imp_right fun ⟨own, defined⟩ => ⟨own, ?_⟩)
    exact defined _ (by simp [definedNames, targets_define])
  assign _ admitted _ := by
    have assigned := admitted.assigned
    rw [assignedNames, targets_assign] at assigned
    cases assigned
  lambda {heap u written parameters body} inv _ admitted := by
    have own := admitted.assigned
    rw [assignedNames, targets_lambda, if_pos rfl] at own
    have inside := eachLambda_list.mp admitted.unassigning
    refine Action.keeps_of_run (run_makeLambda parameters body u heap) inv
      Heap.changesOnly_freshIdentity (eachLambda_lambda.mpr ⟨own, fun e member => ?_⟩)
    exact inside e (List.mem_cons_of_mem _ (List.mem_cons_of_mem _ member))
  enter inv _ procedure good := by
    obtain ⟨own, inside⟩ := eachLambda_lambda.mp procedure
    exact (push_local inv good).imp fun _ inner _ above e member =>
      ⟨targetsOf_eq_nil.mp own e member, inside e member, .inl above⟩

end Evaluator

end SemanticParsing
