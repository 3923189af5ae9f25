import SemanticParsing.Proofs.Mirror
import SemanticParsing.Proofs.StandardScope
/-! The scopes that are reached from a scope, and scopes that reach none in common. -/
namespace SemanticParsing

/-- A procedure somewhere in the value was made in the scope. -/
def Value.Captures (v : Value) (c : ScopeId) : Prop :=
  ∃ parameters body i, (Value.lambda parameters body c i).Occurs v

namespace Heap

/-- From a scope one reaches itself, the scopes around it, and the scopes captured by what is bound
there. -/
inductive Reaches (heap : Heap) (s : ScopeId) : ScopeId → Prop
  | self : Reaches heap s s
  | outer {u o : ScopeId} : Reaches heap s u → heap.outer? u = some o → Reaches heap s o
  | captured {u c : ScopeId} {name : String} {v : Value} : Reaches heap s u →
      (heap.bindings u)[name]? = some v → v.Captures c → Reaches heap s c

def Apart (heap : Heap) (s t : ScopeId) : Prop :=
  ∀ u, heap.Reaches s u → ¬ heap.Reaches t u

/-- Every procedure bound in the heap was made in one of its scopes, with an identity that is given
out. -/
def Sound (heap : Heap) : Prop :=
  ∀ (u : ScopeId) (name : String) (v : Value), (heap.bindings u)[name]? = some v →
    ∀ parameters body c i, (Value.lambda parameters body c i).Occurs v →
      c < heap.size ∧ i < heap.nextIdentity

variable {heap after : Heap} {s t u : ScopeId}

theorem Sound.lt_of_reaches (h : heap.Sound) (inside : s < heap.size) (reached : heap.Reaches s u) :
    u < heap.size := by
  induction reached with
  | self => exact inside
  | outer _ isOuter ih => exact Nat.lt_trans (lt_of_outer? isOuter) ih
  | captured _ bound captures =>
    obtain ⟨parameters, body, i, occurs⟩ := captures
    exact (h _ _ _ bound parameters body _ i occurs).1

theorem reaches_iff
    (kept : ∀ u, heap.Reaches t u →
      after.bindings u = heap.bindings u ∧ after.outer? u = heap.outer? u) :
    after.Reaches t u ↔ heap.Reaches t u := by
  constructor
  · intro reached
    induction reached with
    | self => exact .self
    | outer _ isOuter before => exact before.outer ((kept _ before).2 ▸ isOuter)
    | captured _ bound captures before =>
      exact before.captured ((kept _ before).1 ▸ bound) captures
  · intro reached
    induction reached with
    | self => exact .self
    | outer before isOuter reached => exact reached.outer ((kept _ before).2.symm ▸ isOuter)
    | captured before bound captures reached =>
      exact reached.captured ((kept _ before).1.symm ▸ bound) captures

end Heap

namespace Pairing

variable {p : Pairing} {left right : Heap} {a b c u : ScopeId} {v w : Value}

theorem paired_of_captures (alike : p.Values v w) (captures : v.Captures c) :
    ∃ d, p.scopes c d := by
  obtain ⟨parameters, body, i, occurs⟩ := captures
  obtain ⟨l, -, procedures⟩ := alike.occurs (.lambda ..) occurs
  cases l <;> try exact procedures.elim
  exact ⟨_, procedures.1⟩

theorem Fits.paired_of_reaches (h : p.Fits left right) (paired : p.scopes a b)
    (reached : left.Reaches a u) : ∃ d, p.scopes u d := by
  induction reached with
  | self => exact ⟨b, paired⟩
  | @outer u o _ isOuter ih =>
    obtain ⟨d, paired'⟩ := ih
    have outer := h.outer u d paired'
    rw [isOuter] at outer
    generalize right.outer? d = found at outer
    cases outer with
    | some paired => exact ⟨_, paired⟩
  | @captured u c name v _ bound captures ih =>
    obtain ⟨d, paired'⟩ := ih
    have alike := h.bound u d paired' name
    rw [bound] at alike
    generalize (right.bindings d)[name]? = found at alike
    cases alike with
    | some alike => exact paired_of_captures alike captures

end Pairing

def Heap.reflection (heap : Heap) (s : ScopeId) (sound : heap.Sound) (inside : s < heap.size) :
    Mirror where
  scopes a b := a = b ∧ heap.Reaches s a
  identities i j := i = j ∧ i < heap.nextIdentity
  left := heap
  right := heap
  fits :=
    { scopes_lt := by
        rintro a _ ⟨rfl, reached⟩
        exact ⟨sound.lt_of_reaches inside reached, sound.lt_of_reaches inside reached⟩
      identities_lt := by
        rintro i _ ⟨rfl, given⟩
        exact ⟨given, given⟩
      scopes_unique :=
        ⟨fun _ _ _ h h' => h.1.trans h'.1.symm, fun _ _ _ h h' => h.1.symm.trans h'.1⟩
      identities_unique :=
        ⟨fun _ _ _ h h' => h.1.trans h'.1.symm, fun _ _ _ h h' => h.1.symm.trans h'.1⟩
      outer := by
        rintro a _ ⟨rfl, reached⟩
        cases outer : heap.outer? a with
        | none => exact .none
        | some o => exact .some ⟨rfl, reached.outer outer⟩
      bound := by
        rintro a _ ⟨rfl, reached⟩ name
        cases bound : (heap.bindings a)[name]? with
        | none => exact .none
        | some v =>
          refine .some (Value.alike_self fun l isLambda occurs => ?_)
          cases isLambda with
          | lambda parameters body c i =>
            have captures : v.Captures c := ⟨parameters, body, i, occurs⟩
            have given := (sound a name v bound parameters body c i occurs).2
            exact ⟨⟨rfl, reached.captured bound captures⟩, rfl, given⟩ }

namespace Heap

variable {heap : Heap} {s : ScopeId}

theorem sound_empty : Heap.empty.Sound := by
  intro u name v bound
  simp [Heap.bindings, Heap.empty] at bound

theorem captures_standard {name : String} {v : Value} {c : ScopeId}
    (bound : Scope.standardBindings[name]? = some v) : ¬ v.Captures c := by
  rintro ⟨parameters, body, i, occurs⟩
  cases Scope.isAtom_of_standardBindings bound <;> cases occurs

theorem Sound.pushStandard (h : heap.Sound) : heap.pushStandard.2.Sound := by
  intro u name v bound parameters body c i occurs
  obtain standard | old := bound_of_push bound
  · exact absurd ⟨parameters, body, i, occurs⟩ (captures_standard standard)
  · have before := h u name v old parameters body c i occurs
    exact ⟨Nat.lt_of_lt_of_eq (Nat.lt_succ_of_lt before.1) size_push.symm, before.2⟩

theorem eq_of_reaches_pushStandard {u : ScopeId}
    (reached : heap.pushStandard.2.Reaches heap.pushStandard.1 u) : u = heap.pushStandard.1 := by
  induction reached with
  | self => rfl
  | outer _ isOuter ih =>
    rw [ih, outer?_pushStandard] at isOuter
    cases isOuter
  | captured _ bound captures ih =>
    rw [ih, bindings_pushStandard] at bound
    exact absurd captures (captures_standard bound)

theorem apart_pushStandard (sound : heap.Sound) (inside : s < heap.size) :
    heap.pushStandard.2.Apart s heap.pushStandard.1 := by
  intro u fromOld fromNew
  have kept (u : ScopeId) (reached : heap.Reaches s u) :
      heap.pushStandard.2.bindings u = heap.bindings u ∧
        heap.pushStandard.2.outer? u = heap.outer? u :=
    have old := sound.lt_of_reaches inside reached
    ⟨bindings_push_of_lt old, outer?_push_of_lt old⟩
  have old := sound.lt_of_reaches inside ((reaches_iff kept).mp fromOld)
  rw [eq_of_reaches_pushStandard fromNew] at old
  exact Nat.lt_irrefl heap.size old

end Heap

end SemanticParsing
