import Mathlib.Logic.Relator
import SemanticParsing.Proofs.ScopeAction
/-! Two heaps of which one looks like the other, as far as one can see from the scopes that are
paired. The numbers of scopes and procedures may differ. -/
namespace SemanticParsing

open Relator (BiUnique)

theorem biUnique_insert {R : Nat → Nat → Prop} {m n : Nat} (h : BiUnique R)
    (below : ∀ a b, R a b → a < m ∧ b < n) : BiUnique fun a b => R a b ∨ a = m ∧ b = n := by
  constructor
  · rintro a a' b (old | ⟨rfl, rfl⟩) (old' | ⟨rfl, same⟩)
    · exact h.1 old old'
    · exact absurd (below a b old).2 (by omega)
    · exact absurd (below a' b old').2 (by omega)
    · rfl
  · rintro a b b' (old | ⟨rfl, rfl⟩) (old' | ⟨same, rfl⟩)
    · exact h.2 old old'
    · exact absurd (below a b old).1 (by omega)
    · exact absurd (below a b' old').1 (by omega)
    · rfl

theorem rel_mono {α β : Type} {R S : α → β → Prop} {found : Option α} {found' : Option β}
    (h : Option.Rel R found found') (implies : ∀ a b, R a b → S a b) :
    Option.Rel S found found' := by
  cases h with
  | some related => exact .some (implies _ _ related)
  | none => exact .none

theorem isSome_eq {α β : Type} {R : α → β → Prop} {found : Option α} {found' : Option β}
    (h : Option.Rel R found found') : found.isSome = found'.isSome := by
  cases h <;> rfl

/-- Which scopes and which procedure identities of one heap stand for which of another. -/
structure Pairing where
  scopes : ScopeId → ScopeId → Prop
  identities : Nat → Nat → Prop

namespace Pairing

def Procedures (p : Pairing) : Value → Value → Prop
  | .lambda _ _ s i, .lambda _ _ t j => p.scopes s t ∧ p.identities i j
  | _, _ => False

abbrev Values (p : Pairing) : Value → Value → Prop :=
  Value.Alike p.Procedures

structure Sub (p q : Pairing) : Prop where
  scopes : ∀ a b, p.scopes a b → q.scopes a b
  identities : ∀ i j, p.identities i j → q.identities i j

/-- Paired scopes of the two heaps bind the same names to values that are the same up to the
pairing, and their outer scopes are paired. -/
structure Fits (p : Pairing) (left right : Heap) : Prop where
  scopes_lt : ∀ a b, p.scopes a b → a < left.size ∧ b < right.size
  identities_lt : ∀ i j, p.identities i j → i < left.nextIdentity ∧ j < right.nextIdentity
  scopes_unique : BiUnique p.scopes
  identities_unique : BiUnique p.identities
  outer : ∀ a b, p.scopes a b → Option.Rel p.scopes (left.outer? a) (right.outer? b)
  bound : ∀ a b, p.scopes a b → ∀ name : String,
    Option.Rel p.Values (left.bindings a)[name]? (right.bindings b)[name]?

def addScopes (p : Pairing) (m n : ScopeId) : Pairing where
  scopes a b := p.scopes a b ∨ a = m ∧ b = n
  identities := p.identities

def addIdentities (p : Pairing) (m n : Nat) : Pairing where
  scopes := p.scopes
  identities i j := p.identities i j ∨ i = m ∧ j = n

variable {p q : Pairing} {left right : Heap} {a b : ScopeId} {name : String} {v w : Value}
  {map other : Std.ExtTreeMap String Value}

theorem Sub.values (sub : p.Sub q) (h : p.Values v w) : q.Values v w := by
  refine h.mono fun l m procedures => ?_
  cases l <;> cases m <;> try exact procedures.elim
  exact ⟨sub.scopes _ _ procedures.1, sub.identities _ _ procedures.2⟩

theorem sub_addScopes (p : Pairing) (m n : ScopeId) : p.Sub (p.addScopes m n) :=
  ⟨fun _ _ => .inl, fun _ _ => id⟩

theorem sub_addIdentities (p : Pairing) (m n : Nat) : p.Sub (p.addIdentities m n) :=
  ⟨fun _ _ => id, fun _ _ => .inl⟩

/-- Procedures are told apart by their identities, and these are paired one to one. -/
theorem Fits.faithful (h : p.Fits left right) : Value.Faithful p.Procedures := by
  intro l m l' m' procedures procedures'
  cases l <;> cases m <;> try exact procedures.elim
  cases l' <;> cases m' <;> try exact procedures'.elim
  simp only [Value.same]
  rw [Bool.eq_iff_iff, beq_iff_eq, beq_iff_eq]
  constructor
  · rintro rfl
    exact h.identities_unique.2 procedures.2 procedures'.2
  · rintro rfl
    exact h.identities_unique.1 procedures.2 procedures'.2

theorem Fits.define (h : p.Fits left right) (paired : p.scopes a b) (alike : p.Values v w) :
    p.Fits (left.define a name v) (right.define b name w) where
  scopes_lt := by simpa only [Heap.size_define] using h.scopes_lt
  identities_lt := h.identities_lt
  scopes_unique := h.scopes_unique
  identities_unique := h.identities_unique
  outer c d paired' := by simpa only [Heap.outer?_define] using h.outer c d paired'
  bound c d paired' x := by
    have old := h.bound c d paired' x
    by_cases same : c = a
    · subst same
      obtain rfl := h.scopes_unique.2 paired paired'
      obtain ⟨inside, inside'⟩ := h.scopes_lt c b paired
      rw [Heap.bindings_define_self inside, Heap.bindings_define_self inside',
        Std.ExtTreeMap.getElem?_insert, Std.ExtTreeMap.getElem?_insert]
      split
      · exact .some alike
      · exact old
    · have other : d ≠ b := fun equal => same (h.scopes_unique.1 paired' (equal ▸ paired))
      rwa [Heap.bindings_define_of_ne same, Heap.bindings_define_of_ne other]

theorem Fits.push (h : p.Fits left right) (paired : p.scopes a b)
    (bound : ∀ name : String, Option.Rel p.Values map[name]? other[name]?) :
    (p.addScopes left.size right.size).Fits (left.push map (some a)).2
      (right.push other (some b)).2 where
  scopes_lt c d paired' := by
    rw [Heap.size_push, Heap.size_push]
    obtain old | ⟨rfl, rfl⟩ := paired'
    · exact (h.scopes_lt c d old).imp Nat.lt_succ_of_lt Nat.lt_succ_of_lt
    · exact ⟨Nat.lt_succ_self _, Nat.lt_succ_self _⟩
  identities_lt := h.identities_lt
  scopes_unique := biUnique_insert h.scopes_unique h.scopes_lt
  identities_unique := h.identities_unique
  outer c d paired' := by
    obtain old | ⟨rfl, rfl⟩ := paired'
    · obtain ⟨inside, inside'⟩ := h.scopes_lt c d old
      rw [Heap.outer?_push_of_lt inside, Heap.outer?_push_of_lt inside']
      exact rel_mono (h.outer c d old) fun _ _ => .inl
    · obtain ⟨inside, inside'⟩ := h.scopes_lt a b paired
      rw [Heap.outer?_push_self, Heap.outer?_push_self]
      simp only [Option.filter_some, inside, inside', decide_true, if_true]
      exact .some (.inl paired)
  bound c d paired' name := by
    refine rel_mono ?_ fun _ _ => (p.sub_addScopes left.size right.size).values
    obtain old | ⟨rfl, rfl⟩ := paired'
    · obtain ⟨inside, inside'⟩ := h.scopes_lt c d old
      rw [Heap.bindings_push_of_lt inside, Heap.bindings_push_of_lt inside']
      exact h.bound c d old name
    · rw [Heap.bindings_push_self, Heap.bindings_push_self]
      exact bound name

theorem Fits.freshIdentity (h : p.Fits left right) :
    (p.addIdentities left.nextIdentity right.nextIdentity).Fits left.freshIdentity.2
      right.freshIdentity.2 where
  scopes_lt := h.scopes_lt
  identities_lt i j paired := by
    simp only [Heap.freshIdentity]
    obtain old | ⟨rfl, rfl⟩ := paired
    · have inside := h.identities_lt i j old
      omega
    · omega
  scopes_unique := h.scopes_unique
  identities_unique := biUnique_insert h.identities_unique h.identities_lt
  outer := h.outer
  bound c d paired name :=
    rel_mono (h.bound c d paired name) fun _ _ => (p.sub_addIdentities _ _).values

theorem Fits.mem_iff (h : p.Fits left right) (paired : p.scopes a b) (name : String) :
    name ∈ left.bindings a ↔ name ∈ right.bindings b := by
  rw [Std.ExtTreeMap.mem_iff_isSome_getElem?, Std.ExtTreeMap.mem_iff_isSome_getElem?]
  rw [isSome_eq (h.bound a b paired name)]

theorem Fits.binder? (h : p.Fits left right) (paired : p.scopes a b) (name : String) :
    Option.Rel p.scopes (left.binder? a name) (right.binder? b name) := by
  induction a using Nat.strongRecOn generalizing b with
  | ind a ih =>
    rw [Heap.binder?_eq, Heap.binder?_eq, if_congr (h.mem_iff paired name) rfl rfl]
    split
    · exact .some paired
    · have outer := h.outer a b paired
      generalize outerOf : left.outer? a = found at outer ⊢
      generalize right.outer? b = found' at outer ⊢
      cases outer with
      | some paired' => exact ih _ (Heap.lt_of_outer? outerOf) paired'
      | none => exact .none

theorem Fits.lookup? (h : p.Fits left right) (paired : p.scopes a b) (name : String) :
    Option.Rel p.Values (left.lookup? a name) (right.lookup? b name) := by
  rw [Heap.lookup?, Heap.lookup?]
  generalize left.binder? a name = found, right.binder? b name = found',
    h.binder? paired name = binders
  cases binders with
  | some paired => exact h.bound _ _ paired name
  | none => exact .none

end Pairing

structure Mirror extends Pairing where
  left : Heap
  right : Heap
  fits : toPairing.Fits left right

namespace Mirror

variable {m middle after : Mirror} {a b : ScopeId} {v w : Value}

/-- The heaps may grow, and new pairs are of what is new on either side. -/
structure Grows (m after : Mirror) : Prop where
  sub : m.toPairing.Sub after.toPairing
  new_scopes : ∀ a b, after.scopes a b → m.scopes a b ∨ m.left.size ≤ a ∧ m.right.size ≤ b
  new_identities : ∀ i j, after.identities i j →
    m.identities i j ∨ m.left.nextIdentity ≤ i ∧ m.right.nextIdentity ≤ j
  size_le : m.left.size ≤ after.left.size ∧ m.right.size ≤ after.right.size
  nextIdentity_le : m.left.nextIdentity ≤ after.left.nextIdentity ∧
    m.right.nextIdentity ≤ after.right.nextIdentity

/-- The heaps grow, what is new on the left is paired, and scopes there that are not paired stay as
they are. -/
structure Step (m after : Mirror) : Prop extends Grows m after where
  covers : ∀ a < after.left.size, a < m.left.size ∨ ∃ b, after.scopes a b
  outer : ∀ a < m.left.size, after.left.outer? a = m.left.outer? a
  frame : ∀ a < m.left.size, (∀ b, ¬ m.scopes a b) → after.left.bindings a = m.left.bindings a

theorem Grows.refl (m : Mirror) : m.Grows m where
  sub := ⟨fun _ _ => id, fun _ _ => id⟩
  new_scopes _ _ := .inl
  new_identities _ _ := .inl
  size_le := ⟨Nat.le_refl _, Nat.le_refl _⟩
  nextIdentity_le := ⟨Nat.le_refl _, Nat.le_refl _⟩

theorem Grows.trans (first : m.Grows middle) (second : middle.Grows after) : m.Grows after where
  sub :=
    ⟨fun a b paired => second.sub.scopes a b (first.sub.scopes a b paired),
      fun i j paired => second.sub.identities i j (first.sub.identities i j paired)⟩
  new_scopes a b paired := by
    obtain old | ⟨large, large'⟩ := second.new_scopes a b paired
    · exact first.new_scopes a b old
    · exact .inr ⟨Nat.le_trans first.size_le.1 large, Nat.le_trans first.size_le.2 large'⟩
  new_identities i j paired := by
    obtain old | ⟨large, large'⟩ := second.new_identities i j paired
    · exact first.new_identities i j old
    · exact .inr ⟨Nat.le_trans first.nextIdentity_le.1 large,
        Nat.le_trans first.nextIdentity_le.2 large'⟩
  size_le :=
    ⟨Nat.le_trans first.size_le.1 second.size_le.1, Nat.le_trans first.size_le.2 second.size_le.2⟩
  nextIdentity_le :=
    ⟨Nat.le_trans first.nextIdentity_le.1 second.nextIdentity_le.1,
      Nat.le_trans first.nextIdentity_le.2 second.nextIdentity_le.2⟩

theorem Step.refl (m : Mirror) : m.Step m where
  toGrows := .refl m
  covers _ := .inl
  outer _ _ := rfl
  frame _ _ _ := rfl

theorem Grows.unpaired (h : m.Grows after) (inside : a < m.left.size)
    (alone : ∀ b, ¬ m.scopes a b) (b : ScopeId) : ¬ after.scopes a b := by
  intro paired
  obtain old | ⟨large, -⟩ := h.new_scopes a b paired
  · exact alone b old
  · exact Nat.not_lt.mpr large inside

theorem Step.trans (first : m.Step middle) (second : middle.Step after) : m.Step after where
  toGrows := first.toGrows.trans second.toGrows
  covers a inside := by
    obtain old | new := second.covers a inside
    · exact (first.covers a old).imp_right fun ⟨b, paired⟩ => ⟨b, second.sub.scopes a b paired⟩
    · exact .inr new
  outer a inside := by
    rw [second.outer a (Nat.lt_of_lt_of_le inside first.size_le.1), first.outer a inside]
  frame a inside alone := by
    rw [second.frame a (Nat.lt_of_lt_of_le inside first.size_le.1) (first.unpaired inside alone),
      first.frame a inside alone]

def define (m : Mirror) (a b : ScopeId) (name : String) (v w : Value) (paired : m.scopes a b)
    (alike : m.Values v w) : Mirror where
  toPairing := m.toPairing
  left := m.left.define a name v
  right := m.right.define b name w
  fits := m.fits.define paired alike

theorem step_define (name : String) (paired : m.scopes a b) (alike : m.Values v w) :
    m.Step (m.define a b name v w paired alike) where
  sub := ⟨fun _ _ => id, fun _ _ => id⟩
  new_scopes _ _ := .inl
  new_identities _ _ := .inl
  size_le := by
    simp only [define, Heap.size_define]
    exact ⟨Nat.le_refl _, Nat.le_refl _⟩
  nextIdentity_le := ⟨Nat.le_refl _, Nat.le_refl _⟩
  covers c inside := .inl (by simpa only [define, Heap.size_define] using inside)
  outer _ _ := Heap.outer?_define
  frame c _ alone := Heap.bindings_define_of_ne fun same => alone b (same ▸ paired)

def push (m : Mirror) (a b : ScopeId) (map other : Std.ExtTreeMap String Value)
    (paired : m.scopes a b)
    (bound : ∀ name : String, Option.Rel m.Values map[name]? other[name]?) : Mirror where
  toPairing := m.toPairing.addScopes m.left.size m.right.size
  left := (m.left.push map (some a)).2
  right := (m.right.push other (some b)).2
  fits := m.fits.push paired bound

theorem step_push {map other : Std.ExtTreeMap String Value} (paired : m.scopes a b)
    (bound : ∀ name : String, Option.Rel m.Values map[name]? other[name]?) :
    m.Step (m.push a b map other paired bound) where
  sub := m.toPairing.sub_addScopes _ _
  new_scopes c d paired' := by
    obtain old | ⟨rfl, rfl⟩ := paired'
    · exact .inl old
    · exact .inr ⟨Nat.le_refl _, Nat.le_refl _⟩
  new_identities _ _ := .inl
  size_le := by
    simp only [push, Heap.size_push]
    exact ⟨Nat.le_succ _, Nat.le_succ _⟩
  nextIdentity_le := ⟨Nat.le_refl _, Nat.le_refl _⟩
  covers c inside := by
    simp only [push, Heap.size_push] at inside
    obtain old | rfl := Nat.lt_succ_iff_lt_or_eq.mp inside
    · exact .inl old
    · exact .inr ⟨m.right.size, .inr ⟨rfl, rfl⟩⟩
  outer _ := Heap.outer?_push_of_lt
  frame _ inside _ := Heap.bindings_push_of_lt inside

def freshIdentity (m : Mirror) : Mirror where
  toPairing := m.toPairing.addIdentities m.left.nextIdentity m.right.nextIdentity
  left := m.left.freshIdentity.2
  right := m.right.freshIdentity.2
  fits := m.fits.freshIdentity

theorem step_freshIdentity (m : Mirror) : m.Step m.freshIdentity where
  sub := m.toPairing.sub_addIdentities _ _
  new_scopes _ _ := .inl
  new_identities i j paired := by
    obtain old | ⟨rfl, rfl⟩ := paired
    · exact .inl old
    · exact .inr ⟨Nat.le_refl _, Nat.le_refl _⟩
  size_le := ⟨Nat.le_refl _, Nat.le_refl _⟩
  nextIdentity_le := ⟨Nat.le_succ _, Nat.le_succ _⟩
  covers _ := .inl
  outer _ _ := rfl
  frame _ _ _ := rfl

end Mirror

end SemanticParsing
