import Mathlib.Data.List.Perm.Basic
import SemanticParsing.Proofs.WeightUpdate
/-! Each name has an entry of its own, so an update may take the names of its vocabulary in any
order. Contrasts may change places only where sums may be rearranged. -/
namespace SemanticParsing

variable {α : Type} [Scalar α] {eta : α} {name : String}

structure Vocabulary.Enumerates (vocabulary : Vocabulary) (names : List String) : Prop where
  distinct : names.Nodup
  same : ∀ name, name ∈ names ↔ name ∈ vocabulary

theorem Vocabulary.enumerates_toList (vocabulary : Vocabulary) :
    vocabulary.Enumerates vocabulary.toList :=
  ⟨Learning.nodup_toList vocabulary, fun _ => Std.ExtTreeSet.mem_toList⟩

/-- Adding in turn gives the same sum in another order. -/
def Scalar.Rearranges (α : Type) [Scalar α] : Prop := ∀ x y z : α, x + y + z = x + z + y

namespace Contrast

theorem moveEntry_right_comm (rearranges : Scalar.Rearranges α) (entry : Option α)
    (c d : Contrast α) :
    moveEntry eta name (moveEntry eta name entry c) d =
      moveEntry eta name (moveEntry eta name entry d) c := by
  simp only [moveEntry]
  split
  · split
    · exact congrArg some (rearranges _ _ _)
    · rfl
  · rfl

theorem foldl_moveEntry_perm (rearranges : Scalar.Rearranges α)
    {contrasts others : List (Contrast α)} (perm : contrasts.Perm others) (entry : Option α) :
    contrasts.foldl (moveEntry eta name) entry = others.foldl (moveEntry eta name) entry := by
  have : RightCommutative (moveEntry eta name) := ⟨moveEntry_right_comm rearranges⟩
  exact perm.foldl_eq entry

end Contrast

namespace Learning

variable {names others : List String} {vocabulary : Vocabulary}

theorem update_of_enumerates (h : vocabulary.Enumerates names) (h' : vocabulary.Enumerates others)
    (weights : Table α) (pair : Contrast α) :
    update eta names weights pair = update eta others weights pair := by
  refine Std.ExtTreeMap.ext_getElem? fun name => ?_
  rw [getElem?_update h.distinct, getElem?_update h'.distinct]
  simp only [h.same, h'.same]

/-- Contrasts commute where sums may be rearranged. -/
theorem applyAll_perm (rearranges : Scalar.Rearranges α) (distinct : names.Nodup)
    {pending pending' : List (Contrast α)} (perm : pending.Perm pending') (weights : Table α) :
    applyAll eta names pending weights = applyAll eta names pending' weights := by
  refine Std.ExtTreeMap.ext_getElem? fun name => ?_
  rw [getElem?_applyAll distinct, getElem?_applyAll distinct,
    Contrast.foldl_moveEntry_perm rearranges perm]

/-- Applies contrasts one after the other, each by an enumeration of names of its own. -/
def applyEach (eta : α) (steps : List (Contrast α × List String)) (weights : Table α) : Table α :=
  steps.foldl (fun weights step => update eta step.2 weights step.1) weights

/-- The updates of an epoch give the same table whatever order the names of the vocabulary are
enumerated in, and were it another for each contrast. Nothing is assumed of sums and products. -/
theorem enumeration_is_irrelevant (eta : α) (vocabulary : Vocabulary)
    (steps : List (Contrast α × List String)) (weights : Table α)
    (enumerated : ∀ step ∈ steps, vocabulary.Enumerates step.2) :
    applyEach eta steps weights =
      applyAll eta vocabulary.toList (steps.map Prod.fst) weights := by
  induction steps generalizing weights with
  | nil => rfl
  | cons step steps ih =>
    rw [List.forall_mem_cons] at enumerated
    rw [applyEach, List.foldl_cons, ← applyEach, ih _ enumerated.2,
      update_of_enumerates enumerated.1 vocabulary.enumerates_toList]
    rfl

def opposed : List (Contrast Float × List String) :=
  [(⟨Table.addAt ∅ "a" 1.0, Table.addAt ∅ "b" 1.0⟩, ["a", "b"]),
    (⟨Table.addAt ∅ "b" 2.0, Table.addAt ∅ "a" 3.0⟩, ["b", "a"])]

theorem opposed_enumerations_are_irrelevant :
    let vocabulary : Vocabulary := Std.ExtTreeSet.insertMany ∅ ["a", "b"]
    (∀ step ∈ opposed, vocabulary.Enumerates step.2) ∧
      applyEach 0.1 opposed ∅ =
        applyAll 0.1 vocabulary.toList (opposed.map Prod.fst) (∅ : Table Float) ∧
      (applyEach 0.1 opposed ∅).keys = ["a", "b"] := by
  intro vocabulary
  have enumerated : ∀ step ∈ opposed, vocabulary.Enumerates step.2 := by
    rintro step (_ | ⟨_, _ | ⟨_, none⟩⟩)
    · exact ⟨by decide, fun name => by simp [vocabulary]⟩
    · exact ⟨by decide, fun name => by simp [vocabulary, or_comm]⟩
    · cases none
  exact ⟨enumerated, enumeration_is_irrelevant 0.1 vocabulary opposed ∅ enumerated,
    by decide +kernel⟩

end Learning

end SemanticParsing
