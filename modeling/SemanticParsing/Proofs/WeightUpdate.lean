import Mathlib.Data.List.Basic
import SemanticParsing.Learning
/-! What the updates of an epoch do to the entry of one name in a table of weights. -/
namespace SemanticParsing

variable {α : Type} [Scalar α]

namespace Table

variable {table : Table α} {name other : String} {amount : α}

theorem number_eq (table : Table α) (name : String) :
    table.number name = table[name]?.getD Scalar.zero := by
  rw [number, Std.ExtTreeMap.getD_eq_getD_getElem?]

theorem number_of_not_mem (h : name ∉ table) : table.number name = Scalar.zero :=
  Std.ExtTreeMap.getD_eq_fallback h

theorem getElem?_addAt : (table.addAt name amount)[other]? =
    if name = other then some (table.number name + amount) else table[other]? := by
  rw [addAt, Std.ExtTreeMap.getElem?_alter, number_eq]
  simp

theorem number_addAt : (table.addAt name amount).number other =
    if name = other then table.number name + amount else table.number other := by
  rw [number_eq, getElem?_addAt, number_eq table other]
  split <;> rfl

end Table

namespace Contrast

def difference (c : Contrast α) (name : String) : α :=
  c.target.number name - c.chosen.number name

def differsAt (c : Contrast α) (name : String) : Bool :=
  !(c.difference name == Scalar.zero)

/-- What the contrast makes of the entry that a name has, if it has one. -/
def moveEntry (eta : α) (name : String) (entry : Option α) (c : Contrast α) : Option α :=
  if c.differsAt name then some (entry.getD Scalar.zero + eta * c.difference name) else entry

variable {eta : α} {name : String} {entry : Option α} {contrasts : List (Contrast α)}

theorem foldl_moveEntry_of_not_differs (h : ∀ c ∈ contrasts, c.differsAt name = false) :
    contrasts.foldl (moveEntry eta name) entry = entry := by
  induction contrasts with
  | nil => rfl
  | cons c rest ih =>
    rw [List.forall_mem_cons] at h
    rw [List.foldl_cons, moveEntry, h.1]
    exact ih h.2

theorem getD_foldl_moveEntry :
    (contrasts.foldl (moveEntry eta name) entry).getD Scalar.zero =
      (contrasts.filter (·.differsAt name)).foldl (fun w c => w + eta * c.difference name)
        (entry.getD Scalar.zero) := by
  induction contrasts generalizing entry with
  | nil => rfl
  | cons c rest ih =>
    rw [List.foldl_cons, ih, moveEntry]
    cases differs : c.differsAt name with
    | false => rw [List.filter_cons_of_neg (by simp [differs]), if_neg (by simp)]
    | true =>
      rw [List.filter_cons_of_pos (by simpa using differs), if_pos rfl]
      rfl

end Contrast

namespace Learning

variable {eta : α} {pair : Contrast α} {pending : List (Contrast α)} {weights : Table α}
  {names : List String} {name other : String}

theorem getElem?_updateName : (updateName eta pair weights name)[other]? =
    if name = other then pair.moveEntry eta name weights[name]? else weights[other]? := by
  rw [updateName, Contrast.moveEntry, Contrast.differsAt, Contrast.difference]
  cases pair.target.number name - pair.chosen.number name == Scalar.zero with
  | true =>
    simp only [if_true, Bool.not_true, Bool.false_eq_true, if_false]
    split
    · next same => rw [same]
    · rfl
  | false =>
    simp only [Bool.false_eq_true, if_false, Bool.not_false, if_true]
    rw [Table.getElem?_addAt, Table.number_eq]

/-- An update moves the entry of each of its names once, and no other. -/
theorem getElem?_update (distinct : names.Nodup) : (update eta names weights pair)[other]? =
    if other ∈ names then pair.moveEntry eta other weights[other]? else weights[other]? := by
  induction names generalizing weights with
  | nil => simp [update]
  | cons name names ih =>
    obtain ⟨new, distinct⟩ := List.nodup_cons.mp distinct
    rw [update, List.foldl_cons, ← update, ih distinct, getElem?_updateName]
    by_cases same : name = other
    · subst same
      simp [new]
    · simp [same, Ne.symm same]

theorem getElem?_applyAll (distinct : names.Nodup) :
    (applyAll eta names pending weights)[name]? =
      if name ∈ names then pending.foldl (Contrast.moveEntry eta name) weights[name]?
      else weights[name]? := by
  induction pending generalizing weights with
  | nil => simp [applyAll]
  | cons pair pending ih =>
    rw [applyAll, List.foldl_cons, ← applyAll, ih, getElem?_update distinct]
    split <;> rfl

theorem nodup_toList (vocabulary : Vocabulary) : vocabulary.toList.Nodup := by
  refine Std.ExtTreeSet.distinct_toList.imp fun {name other} different same => ?_
  exact different (Std.LawfulEqCmp.compare_eq_iff_eq.mpr same)

end Learning

end SemanticParsing
