import Mathlib
import SemanticParsing.Proofs.WeightUpdate
/-!
Scores over the rationals, where a weighted sum does not depend on the order of the names. An update
moves the margin of the target by the learning rate times the squared distance of the features.
-/
namespace SemanticParsing

instance : Scalar ℚ where
  zero := 0
  one := 1
  emptySum := 0
  less x y := x < y
  lessOrEqual x y := x ≤ y

namespace Table

variable {features weights : Table ℚ} {name : String}

def names (table : Table ℚ) : Finset String := table.keys.toFinset

theorem mem_names {table : Table ℚ} : name ∈ table.names ↔ name ∈ table := by
  rw [names, List.mem_toFinset, Std.ExtTreeMap.mem_keys]

theorem number_of_not_mem_names (h : name ∉ features.names) : features.number name = 0 :=
  number_of_not_mem (mt mem_names.mpr h)

theorem sum_eq (numbers : List ℚ) : Table.sum numbers = numbers.sum :=
  List.sum_eq_foldl.symm

/-- The score is the sum over any names that include those of the features. -/
theorem dot_eq_sum {range : Finset String} (h : features.names ⊆ range) :
    features.dot weights = ∑ name ∈ range, weights.number name * features.number name := by
  have terms : features.toList.map (fun entry => weights.number entry.1 * entry.2) =
      features.keys.map fun name => weights.number name * features.number name := by
    rw [← Std.ExtTreeMap.map_fst_toList_eq_keys, List.map_map]
    refine List.map_congr_left fun entry member => ?_
    have found := Std.ExtTreeMap.mem_toList_iff_getElem?_eq_some.mp member
    simp [number_eq, found]
  have vanish : ∀ name ∈ range, name ∉ features.names →
      weights.number name * features.number name = 0 := by
    intro name _ absent
    rw [number_of_not_mem_names absent, mul_zero]
  calc
    features.dot weights
      = (features.toList.map fun entry => weights.number entry.1 * entry.2).sum := sum_eq _
    _ = ∑ name ∈ features.names, weights.number name * features.number name := by
      rw [terms, names, List.sum_toFinset _ Std.ExtTreeMap.nodup_keys]
    _ = ∑ name ∈ range, weights.number name * features.number name :=
      Finset.sum_subset h vanish

end Table

namespace Learning

variable {eta : ℚ} {names : List String} {weights : Table ℚ} {pair : Contrast ℚ} {name : String}

/-- In exact arithmetic it makes no difference that a name whose counts agree is left alone. -/
theorem number_update (distinct : names.Nodup) :
    (update eta names weights pair).number name =
      if name ∈ names then weights.number name + eta * pair.difference name
      else weights.number name := by
  rw [Table.number_eq, getElem?_update distinct]
  split
  case isFalse => rw [Table.number_eq]
  case isTrue =>
    rw [Contrast.moveEntry]
    cases differs : pair.differsAt name with
    | true => rw [if_pos rfl, Option.getD_some, ← Table.number_eq]
    | false =>
      have equal : pair.difference name = Scalar.zero := by
        simpa [Contrast.differsAt] using differs
      have zero : pair.difference name = 0 := equal
      rw [if_neg Bool.false_ne_true, ← Table.number_eq, zero, mul_zero, add_zero]

end Learning

namespace Contrast

/-- By how much the target scores more than the chosen parse. -/
def margin (pair : Contrast ℚ) (weights : Table ℚ) : ℚ :=
  pair.target.dot weights - pair.chosen.dot weights

def names (pair : Contrast ℚ) : Finset String := pair.target.names ∪ pair.chosen.names

/-- The sum over all names of the squared differences of their counts. -/
def squaredDistance (pair : Contrast ℚ) : ℚ :=
  ∑ name ∈ pair.names, (pair.target.number name - pair.chosen.number name) ^ 2

variable {pair : Contrast ℚ}

theorem mem_names {name : String} :
    name ∈ pair.names ↔ name ∈ pair.target ∨ name ∈ pair.chosen := by
  rw [names, Finset.mem_union, Table.mem_names, Table.mem_names]

theorem margin_eq_sum (pair : Contrast ℚ) (weights : Table ℚ) :
    pair.margin weights = ∑ name ∈ pair.names, weights.number name *
      (pair.target.number name - pair.chosen.number name) := by
  have target : pair.target.names ⊆ pair.names := Finset.subset_union_left
  have chosen : pair.chosen.names ⊆ pair.names := Finset.subset_union_right
  rw [margin, Table.dot_eq_sum target, Table.dot_eq_sum chosen, ← Finset.sum_sub_distrib]
  exact Finset.sum_congr rfl fun name _ => (mul_sub _ _ _).symm

theorem squaredDistance_nonneg (pair : Contrast ℚ) : 0 ≤ pair.squaredDistance :=
  Finset.sum_nonneg fun _ _ => sq_nonneg _

theorem mem_names_of_differ {name : String}
    (differ : pair.target.number name ≠ pair.chosen.number name) : name ∈ pair.names := by
  by_contra absent
  rw [names, Finset.mem_union, not_or] at absent
  refine differ ?_
  rw [Table.number_of_not_mem_names absent.1, Table.number_of_not_mem_names absent.2]

theorem squaredDistance_pos_iff :
    0 < pair.squaredDistance ↔ ∃ name, pair.target.number name ≠ pair.chosen.number name := by
  rw [squaredDistance, Finset.sum_pos_iff_of_nonneg fun name _ => sq_nonneg _]
  constructor
  · intro positive
    obtain ⟨name, -, positive⟩ := positive
    exact ⟨name, sub_ne_zero.mp (sq_pos_iff.mp positive)⟩
  · intro differing
    obtain ⟨name, differ⟩ := differing
    exact ⟨name, mem_names_of_differ differ, sq_pos_of_ne_zero (sub_ne_zero.mpr differ)⟩

end Contrast

namespace Learning

variable {eta : ℚ} {names : List String} {weights : Table ℚ} {pair : Contrast ℚ}

theorem margin_update (distinct : names.Nodup) (known : ∀ name ∈ pair.names, name ∈ names) :
    pair.margin (update eta names weights pair) =
      pair.margin weights + eta * pair.squaredDistance := by
  calc
    pair.margin (update eta names weights pair)
      = ∑ name ∈ pair.names, (weights.number name * (pair.target.number name -
          pair.chosen.number name) +
          eta * (pair.target.number name - pair.chosen.number name) ^ 2) := by
      rw [Contrast.margin_eq_sum]
      refine Finset.sum_congr rfl fun name member => ?_
      rw [number_update distinct, if_pos (known name member), Contrast.difference]
      ring
    _ = pair.margin weights + eta * pair.squaredDistance := by
      rw [Finset.sum_add_distrib, ← Finset.mul_sum, ← Contrast.margin_eq_sum,
        ← Contrast.squaredDistance]

theorem dot_update {features : Table ℚ} (distinct : names.Nodup)
    (equal : ∀ name ∈ features, pair.target.number name = pair.chosen.number name) :
    features.dot (update eta names weights pair) = features.dot weights := by
  rw [Table.dot_eq_sum subset_rfl, Table.dot_eq_sum subset_rfl]
  refine Finset.sum_congr rfl fun name member => ?_
  have same : pair.difference name = 0 :=
    sub_eq_zero.mpr (equal name (Table.mem_names.mp member))
  rw [number_update distinct, same, mul_zero, add_zero, ite_self]

/-- An update by a vocabulary that has all names of the two feature vectors moves their margin by
the learning rate times their squared distance. So with a positive rate the target never loses
ground, and it gains some unless the counts are equal for every name. Features without a name at
which the counts differ keep their score. -/
theorem update_moves_margin (eta : ℚ) (names : List String) (weights : Table ℚ)
    (pair : Contrast ℚ) (distinct : names.Nodup)
    (known : ∀ name, name ∈ pair.target ∨ name ∈ pair.chosen → name ∈ names) :
    pair.margin (update eta names weights pair) =
      pair.margin weights + eta * pair.squaredDistance ∧
    (0 < eta →
      pair.margin weights ≤ pair.margin (update eta names weights pair) ∧
      (pair.margin weights < pair.margin (update eta names weights pair) ↔
        ∃ name, pair.target.number name ≠ pair.chosen.number name)) ∧
    ∀ features : Table ℚ,
      (∀ name ∈ features, pair.target.number name = pair.chosen.number name) →
        features.dot (update eta names weights pair) = features.dot weights := by
  have moved : pair.margin (update eta names weights pair) =
      pair.margin weights + eta * pair.squaredDistance :=
    margin_update distinct fun name member => known name (Contrast.mem_names.mp member)
  refine ⟨moved, fun positive => ?_, fun features => dot_update distinct⟩
  rw [moved, ← Contrast.squaredDistance_pos_iff, le_add_iff_nonneg_right, lt_add_iff_pos_right]
  exact ⟨mul_nonneg positive.le pair.squaredDistance_nonneg, mul_pos_iff_of_pos_left positive⟩

def differing : Contrast ℚ where
  target := Table.addAt (Table.addAt ∅ "a" 2) "b" 1
  chosen := Table.addAt (Table.addAt ∅ "b" 1) "c" 1

theorem differing_moves_margin :
    let names := ["d", "c", "b", "a"]
    let weights : Table ℚ := Table.addAt ∅ "c" 3
    names.Nodup ∧
      (∀ name, name ∈ differing.target ∨ name ∈ differing.chosen → name ∈ names) ∧
      (0 : ℚ) < 1 / 10 ∧
      differing.margin (update (1 / 10) names weights differing) =
        differing.margin weights + 1 / 10 * 5 ∧
      differing.margin weights < differing.margin (update (1 / 10) names weights differing) ∧
      Table.dot (Table.addAt ∅ "b" 7) (update (1 / 10) names weights differing) =
        Table.dot (Table.addAt ∅ "b" 7) weights := by
  intro names weights
  have distinct : names.Nodup := by decide
  have known : ∀ name, name ∈ differing.target ∨ name ∈ differing.chosen → name ∈ names := by
    have all : ∀ name ∈ differing.names, name ∈ names := by decide +kernel
    exact fun name member => all name (Contrast.mem_names.mpr member)
  have positive : (0 : ℚ) < 1 / 10 := by norm_num
  have distance : differing.squaredDistance = 5 := by decide +kernel
  have agree : ∀ name ∈ (Table.addAt ∅ "b" 7 : Table ℚ),
      differing.target.number name = differing.chosen.number name := by
    have all : ∀ name ∈ (Table.addAt ∅ "b" 7 : Table ℚ).names,
        differing.target.number name = differing.chosen.number name := by decide +kernel
    exact fun name member => all name (Table.mem_names.mpr member)
  have differ : differing.target.number "a" ≠ differing.chosen.number "a" := by decide +kernel
  obtain ⟨moved, gains, kept⟩ :=
    update_moves_margin (1 / 10) names weights differing distinct known
  rw [distance] at moved
  exact ⟨distinct, known, positive, moved, (gains positive).2.mpr ⟨"a", differ⟩, kept _ agree⟩

end Learning

end SemanticParsing
