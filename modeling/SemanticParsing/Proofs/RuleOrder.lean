import Mathlib.Logic.Equiv.Basic
import SemanticParsing.Proofs.ParseTree
/-!
The same rules in another order. A rule keeps its identity as an occurrence, which only moves to
another position; so the trees of one grammar are those of the other with the positions changed.
-/
namespace SemanticParsing

/-- The rule at each position of the second list is at the position in the first list that the order
gives for it. -/
def Reorders (order : Equiv.Perm ℕ) (rules other : List Rule) : Prop :=
  ∀ i, other[i]? = rules[order i]?

def keepFirst (order : Equiv.Perm ℕ) : Equiv.Perm ℕ where
  toFun
    | 0 => 0
    | i + 1 => order i + 1
  invFun
    | 0 => 0
    | i + 1 => order.symm i + 1
  left_inv i := by cases i <;> simp
  right_inv i := by cases i <;> simp

theorem exists_reorders {rules other : List Rule} (h : other.Perm rules) :
    ∃ order, Reorders order rules other := by
  induction h with
  | nil => exact ⟨.refl ℕ, fun _ => rfl⟩
  | cons rule _ ih =>
    obtain ⟨order, reorders⟩ := ih
    refine ⟨keepFirst order, fun i => ?_⟩
    cases i with
    | zero => rfl
    | succ i => simpa [keepFirst] using reorders i
  | swap rule first rest =>
    refine ⟨.swap 0 1, fun i => ?_⟩
    match i with
    | 0 => simp
    | 1 => simp
    | i + 2 => rw [Equiv.swap_apply_of_ne_of_ne (by omega) (by omega)]; rfl
  | trans _ _ first second =>
    obtain ⟨order, reorders⟩ := first
    obtain ⟨next, reordersNext⟩ := second
    exact ⟨order.trans next, fun i => (reorders i).trans (reordersNext (order i))⟩

def Occurrence.renumber (order : ℕ → ℕ) (use : Occurrence) : Occurrence :=
  ⟨order use.position, use.rule⟩

def ParseTree.renumber (order : ℕ → ℕ) : ParseTree → ParseTree
  | leaf use tokens => leaf (use.renumber order) tokens
  | node use left right => node (use.renumber order) (left.renumber order) (right.renumber order)

/-- The derivation with its rules at other positions; its meanings stay. -/
def Derivation.renumber (order : ℕ → ℕ) : Derivation → Derivation
  | leaf use tokens meaning => leaf (use.renumber order) tokens meaning
  | node use left right meaning =>
    node (use.renumber order) (left.renumber order) (right.renumber order) meaning

theorem Derivation.meaning_renumber (order : ℕ → ℕ) (d : Derivation) :
    (d.renumber order).meaning = d.meaning := by
  cases d <;> rfl

namespace ParseTree

theorem category_renumber (order : ℕ → ℕ) (t : ParseTree) :
    (t.renumber order).category = t.category := by
  cases t <;> rfl

theorem leaves_renumber (order : ℕ → ℕ) (t : ParseTree) :
    (t.renumber order).leaves = t.leaves := by
  induction t with
  | leaf use tokens => rfl
  | node use left right ihLeft ihRight => rw [renumber, leaves, ihLeft, ihRight, leaves]

theorem derivation_renumber (order : ℕ → ℕ) (t : ParseTree) :
    (t.renumber order).derivation = t.derivation.renumber order := by
  induction t with
  | leaf use tokens => rfl
  | node use left right ihLeft ihRight =>
    simp only [renumber, derivation, Derivation.ofPair, Derivation.renumber, ihLeft, ihRight,
      Derivation.meaning_renumber]
    rfl

theorem renumber_symm (order : Equiv.Perm ℕ) (t : ParseTree) :
    (t.renumber order.symm).renumber order = t := by
  induction t with
  | leaf use tokens => simp [renumber, Occurrence.renumber]
  | node use left right ihLeft ihRight => simp [renumber, Occurrence.renumber, ihLeft, ihRight]

theorem wellFormed_renumber {order : Equiv.Perm ℕ} {rules other : List Rule}
    (reorders : Reorders order rules other) {t : ParseTree} :
    (t.renumber order).WellFormed rules ↔ t.WellFormed other := by
  have occurs (use : Occurrence) : use.renumber order ∈ occurrences rules ↔
      use ∈ occurrences other := by
    rw [mem_occurrences_iff, mem_occurrences_iff, reorders]
    rfl
  induction t with
  | leaf use tokens =>
    simp only [renumber, WellFormed, occurs]
    rfl
  | node use left right ihLeft ihRight =>
    simp only [renumber, WellFormed, occurs, category_renumber, ihLeft, ihRight]
    rfl

end ParseTree

theorem Derivation.renumber_injective (order : Equiv.Perm ℕ) :
    Function.Injective (Derivation.renumber order) := by
  have undone (d : Derivation) : (d.renumber order).renumber order.symm = d := by
    induction d with
    | leaf use tokens meaning => simp [renumber, Occurrence.renumber]
    | node use left right meaning ihLeft ihRight =>
      simp [renumber, Occurrence.renumber, ihLeft, ihRight]
  exact Function.LeftInverse.injective undone

/-- Neither list has a derivation twice, so it is enough that each derivation of one list is one of
the other. -/
theorem enumerate_renumber {order : Equiv.Perm ℕ} {rules other : List Rule}
    (reorders : Reorders order rules other) (category : String) (tokens : List String) :
    ((enumerate other category tokens).map (Derivation.renumber order)).Perm
      (enumerate rules category tokens) := by
  have distinct := (enumerate_nodup other category tokens).map (Derivation.renumber_injective order)
  refine (List.perm_ext_iff_of_nodup distinct (enumerate_nodup ..)).mpr fun d => ?_
  rw [List.mem_map, mem_enumerate_iff]
  constructor
  · rintro ⟨d, member, rfl⟩
    obtain ⟨t, well, rfl, rfl, rfl⟩ := mem_enumerate_iff.mp member
    exact ⟨t.renumber order, (ParseTree.wellFormed_renumber reorders).mpr well,
      t.category_renumber order, t.leaves_renumber order, t.derivation_renumber order⟩
  · rintro ⟨t, well, rfl, rfl, rfl⟩
    have back := t.renumber_symm order
    refine ⟨(t.renumber order.symm).derivation, ?_, ?_⟩
    · rw [← back, ParseTree.wellFormed_renumber reorders] at well
      exact mem_enumerate_iff.mpr ⟨_, well, t.category_renumber _, t.leaves_renumber _, rfl⟩
    · rw [← ParseTree.derivation_renumber, back]

namespace Grammar

theorem parse_withStartCategory {rules : List Rule} {grammar : Grammar}
    (made : ofRules rules = .ok grammar) (category sentence : String) :
    (grammar.withStartCategory category).parse sentence =
      enumerate rules category (Text.words sentence) :=
  parse_eq ((built_of_ofRules made).withStartCategory category) sentence

/-- The order in which rules are added matters to the order of the derivations only. Both orders
make a grammar, and for every start category and sentence the two have the same derivations, each
as often, with the rules at the positions that they have in either list. -/
theorem rule_order_only_reorders {rules other : List Rule}
    (valid : ∀ rule ∈ rules, rule.Accepted) (permuted : other.Perm rules) :
    ∃ grammar reordered, ofRules rules = .ok grammar ∧ ofRules other = .ok reordered ∧
      (∃ order, Reorders order rules other) ∧
      ∀ category sentence,
        let before := (grammar.withStartCategory category).parse sentence
        let after := (reordered.withStartCategory category).parse sentence
        after.length = before.length ∧
          ∀ order : Equiv.Perm ℕ, Reorders order rules other →
            (after.map (Derivation.renumber order)).Perm before := by
  obtain ⟨grammar, made⟩ := exists_ofRules_iff.mpr valid
  obtain ⟨reordered, remade⟩ :=
    exists_ofRules_iff.mpr fun rule member => valid rule (permuted.mem_iff.mp member)
  have known := exists_reorders permuted
  refine ⟨grammar, reordered, made, remade, known, fun category sentence => ?_⟩
  rw [parse_withStartCategory made, parse_withStartCategory remade]
  have same (order : Equiv.Perm ℕ) (reorders : Reorders order rules other) :=
    enumerate_renumber reorders category (Text.words sentence)
  refine ⟨?_, same⟩
  obtain ⟨order, reorders⟩ := known
  simpa using (same order reorders).length_eq

theorem sample_reversed_only_reorders :
    (∀ rule ∈ sampleRules, rule.Accepted) ∧ sampleRules.reverse.Perm sampleRules ∧
      ∃ grammar reversed order, ofRules sampleRules = .ok grammar ∧
        ofRules sampleRules.reverse = .ok reversed ∧
        Reorders order sampleRules sampleRules.reverse ∧
        (((reversed.withStartCategory "$E").parse "one plus one").map
          (Derivation.renumber order)).Perm
          ((grammar.withStartCategory "$E").parse "one plus one") := by
  have valid := exists_ofRules_iff.mp ⟨sample, (rfl : ofRules sampleRules = .ok sample)⟩
  have permuted := List.reverse_perm sampleRules
  obtain ⟨grammar, reversed, made, remade, ⟨order, reorders⟩, same⟩ :=
    rule_order_only_reorders valid permuted
  exact ⟨valid, permuted, grammar, reversed, order, made, remade, reorders,
    (same "$E" "one plus one").2 order reorders⟩

end Grammar

end SemanticParsing
