import SemanticParsing.Proofs.AmbiguousLexicon
/-! The shape of an expanded lexicon: which rules it has, in which order and how many, and that
expanding it once more gives no new rule. -/
namespace SemanticParsing

variable {α : Type} {same : α → α → Bool} {items kept : List α} {x : α}

/-- Items of a list with their positions, in order, of which no two are the same, and one of which
represents each item of the list, being the same and not after it. -/
structure FirstsAt (same : α → α → Bool) (items : List α) (found : List (α × Nat)) : Prop where
  sublist : found.Sublist items.zipIdx
  apart : found.Pairwise fun a b => same a.1 b.1 = false
  represents : ∀ b ∈ items.zipIdx, ∃ a ∈ found, a.2 ≤ b.2 ∧ same a.1 b.1 = true

/-- The first representatives of the items, in the order of first appearance. -/
def Firsts (same : α → α → Bool) (items kept : List α) : Prop :=
  ∃ found, FirstsAt same items found ∧ found.map Prod.fst = kept

namespace Firsts

theorem nil : Firsts same [] [] := ⟨[], ⟨.slnil, .nil, by simp⟩, rfl⟩

theorem mem_zipIdx_concat {b : α × Nat} :
    b ∈ (items ++ [x]).zipIdx ↔ b ∈ items.zipIdx ∨ b = (x, items.length) := by
  simp [List.zipIdx_append]

theorem sublist_concat {found : List (α × Nat)} (h : found.Sublist items.zipIdx) :
    found.Sublist (items ++ [x]).zipIdx := by
  rw [List.zipIdx_append]
  exact h.trans (List.sublist_append_left _ _)

theorem known (h : Firsts same items kept) (represented : ∃ k ∈ kept, same k x = true) :
    Firsts same (items ++ [x]) kept := by
  obtain ⟨found, firsts, rfl⟩ := h
  refine ⟨found, ⟨sublist_concat firsts.sublist, firsts.apart, fun b member => ?_⟩, rfl⟩
  cases mem_zipIdx_concat.mp member with
  | inl old => exact firsts.represents b old
  | inr last =>
    subst last
    obtain ⟨k, inside, represents⟩ := represented
    obtain ⟨a, member', rfl⟩ := List.mem_map.mp inside
    have before := List.snd_lt_of_mem_zipIdx (firsts.sublist.subset member')
    exact ⟨a, member', by omega, represents⟩

theorem new (h : Firsts same items kept) (unknown : ∀ k ∈ kept, same k x = false)
    (reflexive : same x x = true) : Firsts same (items ++ [x]) (kept ++ [x]) := by
  obtain ⟨found, firsts, rfl⟩ := h
  refine ⟨found ++ [(x, items.length)], ⟨?_, ?_, fun b member => ?_⟩, by simp⟩
  · rw [List.zipIdx_append]
    simpa using firsts.sublist
  · refine List.pairwise_append.mpr ⟨firsts.apart, List.pairwise_singleton _ _, ?_⟩
    intro a member b last
    obtain rfl := List.mem_singleton.mp last
    exact unknown a.1 (List.mem_map_of_mem member)
  · cases mem_zipIdx_concat.mp member with
    | inl old =>
      obtain ⟨a, member', represents⟩ := firsts.represents b old
      exact ⟨a, List.mem_append_left _ member', represents⟩
    | inr last =>
      subst last
      exact ⟨(x, items.length), by simp, le_rfl, reflexive⟩

end Firsts

theorem firsts_eraseDups [BEq α] [LawfulBEq α] (items : List α) :
    Firsts (· == ·) items items.eraseDups := by
  induction items using List.reverseRecOn with
  | nil => exact .nil
  | append_singleton items x ih =>
    rw [List.eraseDups_append]
    by_cases member : x ∈ items
    · have nothing : [x].removeAll items = [] := by simp [List.removeAll, member]
      rw [nothing, List.eraseDups_nil, List.append_nil]
      exact ih.known ⟨x, by simpa, by simp⟩
    · have last : [x].removeAll items = [x] := by simp [List.removeAll, member]
      rw [last, List.eraseDups_cons, List.filter_nil, List.eraseDups_nil]
      refine ih.new (fun k inside => ?_) (by simp)
      rw [List.mem_eraseDups] at inside
      exact beq_false_of_ne fun equal => member (equal ▸ inside)

namespace Lexicon

theorem firsts_distinct {semantics : List Semantics} (reflexive : ∀ s ∈ semantics, s.same s) :
    Firsts Semantics.same semantics (distinct semantics) := by
  induction semantics using List.reverseRecOn with
  | nil => exact .nil
  | append_singleton semantics s ih =>
    have firsts := ih fun other member => reflexive other (List.mem_append_left _ member)
    rw [distinct_concat]
    split
    case isTrue known => exact firsts.known (List.any_eq_true.mp known)
    case isFalse unknown =>
      refine firsts.new (fun k member => ?_) (reflexive s (by simp))
      by_contra represented
      exact unknown (List.any_eq_true.mpr ⟨k, member, by simpa using represented⟩)

def lexicalOf (rules : List Rule) (category : String) : List Rule :=
  (rules.filter Rule.isLexical).filter (·.lhs = category)

/-- What becomes of rules when these are the categories of lexical ones, each with these meanings:
the other rules come first, and then for each category the product of its rules and meanings. -/
def expansion (rules : List Rule) (categories : List String)
    (meanings : String → List Semantics) : List Rule :=
  rules.filter (fun rule => !rule.isLexical) ++
    categories.flatMap fun category => (lexicalOf rules category).flatMap fun rule =>
      (meanings category).map fun semantics => { rule with semantics }

theorem length_expansion (rules : List Rule) (categories : List String)
    (meanings : String → List Semantics) :
    (expansion rules categories meanings).length =
      (rules.filter fun rule => !rule.isLexical).length +
        (categories.map fun category =>
          (lexicalOf rules category).length * (meanings category).length).sum := by
  simp [expansion, List.length_flatMap]

theorem expandAmbiguous_eq (rules : List Rule) :
    expandAmbiguous rules = expansion rules ((rules.filter Rule.isLexical).map Rule.lhs).eraseDups
      (attested rules) :=
  rfl

variable {rules : List Rule} {rule : Rule}

theorem exists_of_mem_expandAmbiguous (member : rule ∈ expandAmbiguous rules)
    (lexical : rule.isLexical) : ∃ own ∈ rules, own.isLexical ∧
      ∃ semantics ∈ attested rules own.lhs, { own with semantics } = rule := by
  cases mem_expandAmbiguous.mp member with
  | inl other =>
    rw [other.2] at lexical
    cases lexical
  | inr copy => exact copy

/-- A copy of a copy is a copy, because its meaning is one that the category has already. -/
theorem mem_of_mem_expandAmbiguous_twice (h : rule ∈ expandAmbiguous (expandAmbiguous rules)) :
    rule ∈ expandAmbiguous rules := by
  obtain ⟨member, -⟩ | ⟨copy, member, lexical, _, known, rfl⟩ := mem_expandAmbiguous.mp h
  · exact member
  · obtain ⟨source, member', lexical', sameCategory, rfl⟩ := exists_of_mem_attested known
    obtain ⟨own, inRules, isLexical, _, -, rfl⟩ := exists_of_mem_expandAmbiguous member lexical
    obtain ⟨other, -, -, semantics, attests, rfl⟩ :=
      exists_of_mem_expandAmbiguous member' lexical'
    have attested : semantics ∈ attested rules own.lhs := by
      rwa [← show other.lhs = own.lhs from sameCategory]
    exact mem_expandAmbiguous.mpr (.inr ⟨own, inRules, isLexical, semantics, attested, rfl⟩)

/-- The result is the expansion of the rules by the categories of lexical ones, in the order of
first appearance, and the first representatives of their meanings. -/
structure Expands (rules expanded : List Rule) (categories : List String)
    (meanings : String → List Semantics) : Prop where
  firstCategories : Firsts (· == ·) ((rules.filter Rule.isLexical).map Rule.lhs) categories
  firstMeanings : ∀ category,
    Firsts Semantics.same ((lexicalOf rules category).map Rule.semantics) (meanings category)
  shape : expanded = expansion rules categories meanings
  length : expanded.length = (rules.filter fun rule => !rule.isLexical).length +
    (categories.map fun category =>
      (lexicalOf rules category).length * (meanings category).length).sum
  copies : ∀ rule ∈ rules, rule.isLexical → ∃ copy ∈ expanded,
    copy.lhs = rule.lhs ∧ copy.rhs = rule.rhs ∧ copy.semantics.same rule.semantics
  settled : ∀ rule ∈ expandAmbiguous expanded, rule ∈ expanded

theorem expansion_has_shape (rules : List Rule)
    (numbers : ∀ rule ∈ rules, ∀ v, rule.semantics = .literal v → v.isNaNFree) :
    ∃ categories meanings, Expands rules (expandAmbiguous rules) categories meanings := by
  have reflexive : ∀ rule ∈ rules, rule.semantics.same rule.semantics := by
    intro rule member
    cases meaning : rule.semantics with
    | literal v => exact Value.same_self (numbers rule member v meaning)
    | combinator c => simp [Semantics.same]
  refine ⟨_, attested rules, ⟨firsts_eraseDups _, fun category => firsts_distinct ?_,
    expandAmbiguous_eq rules, length_expansion rules _ _, fun rule member lexical => ?_,
    fun rule => mem_of_mem_expandAmbiguous_twice⟩⟩
  · intro semantics member
    obtain ⟨rule, inside, rfl⟩ := List.mem_map.mp member
    exact reflexive rule (List.mem_of_mem_filter (List.mem_of_mem_filter inside))
  · obtain ⟨kept, known, same⟩ : ∃ kept ∈ attested rules rule.lhs, kept.same rule.semantics :=
      exists_mem_distinct (List.mem_map_of_mem (by simp [member, lexical])) (reflexive rule member)
    refine ⟨{ rule with semantics := kept }, ?_, rfl, rfl, same⟩
    exact mem_expandAmbiguous.mpr (.inr ⟨rule, member, lexical, kept, known, rfl⟩)

def interleaved : List Rule :=
  [Rule.lexical "$E" "one" (.int 1), Rule.lexical "$BinOp" "plus" (.symbol "+"),
    Rule.lexical "$E" "uno" (.float 1.0),
    Rule.ofText "$E" "$EBO $E" (.combinator ⟨0, fun children => .list children⟩),
    Rule.lexical "$E" "two" (.int 2)]

theorem interleaved_has_shape :
    (∀ rule ∈ interleaved, ∀ v, rule.semantics = .literal v → v.isNaNFree) ∧
      (expandAmbiguous interleaved).map Rule.text =
        ["Rule($E, $EBO $E, λ)", "Rule($E, one, 1)", "Rule($E, one, 2)", "Rule($E, uno, 1)",
          "Rule($E, uno, 2)", "Rule($E, two, 1)", "Rule($E, two, 2)", "Rule($BinOp, plus, +)"] ∧
      ∃ categories meanings,
        Expands interleaved (expandAmbiguous interleaved) categories meanings := by
  have numbers : ∀ rule ∈ interleaved, ∀ v, rule.semantics = .literal v → v.isNaNFree := by
    simp only [interleaved, List.forall_mem_cons, List.not_mem_nil, false_implies, implies_true,
      and_true]
    refine ⟨?_, ?_, ?_, fun _ meaning => (nomatch meaning), ?_⟩
    all_goals
      intro v meaning
      cases meaning
      rfl
  exact ⟨numbers, by decide +kernel, expansion_has_shape interleaved numbers⟩

end Lexicon

end SemanticParsing
