import SemanticParsing.Lexicon
import SemanticParsing.Proofs.MeaningEquality
import SemanticParsing.Proofs.ParseTree
/-! A lexicon in which each phrase is tried with all meanings of its category loses no reading of
the plain one: a tree of the plain grammar is reread with an equal meaning. -/
namespace SemanticParsing

namespace Semantics

theorem same_literal {s : Semantics} {v : Value} (h : s.same (.literal v)) :
    ∃ w, s = .literal w ∧ w.same v := by
  cases s with
  | literal w => exact ⟨w, rfl, h⟩
  | combinator c => cases h

/-- Equal meanings are not told apart: a literal meaning is equal to itself, and a combinator makes
equal meanings of equal ones. -/
def Respectful : Semantics → Prop
  | literal v => v.isNaNFree
  | combinator c => ∀ children others,
      List.Forall₂ (fun v w => v.same w = true) children others →
        (c.build children).same (c.build others)

theorem Respectful.same_self {s : Semantics} (h : s.Respectful) : s.same s := by
  cases s with
  | literal v => exact Value.same_self h
  | combinator c => simp [same]

theorem Respectful.same_meaning {s : Semantics} (h : s.Respectful) {children others : List Value}
    (equal : List.Forall₂ (fun v w => v.same w = true) children others) :
    (s.meaning children).same (s.meaning others) := by
  cases s with
  | literal v => exact Value.same_self h
  | combinator c => exact h children others equal

end Semantics

namespace Lexicon

theorem distinct_concat (attested : List Semantics) (s : Semantics) :
    distinct (attested ++ [s]) =
      if (distinct attested).any (·.same s) then distinct attested
      else distinct attested ++ [s] := by
  rw [distinct, List.foldl_append]
  rfl

theorem mem_of_mem_distinct {attested : List Semantics} {s : Semantics}
    (h : s ∈ distinct attested) : s ∈ attested := by
  induction attested using List.reverseRecOn with
  | nil => cases h
  | append_singleton attested last ih =>
    rw [distinct_concat] at h
    split at h
    · exact List.mem_append_left _ (ih h)
    · cases List.mem_append.mp h with
      | inl old => exact List.mem_append_left _ (ih old)
      | inr new => exact List.mem_append_right _ new

theorem exists_mem_distinct {attested : List Semantics} {s : Semantics} (member : s ∈ attested)
    (reflexive : s.same s) : ∃ kept ∈ distinct attested, kept.same s := by
  induction attested using List.reverseRecOn with
  | nil => cases member
  | append_singleton attested last ih =>
    rw [distinct_concat]
    cases List.mem_append.mp member with
    | inl old =>
      obtain ⟨kept, inside, same⟩ := ih old
      refine ⟨kept, ?_, same⟩
      split
      · exact inside
      · exact List.mem_append_left _ inside
    | inr new =>
      obtain rfl := List.mem_singleton.mp new
      split
      · rename_i known
        exact List.any_eq_true.mp known
      · exact ⟨s, List.mem_append_right _ new, reflexive⟩

/-- The meanings of a category: one for each class of those that its lexical rules have. -/
def attested (rules : List Rule) (category : String) : List Semantics :=
  distinct (((rules.filter Rule.isLexical).filter (·.lhs = category)).map Rule.semantics)

theorem mem_expandAmbiguous {rules : List Rule} {rule : Rule} :
    rule ∈ expandAmbiguous rules ↔ (rule ∈ rules ∧ rule.isLexical = false) ∨
      ∃ own ∈ rules, own.isLexical ∧ ∃ semantics ∈ attested rules own.lhs,
        { own with semantics } = rule := by
  simp only [expandAmbiguous, expandCategory, attested, List.mem_append, List.mem_filter,
    List.mem_flatMap, List.mem_eraseDups, List.mem_map, Bool.not_eq_true', decide_eq_true_eq]
  constructor
  · rintro (other | ⟨category, -, own, ⟨⟨member, lexical⟩, rfl⟩, semantics, known, rfl⟩)
    · exact .inl other
    · exact .inr ⟨own, member, lexical, semantics, known, rfl⟩
  · rintro (other | ⟨own, member, lexical, semantics, known, rfl⟩)
    · exact .inl other
    · exact .inr ⟨own.lhs, ⟨own, ⟨member, lexical⟩, rfl⟩, own, ⟨⟨member, lexical⟩, rfl⟩, semantics,
        known, rfl⟩

theorem exists_of_mem_attested {rules : List Rule} {category : String} {semantics : Semantics}
    (h : semantics ∈ attested rules category) :
    ∃ rule ∈ rules, rule.isLexical ∧ rule.lhs = category ∧ rule.semantics = semantics := by
  obtain ⟨rule, member, same⟩ := List.mem_map.mp (mem_of_mem_distinct h)
  simp only [List.mem_filter, decide_eq_true_eq] at member
  exact ⟨rule, member.1.1, member.1.2, member.2, same⟩

theorem exists_mem_attested {rules : List Rule} {rule : Rule} (member : rule ∈ rules)
    (lexical : rule.isLexical) (respectful : rule.semantics.Respectful) :
    ∃ kept ∈ attested rules rule.lhs, kept.same rule.semantics :=
  exists_mem_distinct (List.mem_map_of_mem (by simp [member, lexical])) respectful.same_self

theorem accepted_of_mem_expandAmbiguous {rules : List Rule}
    (accepted : ∀ rule ∈ rules, rule.Accepted) :
    ∀ rule ∈ expandAmbiguous rules, rule.Accepted := by
  intro rule member
  cases mem_expandAmbiguous.mp member with
  | inl other => exact accepted rule other.1
  | inr copy =>
    obtain ⟨own, inRules, lexical, semantics, known, rfl⟩ := copy
    obtain ⟨source, inRules', lexical', -, rfl⟩ := exists_of_mem_attested known
    have category := (Rule.accepted_iff.mp (accepted own inRules)).1
    have literal := (accepted source inRules').literal lexical'
    exact Rule.accepted_iff.mpr ⟨category, .inl ⟨lexical, literal⟩⟩

end Lexicon

/-- The same tree by rules of the same sides, with an equal meaning at every node. -/
inductive Derivation.Rereads : Derivation → Derivation → Prop
  | leaf {use other : Occurrence} {tokens : List String} {meaning plain : Value} :
      use.rule.lhs = other.rule.lhs → use.rule.rhs = other.rule.rhs → meaning.same plain →
      Rereads (leaf use tokens meaning) (leaf other tokens plain)
  | node {use other : Occurrence} {left right plainLeft plainRight : Derivation}
      {meaning plain : Value} :
      use.rule.lhs = other.rule.lhs → use.rule.rhs = other.rule.rhs → meaning.same plain →
      Rereads left plainLeft → Rereads right plainRight →
      Rereads (node use left right meaning) (node other plainLeft plainRight plain)

theorem Derivation.Rereads.same {d e : Derivation} (h : d.Rereads e) :
    d.meaning.same e.meaning := by
  cases h with
  | leaf _ _ same => exact same
  | node _ _ same => exact same

/-- A leaf is reread with the representative of its meaning, a node with the rule that it has. -/
theorem ParseTree.exists_rereading {rules : List Rule} (accepted : ∀ rule ∈ rules, rule.Accepted)
    (respectful : ∀ rule ∈ rules, rule.semantics.Respectful) {t : ParseTree}
    (well : t.WellFormed rules) :
    ∃ copy : ParseTree, copy.WellFormed (Lexicon.expandAmbiguous rules) ∧
      copy.category = t.category ∧ copy.leaves = t.leaves ∧
      copy.derivation.Rereads t.derivation := by
  induction t with
  | leaf use tokens =>
    obtain ⟨occurs, lexical, rfl⟩ := well
    have member := rule_mem_of_mem_occurrences occurs
    obtain ⟨kept, known, same⟩ :=
      Lexicon.exists_mem_attested member lexical (respectful _ member)
    obtain ⟨⟨position, _⟩, occurs', rfl⟩ := exists_occurrence
      (Lexicon.mem_expandAmbiguous.mpr (.inr ⟨use.rule, member, lexical, kept, known, rfl⟩))
    obtain ⟨v, plain⟩ := (accepted _ member).literal lexical
    rw [plain] at same
    obtain ⟨w, rfl, equal⟩ := Semantics.same_literal same
    refine ⟨.leaf _ use.rule.rhs, ⟨occurs', lexical, rfl⟩, rfl, rfl, .leaf rfl rfl ?_⟩
    rw [plain]
    exact equal
  | node use left right ihLeft ihRight =>
    obtain ⟨occurs, pair, wellLeft, wellRight⟩ := well
    have member := rule_mem_of_mem_occurrences occurs
    obtain ⟨copyLeft, wellLeft', sameLeft, leavesLeft, rereadsLeft⟩ := ihLeft wellLeft
    obtain ⟨copyRight, wellRight', sameRight, leavesRight, rereadsRight⟩ := ihRight wellRight
    have notLexical : use.rule.isLexical = false := by
      by_contra lexical
      rw [Rule.pair?_eq_none_of_isLexical (by simpa using lexical)] at pair
      cases pair
    obtain ⟨⟨position, _⟩, occurs', rfl⟩ := exists_occurrence
      (Lexicon.mem_expandAmbiguous.mpr (.inl ⟨member, notLexical⟩))
    refine ⟨.node _ copyLeft copyRight, ⟨occurs', ?_, wellLeft', wellRight'⟩, rfl, ?_,
      .node rfl rfl ?_ rereadsLeft rereadsRight⟩
    · rw [pair, sameLeft, sameRight]
    · rw [leaves, leaves, leavesLeft, leavesRight]
    · exact (respectful _ member).same_meaning
        (.cons rereadsLeft.same (.cons rereadsRight.same .nil))

namespace Grammar

/-- The expanded rules of a grammar make a grammar again, and it rereads every derivation of the
first: over the same tokens, by rules of the same sides, with an equal meaning. -/
theorem expansion_keeps_readings {rules : List Rule} {grammar : Grammar}
    (accepted : ofRules rules = .ok grammar)
    (respectful : ∀ rule ∈ rules, rule.semantics.Respectful) :
    ∃ expanded, ofRules (Lexicon.expandAmbiguous rules) = .ok expanded ∧
      ∀ category sentence, ∀ d ∈ (grammar.withStartCategory category).parse sentence,
        ∃ copy ∈ (expanded.withStartCategory category).parse sentence,
          copy.Rereads d ∧ copy.meaning.same d.meaning := by
  have each : ∀ rule ∈ rules, rule.Accepted := exists_ofRules_iff.mp ⟨grammar, accepted⟩
  obtain ⟨expanded, made⟩ := exists_ofRules_iff.mpr (Lexicon.accepted_of_mem_expandAmbiguous each)
  refine ⟨expanded, made, fun category sentence d isParse => ?_⟩
  rw [parse_eq ((built_of_ofRules accepted).withStartCategory category)] at isParse
  obtain ⟨t, well, start, whole, rfl⟩ := exists_tree_of_mem_enumerate isParse
  obtain ⟨copy, well', sameCategory, sameLeaves, rereads⟩ := t.exists_rereading each respectful well
  refine ⟨copy.derivation, ?_, rereads, rereads.same⟩
  rw [parse_eq ((built_of_ofRules made).withStartCategory category)]
  have found := derivation_mem_enumerate well'
  rwa [sameCategory, sameLeaves, start, whole] at found

def twoOnes : List Rule :=
  [Rule.lexical "$E" "one" (.int 1), Rule.lexical "$E" "uno" (.float 1.0),
    Rule.lexical "$BinOp" "plus" (.symbol "+"),
    Rule.ofText "$EBO" "$E $BinOp" (.combinator ⟨0, fun children => .list children.reverse⟩),
    Rule.ofText "$E" "$EBO $E" (.combinator ⟨1, fun children => .list children⟩)]

theorem twoOnes_respectful : ∀ rule ∈ twoOnes, rule.semantics.Respectful := by
  simp only [twoOnes, List.forall_mem_cons, List.not_mem_nil, false_implies, implies_true, and_true]
  exact ⟨rfl, rfl, rfl, fun _ _ equal => Value.same_list (List.forall₂_reverse_iff.mpr equal),
    fun _ _ equal => Value.same_list equal⟩

def twoOnesTree : ParseTree :=
  .node ⟨4, twoOnes[4]⟩
    (.node ⟨3, twoOnes[3]⟩ (.leaf ⟨1, twoOnes[1]⟩ ["uno"]) (.leaf ⟨2, twoOnes[2]⟩ ["plus"]))
    (.leaf ⟨0, twoOnes[0]⟩ ["one"])

theorem twoOnesTree_wellFormed : twoOnesTree.WellFormed twoOnes := by
  have known := getElem_mem_occurrences twoOnes
  exact ⟨known 4 (by decide), rfl, ⟨known 3 (by decide), rfl, ⟨known 1 (by decide), rfl, rfl⟩,
    known 2 (by decide), rfl, rfl⟩, known 0 (by decide), rfl, rfl⟩

theorem twoOnesTree_is_reread :
    ∃ grammar, ofRules twoOnes = .ok grammar ∧ (∀ rule ∈ twoOnes, rule.semantics.Respectful) ∧
      twoOnesTree.derivation ∈ (grammar.withStartCategory "$E").parse "uno plus one" ∧
      (Lexicon.attested twoOnes "$E").map Semantics.text = ["1"] ∧
      ∃ expanded, ofRules (Lexicon.expandAmbiguous twoOnes) = .ok expanded ∧
        ∃ copy ∈ (expanded.withStartCategory "$E").parse "uno plus one",
          copy.Rereads twoOnesTree.derivation ∧
            copy.meaning.same twoOnesTree.derivation.meaning := by
  obtain ⟨grammar, accepted⟩ : ∃ grammar, ofRules twoOnes = .ok grammar := ⟨_, rfl⟩
  have found : twoOnesTree.derivation ∈ (grammar.withStartCategory "$E").parse "uno plus one" := by
    rw [parse_eq ((built_of_ofRules accepted).withStartCategory "$E")]
    exact derivation_mem_enumerate twoOnesTree_wellFormed
  obtain ⟨expanded, made, rereads⟩ := expansion_keeps_readings accepted twoOnes_respectful
  exact ⟨grammar, accepted, twoOnes_respectful, found, by decide +kernel, expanded, made,
    rereads "$E" _ _ found⟩

end Grammar

end SemanticParsing
