import Mathlib
import SemanticParsing.Proofs.ParseTree
/-!
How many derivations there are. The enumeration is counted by a recursion over the cuts of the
tokens; for a row of operands with operators between them this is the recursion of the Catalan
numbers, times the readings of the words.
-/
namespace SemanticParsing

theorem length_filter_occurrences (rules : List Rule) (p : Rule → Bool) :
    ((occurrences rules).filter fun use => p use.rule).length = rules.countP p := by
  rw [← List.countP_eq_length_filter]
  conv_rhs => rw [← map_rule_occurrences rules, List.countP_map]
  rfl

theorem length_combine (uses : List Occurrence) (lefts rights : List Derivation) :
    (Grammar.combine uses lefts rights).length = uses.length * (lefts.length * rights.length) := by
  simp [Grammar.combine, List.length_flatMap]

def countLexical (rules : List Rule) (category : String) (tokens : List String) : ℕ :=
  rules.countP fun rule => rule.isLexical ∧ rule.rhs = tokens ∧ rule.lhs = category

def countBinary (rules : List Rule) (category : String) (pair : CategoryPair) : ℕ :=
  rules.countP fun rule => rule.pair? = some pair ∧ rule.lhs = category

theorem length_terminalDerivations (rules : List Rule) (category : String) (tokens : List String) :
    (terminalDerivations rules category tokens).length = countLexical rules category tokens := by
  rw [countLexical, ← length_filter_occurrences, terminalDerivations, List.length_map, lexicalUses,
    List.filter_filter]
  congr 1
  refine List.filter_congr fun use _ => ?_
  simp [and_comm, and_assoc]

theorem length_binaryUses (rules : List Rule) (category : String) (pair : CategoryPair) :
    ((binaryUses rules pair).filter (·.rule.lhs = category)).length =
      countBinary rules category pair := by
  rw [countBinary, ← length_filter_occurrences, binaryUses, List.filter_filter]
  congr 1
  refine List.filter_congr fun use _ => ?_
  simp [and_comm]

theorem sum_cuts (tokens : List String) (f : List String × List String → ℕ) :
    ((cuts tokens).map f).sum =
      ∑ i ∈ Finset.range (tokens.length - 1), f (tokens.take (i + 1), tokens.drop (i + 1)) := by
  rw [cuts, List.map_map, List.range'_eq_map_range, List.map_map]
  change ∑ i ∈ Finset.range (tokens.length - 1), f (tokens.take (1 + i), tokens.drop (1 + i)) = _
  simp only [Nat.add_comm]

theorem length_enumerate (rules : List Rule) (category : String) (tokens : List String) :
    (enumerate rules category tokens).length = countLexical rules category tokens +
      ∑ i ∈ Finset.range (tokens.length - 1), ((categoryPairs rules).map fun pair =>
        countBinary rules category pair *
          ((enumerate rules pair.1 (tokens.take (i + 1))).length *
            (enumerate rules pair.2 (tokens.drop (i + 1))).length)).sum := by
  rw [enumerate_eq, List.length_append, length_terminalDerivations, pairDerivations,
    List.length_flatMap, sum_cuts]
  simp only [List.length_flatMap, length_combine, length_binaryUses]

structure Rule.Reads (rule : Rule) (category word : String) : Prop where
  lhs : rule.lhs = category
  lexical : rule.isLexical = true
  rhs : rule.rhs = [word]

/-- The rules of operands with operators between them: words of both kinds, and two ways to put
things together. An operator after its left operand waits for the right one. -/
inductive ChainRule (rule : Rule) : Prop
  | operand (word : String) (reads : rule.Reads "$E" word)
  | operator (word : String) (reads : rule.Reads "$BinOp" word)
  | waiting (lhs : rule.lhs = "$EBO") (pair : rule.pair? = some ("$E", "$BinOp"))
  | combination (lhs : rule.lhs = "$E") (pair : rule.pair? = some ("$EBO", "$E"))

def IsOperand (rules : List Rule) (word : String) : Prop := ∃ rule ∈ rules, rule.Reads "$E" word

def IsOperator (rules : List Rule) (word : String) : Prop :=
  ∃ rule ∈ rules, rule.Reads "$BinOp" word

/-- Both ways to put things together are there once, and no word is an operand and an operator. -/
structure ChainRules (rules : List Rule) : Prop where
  each : ∀ rule ∈ rules, ChainRule rule
  waiting : rules.countP (·.pair? = some ("$E", "$BinOp")) = 1
  combination : rules.countP (·.pair? = some ("$EBO", "$E")) = 1
  apart : ∀ word, IsOperand rules word → ¬ IsOperator rules word

/-- Operands at the even positions and operators between them. -/
def Alternating (rules : List Rule) (tokens : List String) : Prop :=
  ∀ i word, tokens[i]? = some word →
    if i % 2 = 0 then IsOperand rules word else IsOperator rules word

def readings (rules : List Rule) (word : String) : ℕ := rules.countP (·.rhs = [word])

theorem countLexical_eq_readings {rules : List Rule} {category word : String}
    (all : ∀ rule ∈ rules, rule.rhs = [word] → rule.Reads category word) :
    countLexical rules category [word] = readings rules word := by
  refine List.countP_congr fun rule member => ?_
  simp only [decide_eq_true_eq]
  refine ⟨fun known => known.2.1, fun rhs => ?_⟩
  have reads := all rule member rhs
  exact ⟨reads.lexical, rhs, reads.lhs⟩

theorem countBinary_of_lhs {rules : List Rule} {pair : CategoryPair} (lhs : String)
    (all : ∀ rule ∈ rules, rule.pair? = some pair → rule.lhs = lhs) (category : String) :
    countBinary rules category pair =
      if category = lhs then rules.countP (·.pair? = some pair) else 0 := by
  split
  case isTrue same =>
    refine List.countP_congr fun rule member => ?_
    simp only [decide_eq_true_eq, and_iff_left_iff_imp]
    exact fun known => (all rule member known).trans same.symm
  case isFalse different =>
    refine List.countP_eq_zero.mpr fun rule member => ?_
    simp only [decide_eq_true_eq, not_and]
    exact fun known same => different (same.symm.trans (all rule member known))

namespace ChainRules

variable {rules : List Rule} {category word : String} {tokens : List String}

theorem cases_of_pair? (h : ChainRules rules) {rule : Rule} (member : rule ∈ rules)
    {pair : CategoryPair} (known : rule.pair? = some pair) :
    pair = ("$E", "$BinOp") ∧ rule.lhs = "$EBO" ∨ pair = ("$EBO", "$E") ∧ rule.lhs = "$E" := by
  cases h.each rule member with
  | operand _ reads | operator _ reads =>
    rw [Rule.pair?_eq_none_of_isLexical reads.lexical] at known
    cases known
  | waiting lhs waits => exact .inl ⟨Option.some_inj.mp (known.symm.trans waits), lhs⟩
  | combination lhs combines => exact .inr ⟨Option.some_inj.mp (known.symm.trans combines), lhs⟩

theorem mem_categoryPairs (h : ChainRules rules) {pair : CategoryPair} :
    pair ∈ categoryPairs rules ↔ pair = ("$E", "$BinOp") ∨ pair = ("$EBO", "$E") := by
  rw [categoryPairs, List.mem_eraseDups, List.mem_filterMap]
  constructor
  · rintro ⟨rule, member, known⟩
    exact (h.cases_of_pair? member known).imp And.left And.left
  · have exists_of_count {pair : CategoryPair}
        (count : rules.countP (·.pair? = some pair) = 1) :
        ∃ rule ∈ rules, rule.pair? = some pair := by
      simpa using List.countP_pos_iff.mp (Nat.lt_of_lt_of_eq Nat.zero_lt_one count.symm)
    rintro (rfl | rfl)
    · exact exists_of_count h.waiting
    · exact exists_of_count h.combination

theorem categoryPairs_perm (h : ChainRules rules) :
    (categoryPairs rules).Perm [("$E", "$BinOp"), ("$EBO", "$E")] := by
  refine (List.perm_ext_iff_of_nodup (categoryPairs_nodup rules) (by decide)).mpr fun pair => ?_
  simp [h.mem_categoryPairs]

theorem countBinary_waiting (h : ChainRules rules) (category : String) :
    countBinary rules category ("$E", "$BinOp") = if category = "$EBO" then 1 else 0 := by
  rw [countBinary_of_lhs "$EBO" fun rule member known => ?_, h.waiting]
  obtain ⟨-, lhs⟩ | ⟨other, -⟩ := h.cases_of_pair? member known
  · exact lhs
  · exact absurd other (by decide)

theorem countBinary_combination (h : ChainRules rules) (category : String) :
    countBinary rules category ("$EBO", "$E") = if category = "$E" then 1 else 0 := by
  rw [countBinary_of_lhs "$E" fun rule member known => ?_, h.combination]
  obtain ⟨other, -⟩ | ⟨-, lhs⟩ := h.cases_of_pair? member known
  · exact absurd other (by decide)
  · exact lhs

theorem reads_of_isLexical (h : ChainRules rules) {rule : Rule} (member : rule ∈ rules)
    (lexical : rule.isLexical = true) :
    ∃ word, rule.rhs = [word] ∧ (rule.Reads "$E" word ∨ rule.Reads "$BinOp" word) := by
  cases h.each rule member with
  | operand word reads => exact ⟨word, reads.rhs, .inl reads⟩
  | operator word reads => exact ⟨word, reads.rhs, .inr reads⟩
  | waiting _ pair | combination _ pair =>
    rw [Rule.pair?_eq_none_of_isLexical lexical] at pair
    cases pair

theorem countLexical_eq_zero (h : ChainRules rules) (long : tokens.length ≠ 1) :
    countLexical rules category tokens = 0 := by
  refine List.countP_eq_zero.mpr fun rule member => ?_
  simp only [decide_eq_true_eq, not_and]
  rintro lexical rfl
  obtain ⟨word, rhs, -⟩ := h.reads_of_isLexical member lexical
  simp [rhs] at long

theorem countLexical_waiting (h : ChainRules rules) : countLexical rules "$EBO" tokens = 0 := by
  refine List.countP_eq_zero.mpr fun rule member => ?_
  simp only [decide_eq_true_eq, not_and]
  intro lexical _ lhs
  obtain ⟨word, -, reads | reads⟩ := h.reads_of_isLexical member lexical
  · exact absurd (lhs.symm.trans reads.lhs) (by decide)
  · exact absurd (lhs.symm.trans reads.lhs) (by decide)

theorem reads_of_rhs (h : ChainRules rules) {rule : Rule} (member : rule ∈ rules)
    (rhs : rule.rhs = [word]) : rule.Reads "$E" word ∨ rule.Reads "$BinOp" word := by
  cases h.each rule member with
  | operand other reads =>
    obtain rfl : other = word := by simpa [reads.rhs] using rhs
    exact .inl reads
  | operator other reads =>
    obtain rfl : other = word := by simpa [reads.rhs] using rhs
    exact .inr reads
  | waiting _ pair | combination _ pair => simp [Rule.rhs_of_pair? pair] at rhs

theorem countLexical_operand (h : ChainRules rules) (operand : IsOperand rules word) :
    countLexical rules "$E" [word] = readings rules word := by
  refine countLexical_eq_readings fun rule member rhs => ?_
  exact (h.reads_of_rhs member rhs).resolve_right fun reads =>
    h.apart word operand ⟨rule, member, reads⟩

theorem countLexical_operator (h : ChainRules rules) (operator : IsOperator rules word) :
    countLexical rules "$BinOp" [word] = readings rules word := by
  refine countLexical_eq_readings fun rule member rhs => ?_
  exact (h.reads_of_rhs member rhs).resolve_left fun reads =>
    h.apart word ⟨rule, member, reads⟩ operator

theorem countLexical_operator_of_operand (h : ChainRules rules) (operand : IsOperand rules word) :
    countLexical rules "$BinOp" [word] = 0 := by
  refine List.countP_eq_zero.mpr fun rule member => ?_
  simp only [decide_eq_true_eq]
  rintro ⟨lexical, rhs, lhs⟩
  exact h.apart word operand ⟨rule, member, lhs, lexical, rhs⟩

theorem length_enumerate_eq (h : ChainRules rules) (category : String) (tokens : List String) :
    (enumerate rules category tokens).length = countLexical rules category tokens +
      ∑ i ∈ Finset.range (tokens.length - 1),
        ((if category = "$EBO" then 1 else 0) *
          ((enumerate rules "$E" (tokens.take (i + 1))).length *
            (enumerate rules "$BinOp" (tokens.drop (i + 1))).length) +
        (if category = "$E" then 1 else 0) *
          ((enumerate rules "$EBO" (tokens.take (i + 1))).length *
            (enumerate rules "$E" (tokens.drop (i + 1))).length)) := by
  rw [length_enumerate]
  congr 1
  refine Finset.sum_congr rfl fun i _ => ?_
  rw [(h.categoryPairs_perm.map _).sum_eq]
  simp only [List.map_cons, List.map_nil, List.sum_cons, List.sum_nil, Nat.add_zero,
    h.countBinary_waiting, h.countBinary_combination]

theorem length_operators (h : ChainRules rules) (tokens : List String) :
    (enumerate rules "$BinOp" tokens).length = countLexical rules "$BinOp" tokens := by
  simp [h.length_enumerate_eq "$BinOp" tokens]

theorem length_operands (h : ChainRules rules) (tokens : List String) :
    (enumerate rules "$E" tokens).length = countLexical rules "$E" tokens +
      ∑ i ∈ Finset.range (tokens.length - 1),
        (enumerate rules "$EBO" (tokens.take (i + 1))).length *
          (enumerate rules "$E" (tokens.drop (i + 1))).length := by
  simp [h.length_enumerate_eq "$E" tokens]

theorem length_waiting (h : ChainRules rules) (tokens : List String) (word : String) :
    (enumerate rules "$EBO" (tokens ++ [word])).length =
      (enumerate rules "$E" tokens).length * countLexical rules "$BinOp" [word] := by
  have counted : (enumerate rules "$EBO" (tokens ++ [word])).length =
      ∑ i ∈ Finset.range tokens.length,
        (enumerate rules "$E" ((tokens ++ [word]).take (i + 1))).length *
          countLexical rules "$BinOp" ((tokens ++ [word]).drop (i + 1)) := by
    rw [h.length_enumerate_eq, h.countLexical_waiting, Nat.zero_add, List.length_append,
      List.length_singleton, Nat.add_sub_cancel]
    refine Finset.sum_congr rfl fun i _ => ?_
    rw [if_pos rfl, if_neg (by decide), h.length_operators]
    ring
  rw [counted]
  cases length : tokens.length with
  | zero => simp [List.length_eq_zero_iff.mp length, enumerate_nil]
  | succ n =>
    rw [Finset.sum_range_succ, ← length, List.take_left, List.drop_left, Finset.sum_eq_zero,
      Nat.zero_add]
    intro i inside
    have long : ((tokens ++ [word]).drop (i + 1)).length ≠ 1 := by
      have bound := Finset.mem_range.mp inside
      simp only [List.length_drop, List.length_append, List.length_singleton]
      omega
    rw [h.countLexical_eq_zero long, Nat.mul_zero]

end ChainRules

namespace Alternating

variable {rules : List Rule} {tokens : List String}

theorem take (h : Alternating rules tokens) (n : ℕ) : Alternating rules (tokens.take n) := by
  intro i word found
  rw [List.getElem?_take] at found
  split at found
  · exact h i word found
  · cases found

theorem drop (h : Alternating rules tokens) (n : ℕ) :
    Alternating rules (tokens.drop (2 * n)) := by
  intro i word found
  rw [List.getElem?_drop] at found
  simpa [Nat.add_mod] using h (2 * n + i) word found

theorem isOperand (h : Alternating rules tokens) {i : ℕ} (inside : 2 * i < tokens.length) :
    IsOperand rules tokens[2 * i] := by
  simpa using h (2 * i) _ (List.getElem?_eq_getElem inside)

theorem isOperator (h : Alternating rules tokens) {i : ℕ} (inside : 2 * i + 1 < tokens.length) :
    IsOperator rules tokens[2 * i + 1] := by
  simpa [Nat.add_mod] using h (2 * i + 1) _ (List.getElem?_eq_getElem inside)

end Alternating

theorem sum_range_two_mul (f : ℕ → ℕ) (n : ℕ) :
    ∑ i ∈ Finset.range (2 * n), f i = ∑ j ∈ Finset.range n, (f (2 * j) + f (2 * j + 1)) := by
  induction n with
  | zero => rfl
  | succ n ih => rw [Nat.mul_succ, Finset.sum_range_succ, Finset.sum_range_succ, ih,
      Finset.sum_range_succ, Nat.add_assoc]

theorem prod_map_cut (f : String → ℕ) {tokens : List String} {i : ℕ} (inside : i < tokens.length) :
    (tokens.map f).prod =
      ((tokens.take i).map f).prod * f tokens[i] * ((tokens.drop (i + 1)).map f).prod := by
  conv_lhs => rw [← List.take_append_drop i tokens, ← List.cons_getElem_drop_succ (h := inside)]
  rw [List.map_append, List.prod_append, List.map_cons, List.prod_cons, Nat.mul_assoc]

namespace ChainRules

variable {rules : List Rule} {tokens : List String} {j : ℕ}

theorem length_waiting_operand (h : ChainRules rules) (alternating : Alternating rules tokens)
    (inside : 2 * j < tokens.length) :
    (enumerate rules "$EBO" (tokens.take (2 * j + 1))).length = 0 := by
  rw [← List.take_append_getElem inside, h.length_waiting,
    h.countLexical_operator_of_operand (alternating.isOperand inside), Nat.mul_zero]

theorem length_waiting_operator (h : ChainRules rules) (alternating : Alternating rules tokens)
    (inside : 2 * j + 1 < tokens.length) :
    (enumerate rules "$EBO" (tokens.take (2 * j + 1 + 1))).length =
      (enumerate rules "$E" (tokens.take (2 * j + 1))).length *
        readings rules tokens[2 * j + 1] := by
  rw [← List.take_append_getElem inside, h.length_waiting,
    h.countLexical_operator (alternating.isOperator inside)]

/-- The cuts after an operator give the products of the Catalan recursion, and the others give
nothing. -/
theorem length_alternating (h : ChainRules rules) {k : ℕ} (alternating : Alternating rules tokens)
    (length : tokens.length = 2 * k + 1) :
    (enumerate rules "$E" tokens).length = catalan k * (tokens.map (readings rules)).prod := by
  induction k using Nat.strong_induction_on generalizing tokens with
  | _ k ih =>
    rw [h.length_operands]
    cases k with
    | zero =>
      obtain ⟨word, rfl⟩ := List.length_eq_one_iff.mp length
      have operand : IsOperand rules word := alternating.isOperand (i := 0) (by simp)
      simp [h.countLexical_operand operand]
    | succ k =>
      have long : tokens.length ≠ 1 := by omega
      have cuts : tokens.length - 1 = 2 * (k + 1) := by omega
      rw [h.countLexical_eq_zero long, Nat.zero_add, cuts, sum_range_two_mul, catalan_succ,
        Fin.sum_univ_eq_sum_range (fun j => catalan j * catalan (k - j)), Finset.sum_mul]
      refine Finset.sum_congr rfl fun j inside => ?_
      have bound : j < k + 1 := Finset.mem_range.mp inside
      have operator : 2 * j + 1 < tokens.length := by omega
      have left := ih j bound (alternating.take (2 * j + 1)) (by rw [List.length_take]; omega)
      have right : (enumerate rules "$E" (tokens.drop (2 * j + 1 + 1))).length = _ :=
        ih (k - j) (by omega) (alternating.drop (j + 1)) (by rw [List.length_drop]; omega)
      have product := prod_map_cut (readings rules) operator
      calc (enumerate rules "$EBO" (tokens.take (2 * j + 1))).length *
              (enumerate rules "$E" (tokens.drop (2 * j + 1))).length +
            (enumerate rules "$EBO" (tokens.take (2 * j + 1 + 1))).length *
              (enumerate rules "$E" (tokens.drop (2 * j + 1 + 1))).length
          = catalan j * ((tokens.take (2 * j + 1)).map (readings rules)).prod *
              readings rules tokens[2 * j + 1] *
              (catalan (k - j) * ((tokens.drop (2 * j + 1 + 1)).map (readings rules)).prod) := by
            rw [h.length_waiting_operand alternating (by omega), Nat.zero_mul, Nat.zero_add,
              h.length_waiting_operator alternating operator, left, right]
        _ = catalan j * catalan (k - j) * (tokens.map (readings rules)).prod := by
            rw [product]
            ring

end ChainRules

/-- The number of derivations of a row of operands and operators is a Catalan number, the ways to
bracket it, times the readings of each word. -/
theorem Grammar.chains_have_catalan_many {rules : List Rule} (chains : ChainRules rules)
    {grammar : Grammar} (built : Built grammar rules)
    (start : grammar.startCategory = Category.sentence) {sentence : String}
    (alternating : Alternating rules (Text.words sentence)) {k : ℕ}
    (length : (Text.words sentence).length = 2 * k + 1) :
    (grammar.parse sentence).length =
      catalan k * ((Text.words sentence).map (readings rules)).prod := by
  rw [parse_eq built, start]
  exact chains.length_alternating alternating length

namespace Grammar

def sumRules : List Rule :=
  [Rule.lexical "$E" "one" (.int 1), Rule.lexical "$E" "two" (.int 2),
    Rule.lexical "$E" "one" (.int 11), Rule.lexical "$BinOp" "plus" (.symbol "+"),
    Rule.ofText "$EBO" "$E $BinOp" (.combinator ⟨0, fun children => .list children.reverse⟩),
    Rule.ofText "$E" "$EBO $E" (.combinator ⟨1, fun children => .list children⟩)]

theorem sumRules_chains : ChainRules sumRules where
  each := by
    simp only [sumRules, List.forall_mem_cons, List.not_mem_nil, false_implies, implies_true,
      and_true]
    exact ⟨.operand "one" ⟨rfl, rfl, rfl⟩, .operand "two" ⟨rfl, rfl, rfl⟩,
      .operand "one" ⟨rfl, rfl, rfl⟩, .operator "plus" ⟨rfl, rfl, rfl⟩, .waiting rfl rfl,
      .combination rfl rfl⟩
  waiting := rfl
  combination := rfl
  apart := by
    have separate : ∀ rule ∈ sumRules, ∀ other ∈ sumRules, rule.lhs = "$E" →
        other.lhs = "$BinOp" → rule.rhs ≠ other.rhs := by decide
    rintro word ⟨rule, member, operand⟩ ⟨other, member', operator⟩
    exact separate rule member other member' operand.lhs operator.lhs
      (operand.rhs.trans operator.rhs.symm)

theorem sumRules_alternating : Alternating sumRules ["one", "plus", "two", "plus", "one"] := by
  have one : IsOperand sumRules "one" := ⟨sumRules[0], by simp [sumRules], rfl, rfl, rfl⟩
  have two : IsOperand sumRules "two" := ⟨sumRules[1], by simp [sumRules], rfl, rfl, rfl⟩
  have plus : IsOperator sumRules "plus" := ⟨sumRules[3], by simp [sumRules], rfl, rfl, rfl⟩
  intro i word found
  match i with
  | 0 | 4 => cases found; exact one
  | 1 | 3 => cases found; exact plus
  | 2 => cases found; exact two
  | i + 5 => simp at found

theorem sum_has_eight_derivations :
    ChainRules sumRules ∧ ∃ grammar, ofRules sumRules = .ok grammar ∧
      Alternating sumRules (Text.words "one plus two plus one") ∧
      (grammar.parse "one plus two plus one").length = 8 := by
  obtain ⟨grammar, made⟩ : ∃ grammar, ofRules sumRules = .ok grammar := ⟨_, rfl⟩
  have words : Text.words "one plus two plus one" = ["one", "plus", "two", "plus", "one"] := rfl
  have alternating : Alternating sumRules (Text.words "one plus two plus one") :=
    words ▸ sumRules_alternating
  have count := chains_have_catalan_many sumRules_chains (built_of_ofRules made)
    (startCategory_ofRules made) alternating (k := 2) rfl
  refine ⟨sumRules_chains, grammar, made, alternating, count.trans ?_⟩
  rw [catalan_two, words]
  decide

end Grammar

end SemanticParsing
