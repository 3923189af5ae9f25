import Mathlib.Data.List.Induction
import Mathlib.Data.List.Nodup
import SemanticParsing.Grammar.Basic
import SemanticParsing.Proofs.Words
/-!
What a grammar knows of the rules that were added to it. The rules are kept apart from the
grammar, as a list in the order in which they were accepted, and every look-up in the grammar is
a filter of that list.
-/
namespace SemanticParsing

def occurrences (rules : List Rule) : List Occurrence :=
  rules.mapIdx fun position rule => ⟨position, rule⟩

theorem occurrences_concat (rules : List Rule) (rule : Rule) :
    occurrences (rules ++ [rule]) = occurrences rules ++ [⟨rules.length, rule⟩] := by
  simp [occurrences]

theorem map_rule_occurrences (rules : List Rule) :
    (occurrences rules).map Occurrence.rule = rules := by
  apply List.ext_getElem <;> simp [occurrences]

theorem occurrences_nodup (rules : List Rule) : (occurrences rules).Nodup := by
  apply List.Nodup.of_map Occurrence.position
  have positions : (occurrences rules).map Occurrence.position = List.range rules.length := by
    apply List.ext_getElem <;> simp [occurrences]
  rw [positions]
  exact List.nodup_range

theorem mem_occurrences_iff {rules : List Rule} {use : Occurrence} :
    use ∈ occurrences rules ↔ rules[use.position]? = some use.rule := by
  rw [occurrences, List.mem_mapIdx, List.getElem?_eq_some_iff]
  constructor
  · rintro ⟨position, bound, rfl⟩
    exact ⟨bound, rfl⟩
  · rintro ⟨bound, same⟩
    exact ⟨use.position, bound, by rw [same]⟩

theorem getElem_mem_occurrences (rules : List Rule) (position : Nat)
    (h : position < rules.length) : ⟨position, rules[position]⟩ ∈ occurrences rules :=
  mem_occurrences_iff.mpr (List.getElem?_eq_getElem h)

theorem rule_mem_of_mem_occurrences {rules : List Rule} {use : Occurrence}
    (h : use ∈ occurrences rules) : use.rule ∈ rules :=
  List.mem_of_getElem? (mem_occurrences_iff.mp h)

theorem exists_occurrence {rules : List Rule} {rule : Rule} (member : rule ∈ rules) :
    ∃ use ∈ occurrences rules, use.rule = rule := by
  obtain ⟨position, found⟩ := List.mem_iff_getElem?.mp member
  exact ⟨⟨position, rule⟩, mem_occurrences_iff.mpr found, rfl⟩

namespace Rule

theorem pair?_eq_none_of_isLexical {rule : Rule} (h : rule.isLexical = true) :
    rule.pair? = none := by
  simp only [isLexical, Bool.and_eq_true, List.all_eq_true] at h
  unfold pair?
  split
  · rename_i left right labels
    have terminal := h.2 left (by simp [labels])
    simp only [Bool.not_eq_true'] at terminal
    simp [terminal]
  · rfl

theorem rhs_of_pair? {rule : Rule} {left right : String}
    (h : rule.pair? = some (left, right)) : rule.rhs = [left, right] := by
  unfold pair? at h
  split at h
  · rename_i first second labels
    split at h
    · cases h
      exact labels
    · cases h
  · cases h

theorem isLexical_of_shape {rule : Rule} (h : rule.shape = .ok .lexical) :
    rule.isLexical = true := by
  unfold shape at h
  grind

theorem of_shape_binary {rule : Rule} {left right : String}
    (h : rule.shape = .ok (.binary left right)) :
    rule.isLexical = false ∧ rule.pair? = some (left, right) := by
  unfold shape at h
  grind

theorem rhs_ne_nil_of_isLexical {rule : Rule} (h : rule.isLexical = true) : rule.rhs ≠ [] := by
  intro none
  simp [isLexical, none] at h

/-- A grammar can use the rule. -/
def Accepted (rule : Rule) : Prop := ∃ shape, rule.shape = .ok shape

theorem accepted_iff {rule : Rule} :
    rule.Accepted ↔ Category.isCategory rule.lhs ∧
      ((rule.isLexical ∧ ∃ v, rule.semantics = .literal v) ∨
        (rule.isLexical = false ∧ rule.isBinary)) := by
  unfold Accepted shape isBinary
  cases Category.isCategory rule.lhs with
  | false => simp
  | true =>
    cases rule.isLexical with
    | true => cases rule.semantics <;> simp
    | false => cases rule.pair? <;> simp

theorem Accepted.literal {rule : Rule} (h : rule.Accepted) (lexical : rule.isLexical) :
    ∃ v, rule.semantics = .literal v := by
  obtain ⟨-, shape⟩ := accepted_iff.mp h
  simpa [lexical] using shape

end Rule

/-- The lexical rules of a phrase, in the order in which they were added. -/
def lexicalUses (rules : List Rule) (tokens : List String) : List Occurrence :=
  (occurrences rules).filter fun use => use.rule.isLexical ∧ use.rule.rhs = tokens

/-- The binary rules of a pair of categories, in the order in which they were added. -/
def binaryUses (rules : List Rule) (pair : CategoryPair) : List Occurrence :=
  (occurrences rules).filter fun use => use.rule.pair? = some pair

/-- The pairs of categories of the binary rules, in the order in which they first appeared. -/
def categoryPairs (rules : List Rule) : List CategoryPair :=
  (rules.filterMap Rule.pair?).eraseDups

theorem lexicalUses_concat (rules : List Rule) (rule : Rule) (tokens : List String) :
    lexicalUses (rules ++ [rule]) tokens = lexicalUses rules tokens ++
      if rule.isLexical ∧ rule.rhs = tokens then [⟨rules.length, rule⟩] else [] := by
  simp [lexicalUses, occurrences_concat, List.filter_singleton]

theorem binaryUses_concat (rules : List Rule) (rule : Rule) (pair : CategoryPair) :
    binaryUses (rules ++ [rule]) pair = binaryUses rules pair ++
      if rule.pair? = some pair then [⟨rules.length, rule⟩] else [] := by
  simp [binaryUses, occurrences_concat, List.filter_singleton]

theorem categoryPairs_concat_of_none (rules : List Rule) {rule : Rule} (h : rule.pair? = none) :
    categoryPairs (rules ++ [rule]) = categoryPairs rules := by
  simp [categoryPairs, h]

theorem eraseDups_concat {α : Type} [BEq α] [LawfulBEq α] (xs : List α) (x : α) :
    (xs ++ [x]).eraseDups = if x ∈ xs.eraseDups then xs.eraseDups else xs.eraseDups ++ [x] := by
  rw [List.eraseDups_append]
  by_cases known : x ∈ xs
  · rw [if_pos (List.mem_eraseDups.mpr known)]
    simp [List.removeAll, known]
  · rw [if_neg (mt List.mem_eraseDups.mp known)]
    simp [List.removeAll, known, List.eraseDups_cons]

theorem eraseDups_nodup {α : Type} [BEq α] [LawfulBEq α] (xs : List α) : xs.eraseDups.Nodup := by
  induction xs using List.reverseRecOn with
  | nil => exact List.nodup_nil
  | append_singleton xs x ih =>
    rw [eraseDups_concat]
    split
    · exact ih
    · rename_i new
      exact List.nodup_append.mpr ⟨ih, List.nodup_singleton x, by grind⟩

theorem categoryPairs_nodup (rules : List Rule) : (categoryPairs rules).Nodup :=
  eraseDups_nodup _

theorem categoryPairs_concat (rules : List Rule) {rule : Rule} {pair : CategoryPair}
    (h : rule.pair? = some pair) :
    categoryPairs (rules ++ [rule]) =
      if pair ∈ categoryPairs rules then categoryPairs rules
      else categoryPairs rules ++ [pair] := by
  have appended :
      (rules ++ [rule]).filterMap Rule.pair? = rules.filterMap Rule.pair? ++ [pair] := by
    simp [h]
  unfold categoryPairs
  rw [appended, eraseDups_concat]

namespace Grammar

/-- The grammars that were made by adding exactly the given rules, in this order and each
accepted. The start category may be set at any time. -/
inductive Built : Grammar → List Rule → Prop
  | empty : Built empty []
  | add {grammar next : Grammar} {rules : List Rule} {rule : Rule} :
      Built grammar rules → grammar.add rule = .ok next → Built next (rules ++ [rule])
  | withStartCategory {grammar : Grammar} {rules : List Rule} (category : String) :
      Built grammar rules → Built (grammar.withStartCategory category) rules

theorem built_of_foldlM {rules accepted : List Rule} {grammar last : Grammar}
    (built : Built grammar accepted) (h : rules.foldlM add grammar = .ok last) :
    Built last (accepted ++ rules) := by
  induction rules generalizing grammar accepted with
  | nil =>
    obtain rfl : grammar = last := Except.ok.inj h
    simpa using built
  | cons rule rules ih =>
    rw [List.foldlM_cons] at h
    cases added : grammar.add rule with
    | error e => simp [added, bind, Except.bind] at h
    | ok next =>
      rw [added] at h
      have later := ih (built.add added) h
      simpa using later

theorem built_of_ofRules {rules : List Rule} {grammar : Grammar}
    (h : ofRules rules = .ok grammar) : Built grammar rules :=
  built_of_foldlM .empty h

theorem exists_add_iff {grammar : Grammar} {rule : Rule} :
    (∃ next, grammar.add rule = .ok next) ↔ rule.Accepted := by
  unfold add Rule.Accepted
  cases rule.shape with
  | error e => simp [bind, Except.bind]
  | ok shape => cases shape <;> simp [bind, Except.bind, pure, Except.pure]

/-- A list of rules makes a grammar just when each of them is accepted. -/
theorem exists_ofRules_iff {rules : List Rule} :
    (∃ grammar, ofRules rules = .ok grammar) ↔ ∀ rule ∈ rules, rule.Accepted := by
  suffices ∀ grammar : Grammar,
      (∃ last, rules.foldlM add grammar = .ok last) ↔ ∀ rule ∈ rules, rule.Accepted from this empty
  induction rules with
  | nil => exact fun grammar => by simp [pure, Except.pure]
  | cons rule rules ih =>
    intro grammar
    rw [List.foldlM_cons, List.forall_mem_cons, ← @exists_add_iff grammar]
    cases added : grammar.add rule with
    | error e => simp [bind, Except.bind]
    | ok next => simpa [bind, Except.bind] using ih next

def sampleRules : List Rule :=
  [Rule.lexical "$E" "one" (.int 1), Rule.lexical "$E" "one" (.int 1),
    Rule.lexical "$E" "twenty one" (.int 21), Rule.lexical "$BinOp" "plus" (.symbol "+"),
    Rule.ofText "$EBO" "$E $BinOp" (.combinator ⟨0, fun children => .list children.reverse⟩),
    Rule.ofText "$E" "$EBO $E" (.combinator ⟨1, fun children => .list children⟩)]

def sample : Grammar := (ofRules sampleRules).toOption.getD empty

def ambiguous : Grammar :=
  (ofRules [Rule.lexical "$E" "x" (.int 1), Rule.lexical "$E" "x" (.int 2)]).toOption.getD empty

theorem sample_built : Built sample sampleRules := built_of_ofRules rfl

theorem add_cases {grammar next : Grammar} {rule : Rule} (h : grammar.add rule = .ok next) :
    (rule.isLexical = true ∧ next = grammar.addLexical rule) ∨
    ∃ pair, rule.isLexical = false ∧ rule.pair? = some pair ∧
      next = grammar.addBinary pair rule := by
  unfold add at h
  cases known : rule.shape with
  | error e => simp [known, bind, Except.bind] at h
  | ok shape =>
    rw [known] at h
    cases shape with
    | lexical => exact .inl ⟨Rule.isLexical_of_shape known, (Except.ok.inj h).symm⟩
    | binary left right =>
      obtain ⟨notLexical, pair⟩ := Rule.of_shape_binary known
      exact .inr ⟨(left, right), notLexical, pair, (Except.ok.inj h).symm⟩

theorem startCategory_add {grammar next : Grammar} {rule : Rule}
    (h : grammar.add rule = .ok next) : next.startCategory = grammar.startCategory := by
  obtain ⟨-, rfl⟩ | ⟨pair, -, -, rfl⟩ := add_cases h
  · rfl
  · rfl

theorem startCategory_ofRules {rules : List Rule} {grammar : Grammar}
    (h : ofRules rules = .ok grammar) : grammar.startCategory = Category.sentence := by
  suffices ∀ start : Grammar, rules.foldlM add start = .ok grammar →
      grammar.startCategory = start.startCategory from this empty h
  clear h
  induction rules with
  | nil =>
    intro start same
    rw [Except.ok.inj same]
  | cons rule rules ih =>
    intro start added
    rw [List.foldlM_cons] at added
    cases first : start.add rule with
    | error e => simp [first, bind, Except.bind] at added
    | ok next =>
      rw [first] at added
      rw [ih next added, startCategory_add first]

/-- The fields of a grammar as functions of the rules that it was made of. -/
structure Indexes (grammar : Grammar) (rules : List Rule) : Prop where
  nextPosition : grammar.nextPosition = rules.length
  lexical : ∀ tokens, (∀ token ∈ tokens, Text.IsWord token) →
    grammar.lexical.items (Text.phrase tokens) = lexicalUses rules tokens
  longest : ∀ rule ∈ rules, rule.isLexical = true → rule.rhs.length ≤ grammar.longestPhrase
  binary : ∀ pair, grammar.binary.items pair = binaryUses rules pair
  mem_binary_iff : ∀ pair, pair ∈ grammar.binary ↔ pair ∈ categoryPairs rules
  binaryOrder : grammar.binaryOrder = categoryPairs rules

theorem Indexes.addLexical {grammar : Grammar} {rules : List Rule} {rule : Rule}
    (known : Indexes grammar rules) (lexical : rule.isLexical = true) :
    Indexes (grammar.addLexical rule) (rules ++ [rule]) where
  nextPosition := by simp [Grammar.addLexical, known.nextPosition]
  lexical := by
    intro tokens words
    have key := Text.phrase_inj rule.isWord_of_mem words
    simp only [Grammar.addLexical, Index.items_file, key, lexicalUses_concat, known.nextPosition]
    by_cases same : rule.rhs = tokens
    · subst same
      simp [lexical, known.lexical _ words]
    · simp [same, known.lexical _ words]
  longest := by
    intro other member isLexical
    simp only [Grammar.addLexical]
    cases List.mem_append.mp member with
    | inl old => exact Nat.le_trans (known.longest other old isLexical) (Nat.le_max_left _ _)
    | inr new =>
      obtain rfl := List.mem_singleton.mp new
      exact Nat.le_max_right _ _
  binary := by
    intro pair
    simp [Grammar.addLexical, binaryUses_concat, known.binary,
      Rule.pair?_eq_none_of_isLexical lexical]
  mem_binary_iff := by
    intro pair
    rw [categoryPairs_concat_of_none _ (Rule.pair?_eq_none_of_isLexical lexical)]
    exact known.mem_binary_iff pair
  binaryOrder := by
    rw [categoryPairs_concat_of_none _ (Rule.pair?_eq_none_of_isLexical lexical)]
    exact known.binaryOrder

theorem Indexes.addBinary {grammar : Grammar} {rules : List Rule} {rule : Rule}
    {pair : CategoryPair} (known : Indexes grammar rules) (notLexical : rule.isLexical = false)
    (h : rule.pair? = some pair) : Indexes (grammar.addBinary pair rule) (rules ++ [rule]) where
  nextPosition := by simp [Grammar.addBinary, known.nextPosition]
  lexical := by
    intro tokens words
    simp [Grammar.addBinary, lexicalUses_concat, notLexical, known.lexical _ words]
  longest := by
    intro other member isLexical
    cases List.mem_append.mp member with
    | inl old => exact known.longest other old isLexical
    | inr new =>
      obtain rfl := List.mem_singleton.mp new
      simp [notLexical] at isLexical
  binary := by
    intro other
    simp only [Grammar.addBinary, Index.items_file, binaryUses_concat, h, Option.some.injEq,
      known.nextPosition, known.binary]
    by_cases same : pair = other
    · subst same
      simp
    · simp [same]
  mem_binary_iff := by
    intro other
    simp only [Grammar.addBinary, Index.mem_file, known.mem_binary_iff, categoryPairs_concat _ h]
    grind
  binaryOrder := by
    simp only [Grammar.addBinary, known.mem_binary_iff, known.binaryOrder,
      categoryPairs_concat _ h]

theorem Built.indexes {grammar : Grammar} {rules : List Rule} (h : Built grammar rules) :
    Indexes grammar rules := by
  induction h with
  | empty =>
    constructor <;> simp [Grammar.empty, occurrences, lexicalUses, binaryUses, categoryPairs,
      Index.items_empty]
  | add _ added known =>
    obtain ⟨lexical, rfl⟩ | ⟨pair, notLexical, h, rfl⟩ := add_cases added
    · exact known.addLexical lexical
    · exact known.addBinary notLexical h
  | withStartCategory category _ known =>
    exact ⟨known.nextPosition, known.lexical, known.longest, known.binary, known.mem_binary_iff,
      known.binaryOrder⟩

end Grammar

end SemanticParsing
