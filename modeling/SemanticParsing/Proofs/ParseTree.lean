import SemanticParsing.Proofs.CompleteChart
/-!
Parse trees apart from the parser: nodes are labelled by occurrences of rules, and nothing is said
of meanings or of the order in which trees are found. Main statements: the parser returns nothing
but the well-formed trees over a sentence, and it returns each of them exactly once.
-/
namespace SemanticParsing

inductive ParseTree where
  | leaf (use : Occurrence) (tokens : List String)
  | node (use : Occurrence) (left right : ParseTree)

namespace ParseTree

def category : ParseTree → String
  | leaf use _ | node use _ _ => use.rule.lhs

def leaves : ParseTree → List String
  | leaf _ tokens => tokens
  | node _ left right => left.leaves ++ right.leaves

/-- Every leaf has the whole phrase of a lexical rule, and every other node two trees whose
categories are those of a binary rule. -/
def WellFormed (rules : List Rule) : ParseTree → Prop
  | leaf use tokens =>
    use ∈ occurrences rules ∧ use.rule.isLexical = true ∧ use.rule.rhs = tokens
  | node use left right =>
    use ∈ occurrences rules ∧ use.rule.pair? = some (left.category, right.category) ∧
      left.WellFormed rules ∧ right.WellFormed rules

/-- The derivation of a tree, its meanings computed from the leaves up. -/
def derivation : ParseTree → Derivation
  | leaf use tokens => .ofTokens use tokens
  | node use left right => .ofPair use left.derivation right.derivation

end ParseTree

def Derivation.tree : Derivation → ParseTree
  | leaf use tokens _ => .leaf use tokens
  | node use left right _ => .node use left.tree right.tree

namespace ParseTree

theorem tree_derivation (t : ParseTree) : t.derivation.tree = t := by
  induction t with
  | leaf use tokens => rfl
  | node use left right ihLeft ihRight =>
    simp [derivation, Derivation.ofPair, Derivation.tree, ihLeft, ihRight]

theorem category_derivation (t : ParseTree) : t.derivation.category = t.category := by
  cases t <;> rfl

theorem leaves_derivation (t : ParseTree) : t.derivation.leaves = t.leaves := by
  induction t with
  | leaf use tokens => rfl
  | node use left right ihLeft ihRight =>
    simp [derivation, Derivation.ofPair, Derivation.leaves, leaves, ihLeft, ihRight]

theorem meaning_derivation (t : ParseTree) :
    t.derivation.meaning = t.derivation.computedMeaning := by
  induction t with
  | leaf use tokens => rfl
  | node use left right ihLeft ihRight =>
    simp [derivation, Derivation.ofPair, Derivation.meaning, Derivation.computedMeaning,
      ← ihLeft, ← ihRight]

theorem leaves_ne_nil {rules : List Rule} {t : ParseTree} (h : t.WellFormed rules) :
    t.leaves ≠ [] := by
  induction t with
  | leaf use tokens =>
    obtain ⟨_, lexical, rfl⟩ := h
    exact Rule.rhs_ne_nil_of_isLexical lexical
  | node use left right ihLeft ihRight =>
    simp [leaves, ihLeft h.2.2.1]

end ParseTree

theorem mem_lexicalUses {rules : List Rule} {tokens : List String} {use : Occurrence} :
    use ∈ lexicalUses rules tokens ↔
      use ∈ occurrences rules ∧ use.rule.isLexical = true ∧ use.rule.rhs = tokens := by
  simp [lexicalUses]

theorem mem_binaryUses {rules : List Rule} {pair : CategoryPair} {use : Occurrence} :
    use ∈ binaryUses rules pair ↔ use ∈ occurrences rules ∧ use.rule.pair? = some pair := by
  simp [binaryUses]

theorem mem_categoryPairs {rules : List Rule} {pair : CategoryPair} {use : Occurrence}
    (h : use ∈ binaryUses rules pair) : pair ∈ categoryPairs rules := by
  obtain ⟨member, known⟩ := mem_binaryUses.mp h
  exact List.mem_eraseDups.mpr
    (List.mem_filterMap.mpr ⟨use.rule, rule_mem_of_mem_occurrences member, known⟩)

theorem mem_terminalDerivations {rules : List Rule} {category : String} {tokens : List String}
    {d : Derivation} :
    d ∈ terminalDerivations rules category tokens ↔
      ∃ use ∈ lexicalUses rules tokens, use.rule.lhs = category ∧
        Derivation.ofTokens use tokens = d := by
  simp [terminalDerivations, and_assoc]

theorem mem_combine {uses : List Occurrence} {lefts rights : List Derivation} {d : Derivation} :
    d ∈ Grammar.combine uses lefts rights ↔
      ∃ use ∈ uses, ∃ left ∈ lefts, ∃ right ∈ rights, Derivation.ofPair use left right = d := by
  simp [Grammar.combine]

theorem mem_pairDerivations {rules : List Rule} {category : String} {tokens : List String}
    {parts : String → List String → List Derivation} {d : Derivation} :
    d ∈ pairDerivations rules category parts tokens ↔
      ∃ cut ∈ cuts tokens, ∃ pair ∈ categoryPairs rules, ∃ use ∈ binaryUses rules pair,
        use.rule.lhs = category ∧ ∃ left ∈ parts pair.1 cut.1, ∃ right ∈ parts pair.2 cut.2,
          Derivation.ofPair use left right = d := by
  simp [pairDerivations, Grammar.combine, and_assoc]

/-- The enumeration misses no well-formed tree. -/
theorem derivation_mem_enumerate {rules : List Rule} {t : ParseTree} (h : t.WellFormed rules) :
    t.derivation ∈ enumerate rules t.category t.leaves := by
  induction t with
  | leaf use tokens =>
    rw [enumerate_eq, List.mem_append]
    exact .inl (mem_terminalDerivations.mpr ⟨use, mem_lexicalUses.mpr h, rfl, rfl⟩)
  | node use left right ihLeft ihRight =>
    obtain ⟨member, pair, wellLeft, wellRight⟩ := h
    have known : use ∈ binaryUses rules (left.category, right.category) :=
      mem_binaryUses.mpr ⟨member, pair⟩
    have cut : (left.leaves, right.leaves) ∈ cuts (ParseTree.node use left right).leaves :=
      mem_cuts.mpr ⟨ParseTree.leaves_ne_nil wellLeft, ParseTree.leaves_ne_nil wellRight, rfl⟩
    rw [enumerate_eq, List.mem_append]
    exact .inr (mem_pairDerivations.mpr ⟨_, cut, _, mem_categoryPairs known, use, known, rfl,
      _, ihLeft wellLeft, _, ihRight wellRight, rfl⟩)

/-- The enumeration gives nothing but the derivations of well-formed trees. -/
theorem exists_tree_of_mem_enumerate {rules : List Rule} {category : String}
    {tokens : List String} {d : Derivation} (h : d ∈ enumerate rules category tokens) :
    ∃ t : ParseTree, t.WellFormed rules ∧ t.category = category ∧ t.leaves = tokens ∧
      t.derivation = d := by
  induction category, tokens using enumerate.induct generalizing d with
  | case1 category tokens ihRight ihLeft =>
    rw [enumerate_eq, List.mem_append] at h
    cases h with
    | inl terminal =>
      obtain ⟨use, known, rfl, rfl⟩ := mem_terminalDerivations.mp terminal
      exact ⟨.leaf use tokens, mem_lexicalUses.mp known, rfl, rfl, rfl⟩
    | inr pairs =>
      obtain ⟨cut, inCuts, pair, _, use, known, rfl, left, inLeft, right, inRight, rfl⟩ :=
        mem_pairDerivations.mp pairs
      obtain ⟨leftTree, wellLeft, sameLeft, leavesLeft, rfl⟩ := ihLeft ⟨cut, inCuts⟩ pair inLeft
      obtain ⟨rightTree, wellRight, sameRight, leavesRight, rfl⟩ :=
        ihRight ⟨cut, inCuts⟩ pair inRight
      obtain ⟨member, labels⟩ := mem_binaryUses.mp known
      refine ⟨.node use leftTree rightTree, ⟨member, ?_, wellLeft, wellRight⟩, rfl, ?_, rfl⟩
      · rw [labels, sameLeft, sameRight]
      · rw [ParseTree.leaves, leavesLeft, leavesRight]
        exact (mem_cuts.mp inCuts).2.2

theorem mem_enumerate_iff {rules : List Rule} {category : String} {tokens : List String}
    {d : Derivation} :
    d ∈ enumerate rules category tokens ↔
      ∃ t : ParseTree, t.WellFormed rules ∧ t.category = category ∧ t.leaves = tokens ∧
        t.derivation = d := by
  refine ⟨exists_tree_of_mem_enumerate, ?_⟩
  rintro ⟨t, well, rfl, rfl, rfl⟩
  exact derivation_mem_enumerate well

theorem leaves_of_mem_enumerate {rules : List Rule} {category : String} {tokens : List String}
    {d : Derivation} (h : d ∈ enumerate rules category tokens) : d.leaves = tokens := by
  obtain ⟨t, _, _, same, rfl⟩ := mem_enumerate_iff.mp h
  rw [ParseTree.leaves_derivation, same]

theorem nodup_flatMap_of_separate {α β : Type} {xs : List α} {f : α → List β}
    (distinct : xs.Nodup) (each : ∀ x ∈ xs, (f x).Nodup)
    (separate : ∀ x ∈ xs, ∀ y ∈ xs, ∀ z, z ∈ f x → z ∈ f y → x = y) : (xs.flatMap f).Nodup := by
  refine List.nodup_flatMap.mpr ⟨each, distinct.pairwise_of_forall_ne ?_⟩
  intro x inX y inY different z zx zy
  exact different (separate x inX y inY z zx zy)

theorem combine_nodup {uses : List Occurrence} {lefts rights : List Derivation}
    (distinctUses : uses.Nodup) (distinctLefts : lefts.Nodup) (distinctRights : rights.Nodup) :
    (Grammar.combine uses lefts rights).Nodup := by
  refine nodup_flatMap_of_separate distinctUses (fun use _ => ?_) ?_
  · refine nodup_flatMap_of_separate distinctLefts (fun left _ => ?_) ?_
    · refine distinctRights.map fun right other same => ?_
      simp only [Derivation.ofPair, Derivation.node.injEq] at same
      exact same.2.2.1
    · intro left _ other _ d inLeft inOther
      simp only [List.mem_map] at inLeft inOther
      obtain ⟨_, _, rfl⟩ := inLeft
      obtain ⟨_, _, same⟩ := inOther
      simp only [Derivation.ofPair, Derivation.node.injEq] at same
      exact same.2.1.symm
  · intro use _ other _ d inUse inOther
    simp only [List.mem_flatMap, List.mem_map] at inUse inOther
    obtain ⟨_, _, _, _, rfl⟩ := inUse
    obtain ⟨_, _, _, _, same⟩ := inOther
    simp only [Derivation.ofPair, Derivation.node.injEq] at same
    exact same.1.symm

theorem cuts_nodup (tokens : List String) : (cuts tokens).Nodup := by
  refine List.Nodup.map_on (fun short inShort long inLong same => ?_) (List.nodup_range' 1)
  have lengths := congrArg (·.1.length) same
  simp only [List.mem_range'_1, List.length_take] at inShort inLong lengths
  omega

/-- The enumeration gives no derivation twice: a derivation shows its cut, its pair, its rule and
its two parts. -/
theorem enumerate_nodup (rules : List Rule) (category : String) (tokens : List String) :
    (enumerate rules category tokens).Nodup := by
  induction category, tokens using enumerate.induct with
  | case1 category tokens ihRight ihLeft =>
    rw [enumerate_eq]
    refine List.nodup_append.mpr ⟨?terminals, ?pairs, ?apart⟩
    case terminals =>
      refine List.Nodup.map (fun use other same => ?_)
        (((occurrences_nodup rules).filter _).filter _)
      simp only [Derivation.ofTokens, Derivation.leaf.injEq] at same
      exact same.1
    case pairs =>
      refine nodup_flatMap_of_separate (cuts_nodup tokens) (fun cut inCuts => ?_) ?_
      · refine nodup_flatMap_of_separate (categoryPairs_nodup rules) (fun pair _ => ?_) ?_
        · exact combine_nodup (((occurrences_nodup rules).filter _).filter _)
            (ihLeft ⟨cut, inCuts⟩ pair) (ihRight ⟨cut, inCuts⟩ pair)
        · intro pair _ other _ d inPair inOther
          obtain ⟨use, known, _, _, _, _, rfl⟩ := mem_combine.mp inPair
          obtain ⟨_, knownOther, _, _, _, _, same⟩ := mem_combine.mp inOther
          simp only [Derivation.ofPair, Derivation.node.injEq] at same
          obtain ⟨rfl, _⟩ := same
          have labels := (mem_binaryUses.mp (List.mem_of_mem_filter known)).2
          have labelsOther := (mem_binaryUses.mp (List.mem_of_mem_filter knownOther)).2
          exact Option.some.inj (labels.symm.trans labelsOther)
      · intro cut _ other _ d inCut inOther
        obtain ⟨pair, _, combined⟩ := List.mem_flatMap.mp inCut
        obtain ⟨pairOther, _, combinedOther⟩ := List.mem_flatMap.mp inOther
        obtain ⟨use, _, left, inLeft, right, inRight, rfl⟩ := mem_combine.mp combined
        obtain ⟨_, _, _, inLeftOther, _, inRightOther, same⟩ := mem_combine.mp combinedOther
        simp only [Derivation.ofPair, Derivation.node.injEq] at same
        obtain ⟨_, rfl, rfl, _⟩ := same
        exact Prod.ext
          ((leaves_of_mem_enumerate inLeft).symm.trans (leaves_of_mem_enumerate inLeftOther))
          ((leaves_of_mem_enumerate inRight).symm.trans (leaves_of_mem_enumerate inRightOther))
    case apart =>
      intro d terminal other inPairs same
      obtain ⟨_, _, _, rfl⟩ := mem_terminalDerivations.mp terminal
      obtain ⟨_, _, _, _, _, _, _, _, _, _, _, rfl⟩ := mem_pairDerivations.mp inPairs
      simp [Derivation.ofTokens, Derivation.ofPair] at same

namespace Grammar

theorem derivation_tree_of_mem_parse {grammar : Grammar} {rules : List Rule}
    (built : Built grammar rules) {sentence : String} {d : Derivation}
    (h : d ∈ grammar.parse sentence) : d.tree.derivation = d := by
  rw [parse_eq built] at h
  obtain ⟨t, _, _, _, rfl⟩ := exists_tree_of_mem_enumerate h
  rw [t.tree_derivation]

/-- The parser gives every well-formed tree over the words of a sentence, and gives it once. -/
theorem parse_contains_each_tree_once {grammar : Grammar} {rules : List Rule}
    (built : Built grammar rules) (sentence : String) (t : ParseTree)
    (well : t.WellFormed rules) (start : t.category = grammar.startCategory)
    (whole : t.leaves = Text.words sentence) :
    ∃! position : Nat, (grammar.parse sentence)[position]?.map Derivation.tree = some t := by
  have member := derivation_mem_enumerate well
  rw [start, whole, ← parse_eq built] at member
  obtain ⟨position, bound, found⟩ := List.mem_iff_getElem.mp member
  refine ⟨position, by simp [List.getElem?_eq_getElem bound, found, t.tree_derivation], ?_⟩
  intro other shown
  obtain ⟨d, atOther, rfl⟩ := Option.map_eq_some_iff.mp shown
  obtain ⟨boundOther, rfl⟩ := List.getElem?_eq_some_iff.mp atOther
  have distinct : (grammar.parse sentence).Nodup := by
    rw [parse_eq built]
    exact enumerate_nodup ..
  have same : (grammar.parse sentence)[other] = (grammar.parse sentence)[position] := by
    rw [found, derivation_tree_of_mem_parse built (List.getElem_mem boundOther)]
  exact distinct.getElem_inj_iff.mp same

def sampleTree : ParseTree :=
  .node ⟨5, sampleRules[5]⟩
    (.node ⟨4, sampleRules[4]⟩ (.leaf ⟨2, sampleRules[2]⟩ ["twenty", "one"])
      (.leaf ⟨3, sampleRules[3]⟩ ["plus"]))
    (.leaf ⟨1, sampleRules[1]⟩ ["one"])

theorem sampleTree_wellFormed : sampleTree.WellFormed sampleRules := by
  have known := getElem_mem_occurrences sampleRules
  exact ⟨known 5 (by decide), rfl, ⟨known 4 (by decide), rfl, ⟨known 2 (by decide), rfl, rfl⟩,
    known 3 (by decide), rfl, rfl⟩, known 1 (by decide), rfl, rfl⟩

theorem parse_contains_sampleTree_once :
    Built sample sampleRules ∧ sampleTree.WellFormed sampleRules ∧
      sampleTree.category = sample.startCategory ∧
      sampleTree.leaves = Text.words "twenty one plus one" ∧
      ∃! position : Nat,
        (sample.parse "twenty one plus one")[position]?.map Derivation.tree = some sampleTree :=
  ⟨sample_built, sampleTree_wellFormed, rfl, rfl,
    parse_contains_each_tree_once sample_built _ sampleTree sampleTree_wellFormed rfl rfl⟩

/-- The parser gives nothing but the trees over the words of a sentence, each with its meaning. -/
theorem parse_gives_trees {grammar : Grammar} {rules : List Rule} (built : Built grammar rules)
    (sentence : String) (d : Derivation) (h : d ∈ grammar.parse sentence) :
    d.category = grammar.startCategory ∧ d.leaves = Text.words sentence ∧
      d.tree.WellFormed rules ∧ d.meaning = d.computedMeaning := by
  rw [parse_eq built] at h
  obtain ⟨t, well, start, whole, rfl⟩ := exists_tree_of_mem_enumerate h
  rw [t.category_derivation, t.leaves_derivation, t.tree_derivation]
  exact ⟨start, whole, well, t.meaning_derivation⟩

theorem sampleTree_mem_parse : sampleTree.derivation ∈ sample.parse "twenty one plus one" := by
  rw [parse_eq sample_built]
  exact derivation_mem_enumerate sampleTree_wellFormed

theorem parse_gives_sampleTree :
    Built sample sampleRules ∧ sampleTree.derivation ∈ sample.parse "twenty one plus one" ∧
      sampleTree.derivation.category = sample.startCategory ∧
      sampleTree.derivation.leaves = Text.words "twenty one plus one" ∧
      sampleTree.derivation.tree.WellFormed sampleRules ∧
      sampleTree.derivation.meaning = sampleTree.derivation.computedMeaning :=
  ⟨sample_built, sampleTree_mem_parse, parse_gives_trees sample_built _ _ sampleTree_mem_parse⟩

end Grammar

end SemanticParsing
