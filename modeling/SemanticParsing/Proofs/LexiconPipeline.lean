import SemanticParsing.Lexicon
import SemanticParsing.Proofs.Action
import SemanticParsing.Proofs.ParseTree
import SemanticParsing.Proofs.ScopeAction
import SemanticParsing.Proofs.StandardScope
/-! From examples to a grammar: the rules that are synthesized for the tokens of some examples, and
what they parse. -/
namespace SemanticParsing

namespace Rule

variable {category token : String} {meaning : Value}

theorem rhs_lexical (word : Text.IsWord token) :
    (lexical category token meaning).rhs = [token] :=
  Text.words_of_isWord word

theorem isLexical_lexical (word : Text.IsWord token)
    (terminal : Category.isCategory token = false) :
    (lexical category token meaning).isLexical := by
  simp [isLexical, rhs_lexical word, terminal]

theorem accepted_lexical (word : Text.IsWord token) (sigil : Category.isCategory category)
    (terminal : Category.isCategory token = false) :
    (lexical category token meaning).Accepted :=
  accepted_iff.mpr ⟨sigil, .inl ⟨isLexical_lexical word terminal, meaning, rfl⟩⟩

end Rule

namespace Lexicon

variable {σ : Type}

theorem mem_gatherTokens {examples : List Example} {token : String} :
    token ∈ gatherTokens examples ↔ ∃ e ∈ examples, token ∈ e.tokens := by
  simp [gatherTokens]

theorem isWord_of_mem_gatherTokens {examples : List Example} {token : String}
    (h : token ∈ gatherTokens examples) : Text.IsWord token := by
  obtain ⟨e, -, member⟩ := mem_gatherTokens.mp h
  exact Text.isWord_of_mem_words e.input token member

theorem mem_product {tokens : List String} {meanings : List Value} {categories : List String}
    {rule : Rule} :
    rule ∈ product tokens meanings categories ↔ ∃ token ∈ tokens, ∃ meaning ∈ meanings,
      ∃ category ∈ categories, Rule.lexical category token meaning = rule := by
  simp [product]

theorem classify_eq (executor : Executor σ) (meanings : List Value) :
    classify executor meanings =
      (fun outputs => meanings.zip (outputs.map Value.isProcedure)) <$> meanings.mapM executor := by
  induction meanings with
  | nil => simp [classify]
  | cons meaning meanings ih =>
    rw [classify] at ih ⊢
    rw [List.mapM_cons, List.mapM_cons, ih]
    simp

def meaningsOfKind (meanings outputs : List Value) (isProcedure : Bool) : List Value :=
  ((meanings.zip (outputs.map Value.isProcedure)).filter (·.2 = isProcedure)).map (·.1)

theorem mem_meaningsOfKind {meanings outputs : List Value} {isProcedure : Bool} {meaning : Value} :
    meaning ∈ meaningsOfKind meanings outputs isProcedure ↔
      ∃ output, (meaning, output) ∈ meanings.zip outputs ∧ output.isProcedure = isProcedure := by
  simp only [meaningsOfKind, List.zip_map_right, List.mem_map, List.mem_filter, decide_eq_true_eq]
  constructor
  · rintro ⟨_, ⟨⟨pair, member, rfl⟩, rfl⟩, rfl⟩
    exact ⟨pair.2, member, rfl⟩
  · rintro ⟨output, member, rfl⟩
    exact ⟨_, ⟨⟨_, member, rfl⟩, rfl⟩, rfl⟩

def synthesized (tokens : List String) (meanings outputs : List Value)
    (categories : List String) : List Rule :=
  let ofKind (isProcedure : Bool) :=
    product tokens (meaningsOfKind meanings outputs isProcedure)
      (categories.filter (Category.isOperator · = isProcedure))
  ofKind true ++ ofKind false

theorem synthesize_eq (executor : Executor σ) (tokens : List String) (meanings : List Value)
    (categories : List String) :
    synthesize executor tokens meanings categories =
      (synthesized tokens meanings · categories) <$> meanings.mapM executor := by
  simp [synthesize, classify_eq, synthesized, meaningsOfKind]

theorem mem_synthesized {tokens : List String} {meanings outputs : List Value}
    {categories : List String} {rule : Rule} :
    rule ∈ synthesized tokens meanings outputs categories ↔ ∃ token ∈ tokens,
      ∃ meaning output, (meaning, output) ∈ meanings.zip outputs ∧ ∃ category ∈ categories,
        Category.isOperator category = output.isProcedure ∧
          Rule.lexical category token meaning = rule := by
  simp only [synthesized, List.mem_append, mem_product, mem_meaningsOfKind, List.mem_filter,
    decide_eq_true_eq]
  constructor
  · rintro (made | made)
    all_goals
      obtain ⟨token, known, meaning, ⟨output, pair, kind⟩, category, ⟨member, same⟩, rfl⟩ := made
      exact ⟨token, known, meaning, output, pair, category, member, same.trans kind.symm, rfl⟩
  · rintro ⟨token, known, meaning, output, pair, category, member, same, rfl⟩
    cases kind : output.isProcedure with
    | true =>
      exact .inl ⟨token, known, meaning, ⟨output, pair, kind⟩, category, ⟨member, same.trans kind⟩,
        rfl⟩
    | false =>
      exact .inr ⟨token, known, meaning, ⟨output, pair, kind⟩, category, ⟨member, same.trans kind⟩,
        rfl⟩

end Lexicon

/-- A grammar parses the phrase of a lexical rule by that rule alone. -/
theorem Grammar.leaf_mem_parse {grammar : Grammar} {rules : List Rule}
    (accepted : ofRules rules = .ok grammar) {rule : Rule} (member : rule ∈ rules)
    (lexical : rule.isLexical) :
    ∃ use : Occurrence, use.rule = rule ∧
      Derivation.ofTokens use rule.rhs ∈
        (grammar.withStartCategory rule.lhs).parse (Text.phrase rule.rhs) := by
  obtain ⟨use, occurs, rfl⟩ := exists_occurrence member
  refine ⟨use, rfl, ?_⟩
  rw [parse_eq ((built_of_ofRules accepted).withStartCategory _),
    Text.words_phrase use.rule.isWord_of_mem]
  exact derivation_mem_enumerate (t := .leaf use use.rule.rhs) ⟨occurs, lexical, rfl⟩

theorem Evaluator.run_executor_name (heap : Heap) (fuel : Nat) (p : Primitive) :
    (executor (fuel + 1) heap.pushStandard.1 (.symbol p.name)).run.run
      heap.pushStandard.2 = (.ok (.primitive p), heap.pushStandard.2) := by
  rw [executor, eval, Scope.run_lookup_of_some (heap.lookup?_pushStandard p)]

namespace Lexicon

variable {σ : Type}

theorem accepted_of_mem_synthesized {examples : List Example} {meanings outputs : List Value}
    {categories : List String} (sigils : ∀ category ∈ categories, Category.isCategory category)
    (terminals : ∀ e ∈ examples, ∀ token ∈ e.tokens, Category.isCategory token = false) :
    ∀ rule ∈ synthesized (gatherTokens examples) meanings outputs categories, rule.Accepted := by
  intro rule made
  obtain ⟨token, known, meaning, output, -, category, member, -, rfl⟩ := mem_synthesized.mp made
  obtain ⟨e, given, inside⟩ := mem_gatherTokens.mp known
  exact Rule.accepted_lexical (isWord_of_mem_gatherTokens known) (sigils category member)
    (terminals e given token inside)

/-- The lexicon of some examples and meanings that execute: every rule is for one token of an
example, and it is lexical unless that token is a category. When no token is one, the rules make a
grammar, in which every token has a derivation of every category with every meaning of its kind. -/
theorem gathered_lexicon_is_usable (examples : List Example) {executor : Executor σ}
    {meanings outputs : List Value} {categories : List String} {state after : σ}
    (sigils : ∀ category ∈ categories, Category.isCategory category)
    (executed : (meanings.mapM executor).run.run state = (.ok outputs, after)) :
    ∃ rules, (synthesize executor (gatherTokens examples) meanings categories).run.run state =
        (.ok rules, after) ∧
      (∀ rule ∈ rules, ∃ e ∈ examples, ∃ token ∈ e.tokens, rule.rhs = [token] ∧
        (Category.isCategory token = false → rule.isLexical)) ∧
      ((∀ e ∈ examples, ∀ token ∈ e.tokens, Category.isCategory token = false) →
        ∃ grammar, Grammar.ofRules rules = .ok grammar ∧
          ∀ e ∈ examples, ∀ token ∈ e.tokens, ∀ category ∈ categories,
            ∀ meaning output, (meaning, output) ∈ meanings.zip outputs →
              Category.isOperator category = output.isProcedure →
                ∃ use : Occurrence, use.rule = Rule.lexical category token meaning ∧
                  Derivation.leaf use [token] meaning ∈
                    (grammar.withStartCategory category).parse token) := by
  refine ⟨synthesized (gatherTokens examples) meanings outputs categories, ?_, ?_, ?_⟩
  · rw [synthesize_eq, Action.run_map, executed]
    rfl
  · intro rule made
    obtain ⟨token, known, meaning, output, -, category, -, -, rfl⟩ := mem_synthesized.mp made
    obtain ⟨e, given, inside⟩ := mem_gatherTokens.mp known
    have word := isWord_of_mem_gatherTokens known
    exact ⟨e, given, token, inside, Rule.rhs_lexical word, Rule.isLexical_lexical word⟩
  · intro terminals
    obtain ⟨grammar, accepted⟩ :=
      Grammar.exists_ofRules_iff.mpr (accepted_of_mem_synthesized sigils terminals)
    refine ⟨grammar, accepted, ?_⟩
    intro e given token inside category member meaning output pair kind
    have known := mem_gatherTokens.mpr ⟨e, given, inside⟩
    have word := isWord_of_mem_gatherTokens known
    have made := mem_synthesized.mpr
      ⟨token, known, meaning, output, pair, category, member, kind, rfl⟩
    have lexical : (Rule.lexical category token meaning).isLexical :=
      Rule.isLexical_lexical word (terminals e given token inside)
    obtain ⟨use, same, found⟩ := Grammar.leaf_mem_parse accepted made lexical
    rw [Derivation.ofTokens, same, Rule.rhs_lexical word, Text.phrase_singleton] at found
    exact ⟨use, same, found⟩

theorem sum_meanings_execute (heap : Heap) :
    ([.int 1, .symbol "+"].mapM (Evaluator.executor 1 heap.pushStandard.1)).run.run
      heap.pushStandard.2 =
        (.ok [.int 1, .primitive (.operation .add)], heap.pushStandard.2) := by
  have number : (Evaluator.executor 1 heap.pushStandard.1 (.int 1)).run.run heap.pushStandard.2 =
      (.ok (.int 1), heap.pushStandard.2) := by
    simp only [Evaluator.executor, Evaluator.eval]
    rfl
  have sign : (Evaluator.executor 1 heap.pushStandard.1 (.symbol "+")).run.run
      heap.pushStandard.2 = (.ok (.primitive (.operation .add)), heap.pushStandard.2) :=
    Evaluator.run_executor_name heap 0 (.operation .add)
  simp only [List.mapM_cons, List.mapM_nil, Action.run_bind, Action.run_pure, number, sign]

theorem gathered_sum_is_usable :
    (∀ category ∈ ["$E", "$BinOp"], Category.isCategory category) ∧
      ([.int 1, .symbol "+"].mapM (Evaluator.executor 1 Heap.empty.pushStandard.1)).run.run
        Heap.empty.pushStandard.2 =
          (.ok [.int 1, .primitive (.operation .add)], Heap.empty.pushStandard.2) ∧
      ∃ rules, (synthesize (Evaluator.executor 1 Heap.empty.pushStandard.1)
          (gatherTokens [{ input := "one plus one" }]) [.int 1, .symbol "+"]
          ["$E", "$BinOp"]).run.run Heap.empty.pushStandard.2 =
            (.ok rules, Heap.empty.pushStandard.2) ∧
        ∃ grammar, Grammar.ofRules rules = .ok grammar ∧
          ∃ use : Occurrence, use.rule = Rule.lexical "$BinOp" "plus" (.symbol "+") ∧
            Derivation.leaf use ["plus"] (.symbol "+") ∈
              (grammar.withStartCategory "$BinOp").parse "plus" := by
  have sigils : ∀ category ∈ ["$E", "$BinOp"], Category.isCategory category := by decide
  have executed := sum_meanings_execute Heap.empty
  obtain ⟨rules, made, -, usable⟩ :=
    gathered_lexicon_is_usable [{ input := "one plus one" }] sigils executed
  obtain ⟨grammar, accepted, parses⟩ := usable (by decide)
  refine ⟨sigils, executed, rules, made, grammar, accepted, ?_⟩
  exact parses _ List.mem_cons_self "plus" (by decide) "$BinOp" (by decide) (.symbol "+")
    (.primitive (.operation .add)) (by simp) rfl

/-- A price is written like a category. So its rule has neither shape, and there is no grammar. -/
theorem price_lexicon_is_refused :
    let executor : Executor Unit := pure
    (∀ category ∈ ["$E"], Category.isCategory category) ∧
      ([.int 1].mapM executor).run.run () = (.ok [.int 1], ()) ∧
      ∃ rules, (synthesize executor (gatherTokens [{ input := "costs $5" }]) [.int 1]
          ["$E"]).run.run () = (.ok rules, ()) ∧
        rules.map Rule.isLexical = [true, false] ∧
        Grammar.ofRules rules = .error (.invalid "Rule($E, $5, 1)") := by
  refine ⟨by decide, rfl, _, rfl, ?_, ?_⟩
  · rfl
  · rfl

end Lexicon

end SemanticParsing
