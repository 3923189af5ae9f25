import SemanticParsing.Proofs.RuleIndex
/-!
Grammars to which rules are offered one after the other, some of which they refuse. Main statement:
the fields of such a grammar are what the accepted rules make them.
-/
namespace SemanticParsing

namespace Index

variable {κ β : Type} [Ord κ] [Std.TransOrd κ]

theorem values_eq (index : Index κ β) : index.values = index.toList.map (·.2) := by
  have folded : index.values = index.foldr (fun _ items rest => items :: rest) [] := by
    obtain ⟨inner⟩ := index
    induction inner using Std.ExtDTreeMap.inductionOn with
    | mk => rfl
  rw [folded, Std.ExtTreeMap.foldr_eq_foldr_toList]
  induction index.toList with
  | nil => rfl
  | cons entry entries ih => rw [List.foldr_cons, ih, List.map_cons]

theorem count_eq_length (index : Index κ β) :
    index.count = (index.toList.flatMap (·.2)).length := by
  rw [count, values_eq, List.flatMap_def]

theorem count_empty : count (∅ : Index κ β) = 0 := by
  rw [count_eq_length, Std.ExtTreeMap.toList_eq_nil_iff.mpr rfl]
  rfl

variable [Std.LawfulEqOrd κ]

theorem toList_nodup (index : Index κ β) : index.toList.Nodup := by
  refine index.distinct_keys_toList.imp ?_
  rintro entry _ differ rfl
  exact differ Std.ReflCmp.compare_self

variable [DecidableEq κ]

theorem toList_insert_perm (index : Index κ β) (key : κ) (items : List β) :
    (index.insert key items).toList.Perm ((key, items) :: (index.erase key).toList) := by
  have fresh : (key, items) ∉ (index.erase key).toList := by
    simp [Std.ExtTreeMap.mem_toList_iff_getElem?_eq_some]
  refine (List.perm_ext_iff_of_nodup (toList_nodup _)
    (List.nodup_cons.mpr ⟨fresh, toList_nodup _⟩)).mpr fun entry => ?_
  obtain ⟨other, others⟩ := entry
  simp only [List.mem_cons, Std.ExtTreeMap.mem_toList_iff_getElem?_eq_some, Prod.mk.injEq,
    Std.ExtTreeMap.getElem?_insert, Std.ExtTreeMap.getElem?_erase]
  by_cases same : key = other
  · subst same
    simp [eq_comm]
  · simp [same, Ne.symm same]

theorem count_insert (index : Index κ β) (key : κ) (items : List β) :
    count (index.insert key items) = items.length + count (index.erase key) := by
  rw [count_eq_length, ((toList_insert_perm index key items).flatMap_right _).length_eq,
    List.flatMap_cons, List.length_append, count_eq_length]

theorem count_eq_erase (index : Index κ β) (key : κ) :
    index.count = (index.items key).length + count (index.erase key) := by
  by_cases known : key ∈ index
  · have same : index.insert key (index.items key) = index := by
      refine Std.ExtTreeMap.ext_getElem? fun other => ?_
      rw [Std.ExtTreeMap.getElem?_insert]
      split
      case isTrue here =>
        obtain rfl := Std.LawfulEqOrd.eq_of_compare here
        exact (Std.ExtTreeMap.getElem?_eq_some_getD known).symm
      case isFalse => rfl
    rw [← count_insert, same]
  · have same : index.erase key = index := by
      refine Std.ExtTreeMap.ext_getElem? fun other => ?_
      rw [Std.ExtTreeMap.getElem?_erase]
      split
      case isTrue here =>
        obtain rfl := Std.LawfulEqOrd.eq_of_compare here
        exact (Std.ExtTreeMap.getElem?_eq_none known).symm
      case isFalse => rfl
    have none : index.items key = [] := Std.ExtTreeMap.getD_eq_fallback known
    rw [same, none, List.length_nil, Nat.zero_add]

theorem count_file (index : Index κ β) (key : κ) (item : β) :
    (index.file key item).count = index.count + 1 := by
  rw [file, count_insert, count_eq_erase index key, List.length_append, List.length_singleton]
  omega

end Index

theorem map_rule_filter (p : Rule → Bool) (rules : List Rule) :
    ((occurrences rules).filter fun use => p use.rule).map Occurrence.rule = rules.filter p := by
  conv_rhs => rw [← map_rule_occurrences rules, List.filter_map]
  rfl

theorem Rule.pair?_eq_some_iff {rule : Rule} {left right : String} :
    rule.pair? = some (left, right) ↔ rule.isBinary ∧ rule.rhs = [left, right] := by
  constructor
  · intro h
    exact ⟨by simp [isBinary, h], rhs_of_pair? h⟩
  · rintro ⟨binary, labels⟩
    obtain ⟨pair, found⟩ := Option.isSome_iff_exists.mp binary
    obtain ⟨rfl, rfl⟩ : pair.1 = left ∧ pair.2 = right := by
      simpa [rhs_of_pair? found] using labels
    exact found

theorem max?_concat (lengths : List Nat) (length : Nat) :
    (lengths ++ [length]).max?.getD 0 = max (lengths.max?.getD 0) length := by
  cases lengths with
  | nil => simp
  | cons first lengths =>
    rw [List.cons_append, List.max?_cons', List.max?_cons', List.foldl_append]
    rfl

namespace Grammar

/-- Offers rules one after the other, whatever becomes of them, and tells what became of each. -/
def offerEach (rules : List Rule) : StateM Grammar (List (Except RuleError Unit)) :=
  rules.mapM fun rule => (offer rule).run

/-- The rules that were accepted, by what became of each. -/
def accepted (offered : List Rule) (answers : List (Except RuleError Unit)) : List Rule :=
  ((offered.zip answers).filter (·.2.isOk)).map (·.1)

variable {grammar : Grammar} {rules : List Rule}

theorem run_offer (rule : Rule) (grammar : Grammar) : (offer rule).run.run grammar =
    ((grammar.add rule).map fun _ => (), (grammar.add rule).toOption.getD grammar) := by
  have opened : (offer rule).run.run grammar =
    ((liftM (grammar.add rule) : ExceptT RuleError (StateM Grammar) Grammar) >>= set).run.run
      grammar := rfl
  rw [opened]
  cases grammar.add rule <;> rfl

theorem run_offerEach_cons (rule : Rule) (offered : List Rule) (grammar : Grammar) :
    (offerEach (rule :: offered)).run grammar =
      (((offer rule).run.run grammar).1 ::
          ((offerEach offered).run ((offer rule).run.run grammar).2).1,
        ((offerEach offered).run ((offer rule).run.run grammar).2).2) := by
  rw [offerEach, List.mapM_cons]
  rfl

theorem map_add (rule : Rule) (grammar : Grammar) :
    ((grammar.add rule).map fun _ => ()) = rule.shape.map fun _ => () := by
  unfold add
  cases rule.shape with
  | error e => rfl
  | ok shape => cases shape <;> rfl

/-- What becomes of an offered rule depends on its shape alone. -/
theorem answers_offerEach (offered : List Rule) (grammar : Grammar) :
    ((offerEach offered).run grammar).1 =
      offered.map fun rule => rule.shape.map fun _ => () := by
  induction offered generalizing grammar with
  | nil => rfl
  | cons rule offered ih => rw [run_offerEach_cons, run_offer, map_add, ih, List.map_cons]

theorem built_offerEach (built : Built grammar rules) (offered : List Rule) :
    Built ((offerEach offered).run grammar).2
      (rules ++ accepted offered ((offerEach offered).run grammar).1) := by
  induction offered generalizing grammar rules with
  | nil =>
    have none : accepted [] ((offerEach []).run grammar).1 = [] := rfl
    rw [none, List.append_nil]
    exact built
  | cons rule offered ih =>
    rw [run_offerEach_cons, run_offer]
    cases added : grammar.add rule with
    | error e =>
      have skipped (answers : List (Except RuleError Unit)) :
          accepted (rule :: offered) (.error e :: answers) = accepted offered answers := rfl
      exact skipped _ ▸ ih built
    | ok next =>
      have kept (answers : List (Except RuleError Unit)) :
          accepted (rule :: offered) (.ok () :: answers) = rule :: accepted offered answers := rfl
      have later := ih (built.add added)
      rw [List.append_assoc, List.singleton_append] at later
      exact kept _ ▸ later

theorem ruleCount_addLexical (grammar : Grammar) (rule : Rule) :
    (grammar.addLexical rule).ruleCount = grammar.ruleCount + 1 := by
  simp only [ruleCount, addLexical, Index.count_file]
  omega

theorem ruleCount_addBinary (grammar : Grammar) (pair : CategoryPair) (rule : Rule) :
    (grammar.addBinary pair rule).ruleCount = grammar.ruleCount + 1 := by
  simp only [ruleCount, addBinary, Index.count_file]
  omega

theorem ruleCount_of_built (built : Built grammar rules) :
    grammar.ruleCount = rules.length := by
  induction built with
  | empty => simp [ruleCount, Grammar.empty, Index.count_empty]
  | add _ added ih =>
    rw [List.length_append, List.length_singleton, ← ih]
    obtain ⟨-, rfl⟩ | ⟨pair, -, -, rfl⟩ := add_cases added
    · exact ruleCount_addLexical ..
    · exact ruleCount_addBinary ..
  | withStartCategory _ _ ih => exact ih

theorem longestPhrase_of_built (built : Built grammar rules) : grammar.longestPhrase =
    ((rules.filter Rule.isLexical).map fun rule => rule.rhs.length).max?.getD 0 := by
  induction built with
  | empty => rfl
  | add _ added ih =>
    obtain ⟨lexical, rfl⟩ | ⟨pair, notLexical, -, rfl⟩ := add_cases added
    · simp [List.filter_append, lexical, max?_concat, addLexical, ih]
    · simp [List.filter_append, notLexical, addBinary, ih]
  | withStartCategory _ _ ih => exact ih

/-- The fields of a grammar by the rules that it accepted. -/
structure Files (grammar : Grammar) (rules : List Rule) : Prop where
  order : grammar.binaryOrder = (rules.filterMap Rule.pair?).eraseDups
  order_nodup : grammar.binaryOrder.Nodup
  mem_order_iff : ∀ pair, pair ∈ grammar.binaryOrder ↔ pair ∈ grammar.binary
  binary_ne_nil : ∀ pair ∈ grammar.binary, grammar.binaryRules pair.1 pair.2 ≠ []
  binary : ∀ left right, (grammar.binaryRules left right).map Occurrence.rule =
    rules.filter fun rule => rule.isBinary ∧ rule.rhs = [left, right]
  lexical : ∀ tokens, (∀ token ∈ tokens, Text.IsWord token) →
    (grammar.lexicalRules (Text.phrase tokens)).map Occurrence.rule =
      rules.filter fun rule => rule.isLexical ∧ rule.rhs = tokens
  phrase_ne : ∀ tokens others, (∀ token ∈ tokens, Text.IsWord token) →
    (∀ token ∈ others, Text.IsWord token) → tokens ≠ others →
    Text.phrase tokens ≠ Text.phrase others
  longestPhrase : grammar.longestPhrase =
    ((rules.filter Rule.isLexical).map fun rule => rule.rhs.length).max?.getD 0
  ruleCount : grammar.ruleCount = rules.length

theorem Built.files (built : Built grammar rules) : Files grammar rules where
  order := built.indexes.binaryOrder
  order_nodup := by
    rw [built.indexes.binaryOrder]
    exact categoryPairs_nodup rules
  mem_order_iff := by
    intro pair
    rw [built.indexes.binaryOrder, built.indexes.mem_binary_iff]
  binary_ne_nil := by
    intro pair known
    rw [built.indexes.mem_binary_iff, categoryPairs, List.mem_eraseDups,
      List.mem_filterMap] at known
    obtain ⟨rule, member, labels⟩ := known
    obtain ⟨use, isUse, rfl⟩ := exists_occurrence member
    have filed : use ∈ binaryUses rules pair := List.mem_filter.mpr ⟨isUse, by simpa using labels⟩
    rw [binaryRules, built.indexes.binary]
    exact List.ne_nil_of_mem filed
  binary := by
    intro left right
    rw [binaryRules, built.indexes.binary]
    refine (map_rule_filter (fun rule => rule.pair? = some (left, right)) rules).trans ?_
    exact List.filter_congr fun rule _ => by simp [Rule.pair?_eq_some_iff]
  lexical := by
    intro tokens words
    rw [lexicalRules, built.indexes.lexical tokens words]
    exact map_rule_filter (fun rule => rule.isLexical ∧ rule.rhs = tokens) rules
  phrase_ne := fun _ _ words others => mt (Text.phrase_inj words others).mp
  longestPhrase := longestPhrase_of_built built
  ruleCount := ruleCount_of_built built

theorem eq_of_refused {rule : Rule} {e : RuleError} {after : Grammar}
    (h : (offer rule).run.run grammar = (.error e, after)) : after = grammar := by
  rw [run_offer] at h
  cases added : grammar.add rule with
  | error =>
    rw [added] at h
    exact (Prod.mk.inj h).2.symm
  | ok next =>
    rw [added] at h
    cases (Prod.mk.inj h).1

/-- However many of the rules offered to a grammar are refused, its fields are those of the rules
that it was made of and of the accepted ones, in the order in which they came. A rule is refused for
its shape alone, and then the grammar is the same as before. -/
theorem offered_rules_are_filed {initial : List Rule} (made : ofRules initial = .ok grammar)
    (offered : List Rule) :
    let answers := ((offerEach offered).run grammar).1
    let last := ((offerEach offered).run grammar).2
    answers = offered.map (fun rule => rule.shape.map fun _ => ()) ∧
      Files last (initial ++ accepted offered answers) ∧
      ∀ rule e after, (offer rule).run.run last = (.error e, after) → after = last :=
  ⟨answers_offerEach offered grammar, (built_offerEach (built_of_ofRules made) offered).files,
    fun _ _ _ => eq_of_refused⟩

def crowded : Rule :=
  Rule.ofText "$E" "$E $BinOp $E" (.combinator ⟨2, fun children => .list children⟩)

def hollow : Rule := Rule.ofText "$E" "two" (.combinator ⟨3, fun children => .list children⟩)

def signed : Rule := Rule.ofText "$E" "$UnOp $E" (.combinator ⟨4, fun children => .list children⟩)

def sampleOffers : List Rule := [crowded, Rule.lexical "$E" "one" (.int 1), hollow, signed]

theorem accepted_sampleOffers :
    accepted sampleOffers (sampleOffers.map fun rule => rule.shape.map fun _ => ()) =
      [Rule.lexical "$E" "one" (.int 1), signed] := by
  have shapes : sampleOffers.map (fun rule => (rule.shape.map fun _ => ()).isOk) =
      [false, true, false, true] := by decide +kernel
  simp only [sampleOffers, List.map_cons, List.map_nil, List.cons.injEq] at shapes
  simp [accepted, sampleOffers, shapes]

theorem sample_offers_are_filed :
    ofRules sampleRules = .ok sample ∧
      Files ((offerEach sampleOffers).run sample).2
        (sampleRules ++ [Rule.lexical "$E" "one" (.int 1), signed]) ∧
      ∃ refusal, (offer crowded).run.run ((offerEach sampleOffers).run sample).2 =
        (.error refusal, ((offerEach sampleOffers).run sample).2) := by
  have made : ofRules sampleRules = .ok sample := rfl
  obtain ⟨answers, filed, same⟩ := offered_rules_are_filed made sampleOffers
  rw [answers, accepted_sampleOffers] at filed
  have shape : crowded.shape = .error (.invalid crowded.text) := by decide +kernel
  refine ⟨made, filed, .invalid crowded.text, ?_⟩
  generalize ((offerEach sampleOffers).run sample).2 = last at same ⊢
  have refused : (offer crowded).run.run last =
      (.error (.invalid crowded.text), ((offer crowded).run.run last).2) := by
    refine Prod.ext ?_ rfl
    rw [run_offer, map_add, shape]
    rfl
  rw [refused, same _ _ _ refused]

end Grammar

end SemanticParsing
