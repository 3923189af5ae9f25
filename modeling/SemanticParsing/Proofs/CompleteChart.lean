import SemanticParsing.Proofs.Enumeration
/-!
Filling a chart, one span after the other. Spans are visited in a strict order in which the parts
of a span come before it. The invariant of a walk says which spans are done: their cells hold what
the enumeration gives for the tokens below, and the others hold what was there before the walk.
-/
namespace SemanticParsing

namespace Span

/-- Shorter spans come first, and of equal lengths the one that starts first. -/
def Before (left right : Span) : Prop :=
  left.length < right.length ∨ left.length = right.length ∧ left.start < right.start

theorem mem_between {tokenCount shortest longest : Nat} {span : Span} :
    span ∈ between tokenCount shortest longest ↔
      (shortest ≤ span.length ∧ span.length ≤ longest) ∧
        span.start + span.length ≤ tokenCount := by
  obtain ⟨length, start⟩ := span
  simp only [between, ofLength, List.mem_flatMap, List.mem_range'_1, List.mem_map,
    List.mem_range, mk.injEq]
  constructor
  · rintro ⟨length, ⟨low, high⟩, start, bound, rfl, rfl⟩
    omega
  · rintro ⟨⟨low, high⟩, fits⟩
    exact ⟨length, by omega, start, by omega, rfl, rfl⟩

theorem between_pairwise (tokenCount shortest longest : Nat) :
    (between tokenCount shortest longest).Pairwise Before := by
  refine List.pairwise_flatMap.mpr ⟨fun length _ => ?_, ?_⟩
  · refine List.pairwise_map.mpr (List.pairwise_lt_range.imp ?_)
    intro left right less
    exact .inr ⟨rfl, less⟩
  · refine (List.pairwise_lt_range' 1).imp ?_
    intro short long less left inLeft right inRight
    simp only [ofLength, List.mem_map] at inLeft inRight
    obtain ⟨_, _, rfl⟩ := inLeft
    obtain ⟨_, _, rfl⟩ := inRight
    exact .inl less

theorem not_mem_done {done rest : List Span} {span : Span}
    (sorted : (done ++ span :: rest).Pairwise Before) : span ∉ done := by
  intro member
  have before := (List.pairwise_append.mp sorted).2.2 span member span List.mem_cons_self
  simp only [Before] at before
  omega

theorem mem_done {done rest : List Span} {span other : Span}
    (sorted : (done ++ span :: rest).Pairwise Before) (member : other ∈ done ++ span :: rest)
    (before : other.Before span) : other ∈ done := by
  cases List.mem_append.mp member with
  | inl past => exact past
  | inr future =>
    exfalso
    obtain rfl | later := List.mem_cons.mp future
    · simp only [Before] at before
      omega
    · have after := List.rel_of_pairwise_cons (List.pairwise_append.mp sorted).2.1 later
      simp only [Before] at before after
      omega

theorem length_slice {tokens : List String} {span : Span} (inside : span.Inside tokens.length) :
    (span.slice tokens).length = span.length := by
  obtain ⟨_, fits⟩ := inside
  simp only [slice, List.length_take, List.length_drop]
  omega

theorem cuts_slice {tokens : List String} {span : Span} (inside : span.Inside tokens.length) :
    cuts (span.slice tokens) =
      span.splits.map fun parts => (parts.1.slice tokens, parts.2.slice tokens) := by
  simp only [cuts, splits, length_slice inside, List.map_map]
  refine List.map_congr_left fun length member => ?_
  have bounds := List.mem_range'_1.mp member
  simp only [Function.comp_apply, slice, Prod.mk.injEq]
  constructor
  · rw [List.take_take, Nat.min_eq_left (by omega)]
  · rw [List.drop_take, List.drop_drop]

theorem mem_of_mem_slice {tokens : List String} {span : Span} {token : String}
    (h : token ∈ span.slice tokens) : token ∈ tokens :=
  List.mem_of_mem_drop (List.mem_of_mem_take h)

end Span

namespace Grammar

variable {grammar : Grammar} {rules : List Rule} {tokens : List String}

theorem filter_terminals (known : Indexes grammar rules)
    (words : ∀ token ∈ tokens, Text.IsWord token) (category : String) :
    (grammar.terminals tokens).filter (·.category = category) =
      terminalDerivations rules category tokens := by
  simp only [terminals, lexicalRules, known.lexical tokens words, List.filter_map]
  rfl

theorem filter_flatMap_of_shared {α β : Type} {f : α → List β} {p : β → Bool} {q : α → Bool}
    (shared : ∀ x, ∀ y ∈ f x, p y = q x) (xs : List α) :
    (xs.flatMap f).filter p = (xs.filter q).flatMap f := by
  induction xs with
  | nil => rfl
  | cons x xs ih =>
    rw [List.flatMap_cons, List.filter_append, ih, List.filter_cons]
    cases h : q x with
    | true =>
      have all : (f x).filter p = f x :=
        List.filter_eq_self.mpr fun y member => (shared x y member).trans h
      simp [all]
    | false =>
      have none : (f x).filter p = [] :=
        List.filter_eq_nil_iff.mpr fun y member => by simp [shared x y member, h]
      simp [none]

theorem filter_combine (uses : List Occurrence) (lefts rights : List Derivation)
    (category : String) :
    (combine uses lefts rights).filter (·.category = category) =
      combine (uses.filter (·.rule.lhs = category)) lefts rights := by
  refine filter_flatMap_of_shared (fun use d member => ?_) uses
  simp only [List.mem_flatMap, List.mem_map] at member
  obtain ⟨left, _, right, _, rfl⟩ := member
  rfl

theorem filter_found (known : Indexes grammar rules) {chart : Chart} {span : Span}
    (inside : span.Inside tokens.length)
    (complete : ∀ parts ∈ span.splits, ∀ category,
      chart.held parts.1 category = enumerate rules category (parts.1.slice tokens) ∧
      chart.held parts.2 category = enumerate rules category (parts.2.slice tokens))
    (category : String) :
    (grammar.found chart span).filter (·.category = category) =
      pairDerivations rules category (enumerate rules) (span.slice tokens) := by
  simp only [found, foundByPair, pairDerivations, Span.cuts_slice inside, List.filter_flatMap,
    List.flatMap_map, filter_combine, known.binaryOrder, known.binary]
  refine List.flatMap_congr fun parts member => List.flatMap_congr fun pair _ => ?_
  rw [(complete parts member pair.1).1, (complete parts member pair.2).2]

/-- The invariant of the walk that inserts terminals, about the spans that are done. -/
def LexicallyFilled (rules : List Rule) (tokens : List String) (done : List Span)
    (chart : Chart) : Prop :=
  chart.tokenCount = tokens.length ∧ ∀ span category, chart.held span category =
    if span ∈ done then terminalDerivations rules category (span.slice tokens) else []

theorem fillLexical?_filled (known : Indexes grammar rules)
    (words : ∀ token ∈ tokens, Text.IsWord token) :
    ∃ chart, grammar.fillLexical? tokens { tokenCount := tokens.length } = some chart ∧
      LexicallyFilled rules tokens
        (Span.between tokens.length 1 (min grammar.longestPhrase tokens.length)) chart := by
  refine foldlM_eq_some (P := LexicallyFilled rules tokens)
    (fun done span rest split chart filled => ?_) ⟨rfl, by simp [Chart.held_empty]⟩
  obtain ⟨size, held⟩ := filled
  have sorted := split ▸ Span.between_pairwise ..
  have member : span ∈ done ++ span :: rest := by simp
  rw [← split] at member
  have inside := Span.inside_of_mem_between (Nat.le_refl 1) member
  rw [← size] at inside
  obtain ⟨next, inserted, sameSize, added⟩ :=
    Chart.insert?_of_inside inside (grammar.terminals (span.slice tokens))
  refine ⟨next, inserted, sameSize.trans size, fun other category => ?_⟩
  have covered : ∀ token ∈ span.slice tokens, Text.IsWord token :=
    fun token h => words token (Span.mem_of_mem_slice h)
  rw [added, held, filter_terminals known covered]
  by_cases here : span = other
  · subst here
    simp [Span.not_mem_done sorted]
  · simp [here, Ne.symm here]

theorem terminalDerivations_of_longer (known : Indexes grammar rules)
    (longer : grammar.longestPhrase < tokens.length) (category : String) :
    terminalDerivations rules category tokens = [] := by
  have unused : lexicalUses rules tokens = [] := by
    refine List.filter_eq_nil_iff.mpr fun use member => ?_
    have isRule : use.rule ∈ rules := rule_mem_of_mem_occurrences member
    intro h
    obtain ⟨lexical, rfl⟩ := of_decide_eq_true h
    exact absurd (known.longest use.rule isRule lexical) (by omega)
  simp [terminalDerivations, unused]

theorem pairDerivations_of_short (short : tokens.length ≤ 1) (category : String)
    (parts : String → List String → List Derivation) :
    pairDerivations rules category parts tokens = [] := by
  have uncut : tokens.length - 1 = 0 := by omega
  simp [pairDerivations, cuts, uncut]

/-- The invariant of the walk that inserts pairs, about the spans that are done. -/
def Completed (rules : List Rule) (tokens : List String) (done : List Span) (chart : Chart) :
    Prop :=
  chart.tokenCount = tokens.length ∧ ∀ span, span.Inside tokens.length → ∀ category,
    chart.held span category =
      if span.length = 1 ∨ span ∈ done then enumerate rules category (span.slice tokens)
      else terminalDerivations rules category (span.slice tokens)

theorem LexicallyFilled.completed (known : Indexes grammar rules) {chart : Chart}
    (filled : LexicallyFilled rules tokens
      (Span.between tokens.length 1 (min grammar.longestPhrase tokens.length)) chart) :
    Completed rules tokens [] chart := by
  refine ⟨filled.1, fun span inside category => ?_⟩
  have lexical : chart.held span category =
      terminalDerivations rules category (span.slice tokens) := by
    rw [filled.2]
    split
    · rfl
    · rename_i unvisited
      refine (terminalDerivations_of_longer known ?_ category).symm
      obtain ⟨positive, fits⟩ := inside
      simp only [Span.mem_between, Span.length_slice ⟨positive, fits⟩] at unvisited ⊢
      omega
  rw [lexical]
  split
  · rename_i short
    have length : (span.slice tokens).length ≤ 1 := by
      rw [Span.length_slice inside]
      exact Nat.le_of_eq (by simpa using short)
    rw [enumerate_eq, pairDerivations_of_short length, List.append_nil]
  · rfl

theorem fillBinary?_completed (known : Indexes grammar rules) {chart : Chart}
    (start : Completed rules tokens [] chart) :
    ∃ full, grammar.fillBinary? chart = some full ∧
      Completed rules tokens (Span.between tokens.length 2 tokens.length) full := by
  unfold fillBinary?
  rw [start.1]
  refine foldlM_eq_some (P := Completed rules tokens)
    (fun done span rest split full completed => ?_) start
  obtain ⟨size, held⟩ := completed
  have sorted := split ▸ Span.between_pairwise ..
  have member : span ∈ done ++ span :: rest := by simp
  have bounds := Span.mem_between.mp (split ▸ member)
  have inside : span.Inside tokens.length := ⟨by omega, bounds.2⟩
  have complete : ∀ part : Span, part.Inside tokens.length → part.length < span.length →
      ∀ category, full.held part category = enumerate rules category (part.slice tokens) := by
    intro part insidePart shorter category
    rw [held part insidePart, if_pos]
    by_cases single : part.length = 1
    · exact .inl single
    · obtain ⟨positive, fits⟩ := insidePart
      refine .inr (Span.mem_done sorted ?_ (.inl shorter))
      rw [← split]
      exact Span.mem_between.mpr ⟨⟨by omega, by omega⟩, fits⟩
  have parts : ∀ parts ∈ span.splits, ∀ category,
      full.held parts.1 category = enumerate rules category (parts.1.slice tokens) ∧
      full.held parts.2 category = enumerate rules category (parts.2.slice tokens) := by
    intro (left, right) cut category
    obtain ⟨insideLeft, insideRight⟩ := Span.inside_of_mem_splits inside cut
    obtain ⟨shortLeft, shortRight⟩ := Span.shorter_of_mem_splits cut
    exact ⟨complete left insideLeft shortLeft category,
      complete right insideRight shortRight category⟩
  have insideFull : span.Inside full.tokenCount := size ▸ inside
  obtain ⟨next, inserted, sameSize, added⟩ :=
    Chart.insert?_of_inside insideFull (grammar.found full span)
  refine ⟨next, by simp [insertFound?, grammar.found?_of_inside insideFull, inserted],
    sameSize.trans size, fun other insideOther category => ?_⟩
  rw [added, held other insideOther, filter_found known inside parts]
  by_cases here : span = other
  · subst here
    have long : span.length ≠ 1 := by omega
    simp [Span.not_mem_done sorted, long, enumerate_eq rules category (span.slice tokens)]
  · simp [here, Ne.symm here]

/-- Every cell of a complete chart holds what is enumerated for the tokens of its span. -/
theorem fill?_complete (built : Built grammar rules) (words : ∀ token ∈ tokens, Text.IsWord token) :
    ∃ full, grammar.fill? tokens = some full ∧ full.tokenCount = tokens.length ∧
      ∀ span, span.Inside tokens.length → ∀ category,
        full.held span category = enumerate rules category (span.slice tokens) := by
  have known := built.indexes
  obtain ⟨chart, lexical, filled⟩ := fillLexical?_filled known words
  obtain ⟨full, binary, size, held⟩ := fillBinary?_completed known (filled.completed known)
  refine ⟨full, by simp [fill?, lexical, binary], size, fun span inside category => ?_⟩
  rw [held span inside, if_pos]
  obtain ⟨positive, fits⟩ := inside
  rw [Span.mem_between]
  omega

theorem derive?_eq (built : Built grammar rules) (words : ∀ token ∈ tokens, Text.IsWord token) :
    grammar.derive? tokens = some (enumerate rules grammar.startCategory tokens) := by
  unfold derive?
  split
  · rename_i none
    rw [List.isEmpty_iff.mp none, enumerate_nil]
  · rename_i nonempty
    obtain ⟨full, filled, size, held⟩ := fill?_complete built words
    have inside := inside_whole (mt List.isEmpty_iff.mpr nonempty)
    have insideFull : Span.Inside full.tokenCount ⟨tokens.length, 0⟩ := by rwa [size]
    obtain ⟨rest, taken⟩ := Chart.take?_of_inside insideFull grammar.startCategory
    simp [filled, taken, held _ inside, Span.slice]

theorem parse_eq (built : Built grammar rules) (sentence : String) :
    grammar.parse sentence = enumerate rules grammar.startCategory (Text.words sentence) := by
  simp [parse, derive?_eq built (Text.isWord_of_mem_words sentence)]

/-- The parser returns the enumeration of the words of a sentence. On the way it fills a chart in
which the derivations of a span depend on the tokens of that span alone. -/
theorem parse_refines_enumerate (built : Built grammar rules) (sentence : String) :
    grammar.parse sentence = enumerate rules grammar.startCategory (Text.words sentence) ∧
    ∃ chart, grammar.fill? (Text.words sentence) = some chart ∧
      ∀ span, span.Inside (Text.words sentence).length → ∀ category,
        chart.derivations? span category =
          some (enumerate rules category (span.slice (Text.words sentence))) := by
  refine ⟨parse_eq built sentence, ?_⟩
  obtain ⟨chart, filled, size, held⟩ := fill?_complete built (Text.isWord_of_mem_words sentence)
  refine ⟨chart, filled, fun span inside category => ?_⟩
  rw [Chart.derivations?_of_inside (size ▸ inside), held span inside]

theorem parse_refines_enumerate_sample : Built sample sampleRules ∧
    sample.parse "twenty one plus one" =
      enumerate sampleRules "$E" (Text.words "twenty one plus one") :=
  ⟨sample_built, (parse_refines_enumerate sample_built "twenty one plus one").1⟩

end Grammar

end SemanticParsing
