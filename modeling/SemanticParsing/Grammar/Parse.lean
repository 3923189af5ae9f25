import SemanticParsing.Grammar.Chart
/-!
Parsing. The chart of a sentence is filled by the lexical rules first and then by the binary
rules, shorter spans before longer ones, so both parts of a span are complete when it is cut.
Main statement: filling never leaves the chart, so every sentence has a list of derivations.
-/
namespace SemanticParsing.Grammar

def terminals (grammar : Grammar) (covered : List String) : List Derivation :=
  (grammar.lexicalRules (Text.phrase covered)).map fun use => Derivation.ofTokens use covered

def insertLexical? (grammar : Grammar) (tokens : List String) (chart : Chart) (span : Span) :
    Option Chart :=
  chart.insert? span (grammar.terminals (span.slice tokens))

def fillLexical? (grammar : Grammar) (tokens : List String) (chart : Chart) : Option Chart :=
  (Span.between tokens.length 1 (min grammar.longestPhrase tokens.length)).foldlM
    (grammar.insertLexical? tokens) chart

def combine (uses : List Occurrence) (lefts rights : List Derivation) : List Derivation :=
  uses.flatMap fun use => lefts.flatMap fun left => rights.map fun right =>
    Derivation.ofPair use left right

/-- What the rules of one pair of categories make of two neighbouring spans. The rules are looked
up only when there is something to combine. -/
def foundByPair? (grammar : Grammar) (chart : Chart) (parts : Span × Span)
    (pair : CategoryPair) : Option (List Derivation) := do
  let lefts ← chart.derivations? parts.1 pair.1
  let rights ← chart.derivations? parts.2 pair.2
  if lefts.isEmpty || rights.isEmpty then return []
  return combine (← grammar.binary[pair]?) lefts rights

def foundBySplit? (grammar : Grammar) (chart : Chart) (parts : Span × Span) :
    Option (List Derivation) :=
  (grammar.binaryOrder.mapM (grammar.foundByPair? chart parts)).map List.flatten

/-- What the binary rules make of a span: cut by cut, pair by pair, rule by rule. -/
def found? (grammar : Grammar) (chart : Chart) (span : Span) : Option (List Derivation) :=
  (span.splits.mapM (grammar.foundBySplit? chart)).map List.flatten

def insertFound? (grammar : Grammar) (chart : Chart) (span : Span) : Option Chart := do
  chart.insert? span (← grammar.found? chart span)

def fillBinary? (grammar : Grammar) (chart : Chart) : Option Chart :=
  (Span.between chart.tokenCount 2 chart.tokenCount).foldlM grammar.insertFound? chart

def fill? (grammar : Grammar) (tokens : List String) : Option Chart := do
  grammar.fillBinary? (← grammar.fillLexical? tokens { tokenCount := tokens.length })

def derive? (grammar : Grammar) (tokens : List String) : Option (List Derivation) :=
  if tokens.isEmpty then some []
  else do
    let chart ← grammar.fill? tokens
    let (derivations, _) ← chart.take? ⟨tokens.length, 0⟩ grammar.startCategory
    return derivations

/-- A walk over a list whose steps all succeed and keep an invariant about what is done. -/
theorem foldlM_eq_some {α β : Type} {P : List α → β → Prop} {f : β → α → Option β} {xs : List α}
    (step : ∀ done x rest, xs = done ++ x :: rest → ∀ b, P done b →
      ∃ next, f b x = some next ∧ P (done ++ [x]) next)
    {b : β} (start : P [] b) : ∃ last, xs.foldlM f b = some last ∧ P xs last := by
  suffices ∀ rest done b, xs = done ++ rest → P done b →
      ∃ last, rest.foldlM f b = some last ∧ P xs last from this xs [] b rfl start
  intro rest
  induction rest with
  | nil =>
    intro done b split known
    rw [List.append_nil] at split
    exact ⟨b, rfl, split ▸ known⟩
  | cons x rest ih =>
    intro done b split known
    obtain ⟨next, taken, kept⟩ := step done x rest split b known
    obtain ⟨last, walked, final⟩ := ih (done ++ [x]) next (by simp [split]) kept
    exact ⟨last, by simp [List.foldlM_cons, taken, walked], final⟩

theorem mapM_eq_some_map {α β : Type} {f : α → Option β} {g : α → β} {xs : List α}
    (h : ∀ x ∈ xs, f x = some (g x)) : xs.mapM f = some (xs.map g) := by
  induction xs with
  | nil => rfl
  | cons x xs ih =>
    have head := h x List.mem_cons_self
    have tail := ih fun y member => h y (List.mem_cons_of_mem x member)
    simp [List.mapM_cons, head, tail]

def foundByPair (grammar : Grammar) (chart : Chart) (parts : Span × Span)
    (pair : CategoryPair) : List Derivation :=
  combine (grammar.binary.items pair) (chart.held parts.1 pair.1) (chart.held parts.2 pair.2)

def found (grammar : Grammar) (chart : Chart) (span : Span) : List Derivation :=
  span.splits.flatMap fun parts => grammar.binaryOrder.flatMap (grammar.foundByPair chart parts)

theorem combine_nil (uses : List Occurrence) {lefts rights : List Derivation}
    (h : (lefts.isEmpty || rights.isEmpty) = true) : combine uses lefts rights = [] := by
  obtain none | none := Bool.or_eq_true_iff.mp h <;>
    simp [combine, List.isEmpty_iff.mp none]

theorem foundByPair?_of_inside (grammar : Grammar) {chart : Chart} {left right : Span}
    (insideLeft : left.Inside chart.tokenCount) (insideRight : right.Inside chart.tokenCount)
    {pair : CategoryPair} (member : pair ∈ grammar.binaryOrder) :
    grammar.foundByPair? chart (left, right) pair =
      some (grammar.foundByPair chart (left, right) pair) := by
  have known := grammar.mem_binary pair member
  simp only [foundByPair?, foundByPair, Chart.derivations?_of_inside insideLeft,
    Chart.derivations?_of_inside insideRight, Option.bind_eq_bind, Option.bind_some]
  split
  · rename_i none
    simp [combine_nil _ none]
  · have lookup : grammar.binary[pair]? = some (grammar.binary.items pair) :=
      Std.ExtTreeMap.getElem?_eq_some_getD known
    rw [lookup]
    rfl

theorem found?_of_inside (grammar : Grammar) {chart : Chart} {span : Span}
    (inside : span.Inside chart.tokenCount) :
    grammar.found? chart span = some (grammar.found chart span) := by
  have cut : ∀ parts ∈ span.splits, grammar.foundBySplit? chart parts =
      some (grammar.binaryOrder.flatMap (grammar.foundByPair chart parts)) := by
    intro (left, right) member
    obtain ⟨insideLeft, insideRight⟩ := Span.inside_of_mem_splits inside member
    have byPair := mapM_eq_some_map fun pair (known : pair ∈ grammar.binaryOrder) =>
      grammar.foundByPair?_of_inside insideLeft insideRight known
    simp [foundBySplit?, byPair, List.flatMap_def]
  simp [found?, found, mapM_eq_some_map cut, List.flatMap_def]

theorem fillLexical?_eq_some (grammar : Grammar) (tokens : List String) :
    ∃ chart, grammar.fillLexical? tokens { tokenCount := tokens.length } = some chart ∧
      chart.tokenCount = tokens.length := by
  refine foldlM_eq_some (P := fun _ (chart : Chart) => chart.tokenCount = tokens.length)
    (fun done span rest split chart same => ?_) rfl
  have member : span ∈ done ++ span :: rest := by simp
  rw [← split] at member
  have inside := Span.inside_of_mem_between (Nat.le_refl 1) member
  rw [← same] at inside ⊢
  obtain ⟨next, inserted, size, _⟩ := Chart.insert?_of_inside inside _
  exact ⟨next, inserted, size⟩

theorem fillBinary?_eq_some (grammar : Grammar) (chart : Chart) :
    ∃ full, grammar.fillBinary? chart = some full ∧ full.tokenCount = chart.tokenCount := by
  refine foldlM_eq_some (P := fun _ (full : Chart) => full.tokenCount = chart.tokenCount)
    (fun done span rest split full same => ?_) rfl
  have member : span ∈ done ++ span :: rest := by simp
  rw [← split] at member
  have inside := Span.inside_of_mem_between (by omega) member
  rw [← same] at inside ⊢
  obtain ⟨next, inserted, size, _⟩ := Chart.insert?_of_inside inside (grammar.found full span)
  exact ⟨next, by simp [insertFound?, grammar.found?_of_inside inside, inserted], size⟩

theorem inside_whole {tokens : List String} (nonempty : tokens ≠ []) :
    Span.Inside tokens.length ⟨tokens.length, 0⟩ :=
  ⟨List.length_pos_iff.mpr nonempty, by simp⟩

theorem derive?_isSome (grammar : Grammar) (tokens : List String) :
    (grammar.derive? tokens).isSome := by
  unfold derive?
  split
  · rfl
  · rename_i nonempty
    obtain ⟨chart, lexical, size⟩ := grammar.fillLexical?_eq_some tokens
    obtain ⟨full, binary, same⟩ := grammar.fillBinary?_eq_some chart
    have inside := inside_whole (mt List.isEmpty_iff.mpr nonempty)
    rw [← size, ← same] at inside
    obtain ⟨rest, taken⟩ := Chart.take?_of_inside inside grammar.startCategory
    rw [same, size] at taken
    simp [fill?, lexical, binary, taken]

/-- Every derivation of the start category over the words of a sentence. A sentence that the
grammar does not cover has none. -/
def parse (grammar : Grammar) (sentence : String) : List Derivation :=
  (grammar.derive? (Text.words sentence)).get (grammar.derive?_isSome _)

end SemanticParsing.Grammar
