import SemanticParsing.Grammar.Basic
/-!
Charts of partial parses. A cell holds the derivations of one span of the tokens, by category and
in the order in which they were inserted. The cells of a chart form a triangle: their spans have
at least one token and end no later than the tokens do. Every operation gives nothing when its
span is not one of them.
-/
namespace SemanticParsing

structure Span where
  length : Nat
  start : Nat
  deriving DecidableEq, Repr

namespace Span

def Inside (tokenCount : Nat) (span : Span) : Prop :=
  1 ≤ span.length ∧ span.start + span.length ≤ tokenCount

instance (tokenCount : Nat) (span : Span) : Decidable (span.Inside tokenCount) :=
  inferInstanceAs (Decidable (_ ∧ _))

def ofLength (tokenCount length : Nat) : List Span :=
  (List.range (tokenCount + 1 - length)).map fun start => ⟨length, start⟩

def between (tokenCount shortest longest : Nat) : List Span :=
  (List.range' shortest (longest + 1 - shortest)).flatMap (ofLength tokenCount)

def splits (span : Span) : List (Span × Span) :=
  (List.range' 1 (span.length - 1)).map fun left =>
    (⟨left, span.start⟩, ⟨span.length - left, span.start + left⟩)

theorem inside_of_mem_between {tokenCount shortest longest : Nat} {span : Span}
    (positive : 1 ≤ shortest) (h : span ∈ between tokenCount shortest longest) :
    span.Inside tokenCount := by
  simp only [between, ofLength, List.mem_flatMap, List.mem_range'_1, List.mem_map,
    List.mem_range] at h
  obtain ⟨length, ⟨low, _⟩, start, bound, rfl⟩ := h
  exact ⟨by simp only; omega, by simp only; omega⟩

theorem inside_of_mem_splits {tokenCount : Nat} {span left right : Span}
    (inside : span.Inside tokenCount) (h : (left, right) ∈ span.splits) :
    left.Inside tokenCount ∧ right.Inside tokenCount := by
  simp only [splits, List.mem_map, List.mem_range'_1, Prod.mk.injEq] at h
  obtain ⟨cut, ⟨low, high⟩, rfl, rfl⟩ := h
  obtain ⟨_, fits⟩ := inside
  simp only [Inside]
  omega

theorem shorter_of_mem_splits {span left right : Span} (h : (left, right) ∈ span.splits) :
    left.length < span.length ∧ right.length < span.length := by
  simp only [splits, List.mem_map, List.mem_range'_1, Prod.mk.injEq] at h
  obtain ⟨cut, ⟨low, high⟩, rfl, rfl⟩ := h
  simp only
  omega

def slice (span : Span) (tokens : List String) : List String :=
  (tokens.drop span.start).take span.length

end Span

abbrev Cell := Index String Derivation

def emptyRows (tokenCount : Nat) : Array (Array Cell) :=
  Array.ofFn (n := tokenCount) fun row => Array.replicate (tokenCount - row) ∅

structure Chart where
  tokenCount : Nat
  /-- The cells of the spans of `length` tokens are in row `length - 1`, by their start. -/
  rows : Array (Array Cell) := emptyRows tokenCount
  rows_size : rows.size = tokenCount := by simp [emptyRows]
  row_size : ∀ (row : Nat) (h : row < rows.size), rows[row].size = tokenCount - row := by
    simp [emptyRows]

namespace Chart

def cell? (chart : Chart) (span : Span) : Option Cell :=
  if span.length = 0 then none
  else chart.rows[span.length - 1]?.bind fun row => row[span.start]?

theorem cell?_isSome_iff {chart : Chart} {span : Span} :
    (chart.cell? span).isSome ↔ span.Inside chart.tokenCount := by
  unfold cell?
  split
  · simp only [Option.isSome_none, Bool.false_eq_true, false_iff, Span.Inside]
    omega
  · rename_i positive
    by_cases low : span.length - 1 < chart.rows.size
    · have size := chart.row_size _ low
      have bound := chart.rows_size
      simp only [Array.getElem?_eq_getElem low, Option.bind_some, isSome_getElem?, Span.Inside]
      omega
    · have bound := chart.rows_size
      simp only [Array.getElem?_eq_none (Nat.le_of_not_lt low), Option.bind_none,
        Option.isSome_none, Bool.false_eq_true, false_iff, Span.Inside]
      omega

def put (chart : Chart) (span : Span) (cell : Cell) : Chart where
  tokenCount := chart.tokenCount
  rows := chart.rows.modify (span.length - 1) fun row => row.setIfInBounds span.start cell
  rows_size := by simp [chart.rows_size]
  row_size := by
    intro row h
    have old := chart.row_size row (by simpa using h)
    rw [Array.getElem_modify]
    split <;> simp [old]

theorem cell?_put {chart : Chart} {span : Span} (inside : span.Inside chart.tokenCount)
    (cell : Cell) (other : Span) :
    (chart.put span cell).cell? other = if span = other then some cell else chart.cell? other := by
  obtain ⟨length, start⟩ := span
  obtain ⟨otherLength, otherStart⟩ := other
  obtain ⟨positive, fits⟩ : 1 ≤ length ∧ start + length ≤ chart.tokenCount := inside
  have low : length - 1 < chart.rows.size := by
    rw [chart.rows_size]
    omega
  have narrow : start < chart.rows[length - 1].size := by
    rw [chart.row_size _ low]
    omega
  simp only [cell?, put, Array.getElem?_modify, Span.mk.injEq]
  by_cases sameLength : length = otherLength
  · subst sameLength
    have nonzero : length ≠ 0 := by omega
    by_cases sameStart : start = otherStart
    · subst sameStart
      simp [nonzero, low, narrow]
    · simp [nonzero, low, sameStart]
  · by_cases none : otherLength = 0
    · simp [none, Nat.ne_of_gt positive]
    · have rowsDiffer : length - 1 ≠ otherLength - 1 := by omega
      simp [none, sameLength, rowsDiffer]

theorem exists_cell {chart : Chart} {span : Span} (inside : span.Inside chart.tokenCount) :
    ∃ cell, chart.cell? span = some cell :=
  Option.isSome_iff_exists.mp (cell?_isSome_iff.mpr inside)

def derivations? (chart : Chart) (span : Span) (category : String) : Option (List Derivation) :=
  (chart.cell? span).map (·.items category)

/-- The derivations of a category that a span holds; outside the chart there are none. -/
def held (chart : Chart) (span : Span) (category : String) : List Derivation :=
  (chart.derivations? span category).getD []

theorem derivations?_of_inside {chart : Chart} {span : Span}
    (inside : span.Inside chart.tokenCount) (category : String) :
    chart.derivations? span category = some (chart.held span category) := by
  obtain ⟨cell, found⟩ := exists_cell inside
  simp [held, derivations?, found]

theorem eq_empty_of_cell? {tokenCount : Nat} {span : Span} {cell : Cell}
    (h : cell? { tokenCount } span = some cell) : cell = ∅ := by
  simp only [cell?, emptyRows, Array.getElem?_ofFn] at h
  split at h
  · cases h
  · split at h
    · simp only [Option.bind_some, Array.getElem?_replicate] at h
      split at h
      · exact (Option.some.inj h).symm
      · cases h
    · cases h

theorem held_empty (tokenCount : Nat) (span : Span) (category : String) :
    held { tokenCount } span category = [] := by
  unfold held derivations?
  cases known : cell? { tokenCount } span with
  | none => rfl
  | some cell =>
    obtain rfl := eq_empty_of_cell? known
    exact Index.items_empty category

/-- Files derivations after those that the cell holds of their categories. -/
def insert? (chart : Chart) (span : Span) (found : List Derivation) : Option Chart :=
  (chart.cell? span).map fun cell =>
    chart.put span (found.foldl (fun cell d => cell.file d.category d) cell)

theorem items_foldl_file (cell : Cell) (found : List Derivation) (category : String) :
    (found.foldl (fun cell d => cell.file d.category d) cell).items category =
      cell.items category ++ found.filter (·.category = category) := by
  induction found generalizing cell with
  | nil => simp
  | cons d found ih =>
    rw [List.foldl_cons, ih, Index.items_file]
    by_cases same : d.category = category
    · simp [same]
    · simp [same]

theorem insert?_of_inside {chart : Chart} {span : Span} (inside : span.Inside chart.tokenCount)
    (found : List Derivation) :
    ∃ next, chart.insert? span found = some next ∧ next.tokenCount = chart.tokenCount ∧
      ∀ other category, next.held other category =
        chart.held other category ++
          if span = other then found.filter (·.category = category) else [] := by
  obtain ⟨cell, known⟩ := exists_cell inside
  refine ⟨chart.put span (found.foldl (fun cell d => cell.file d.category d) cell),
    by simp [insert?, known], rfl, fun other category => ?_⟩
  simp only [held, derivations?, cell?_put inside]
  by_cases same : span = other
  · subst same
    simp [known, items_foldl_file]
  · simp [same]

def take? (chart : Chart) (span : Span) (category : String) :
    Option (List Derivation × Chart) :=
  (chart.cell? span).map fun cell => (cell.items category, chart.put span (cell.erase category))

theorem take?_of_inside {chart : Chart} {span : Span} (inside : span.Inside chart.tokenCount)
    (category : String) :
    ∃ next, chart.take? span category = some (chart.held span category, next) := by
  obtain ⟨cell, known⟩ := exists_cell inside
  exact ⟨chart.put span (cell.erase category), by simp [take?, held, derivations?, known]⟩

def counts? (chart : Chart) (span : Span) : Option (List (String × Nat)) :=
  (chart.cell? span).map fun cell =>
    cell.toList.map fun (category, derivations) => (category, derivations.length)

end Chart

end SemanticParsing
