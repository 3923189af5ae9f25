import SemanticParsing.Grammar.Parse
/-!
Parsing with every partial step guarded. A guarded step names what it asks for when it cannot have
it: a difference below zero, tokens beyond the last, a span outside the triangle, the rules of a
pair that has none. The loops are over lengths, starts and cuts, with the bounds of their ranges
computed under the same guards.

Without its faults a guarded step is the step of the parser, for every length, start and cut that
its loop visits. The parser finishes on every sentence, so no guard is ever met.
-/
namespace SemanticParsing

inductive Fault where
  | difference (whole part : Nat)
  | slice (first past : Nat)
  | address (length start : Nat)
  | rules (pair : CategoryPair)
  deriving DecidableEq, Repr

def counting (first past : Nat) : List Nat := List.range' first (past - first)

theorem mem_counting {first past n : Nat} : n ∈ counting first past ↔ first ≤ n ∧ n < past := by
  rw [counting, List.mem_range'_1]
  omega

namespace Fault

variable {α β : Type}

def orElse (fault : Fault) : Option α → Except Fault α
  | some a => .ok a
  | none => .error fault

@[simp]
theorem toOption_orElse (fault : Fault) (a : Option α) : (fault.orElse a).toOption = a := by
  cases a <;> rfl

@[simp]
theorem toOption_ok (a : α) : (.ok a : Except Fault α).toOption = some a := rfl

@[simp]
theorem toOption_bind (step : Except Fault α) (next : α → Except Fault β) :
    (step >>= next).toOption = step.toOption.bind fun a => (next a).toOption := by
  cases step <;> rfl

@[simp]
theorem toOption_map (f : α → β) (step : Except Fault α) :
    (f <$> step).toOption = step.toOption.map f := by
  cases step <;> rfl

theorem toOption_mapM {f : α → Except Fault β} {g : α → Option β} {xs : List α}
    (h : ∀ x ∈ xs, (f x).toOption = g x) : (xs.mapM f).toOption = xs.mapM g := by
  induction xs with
  | nil => rfl
  | cons x xs ih =>
    have head := h x List.mem_cons_self
    have tail := ih fun y member => h y (List.mem_cons_of_mem x member)
    simp only [List.mapM_cons, toOption_bind, head, tail]
    rfl

theorem toOption_foldlM {f : β → α → Except Fault β} {g : β → α → Option β} {xs : List α}
    (h : ∀ b, ∀ x ∈ xs, (f b x).toOption = g b x) (b : β) :
    (xs.foldlM f b).toOption = xs.foldlM g b := by
  induction xs generalizing b with
  | nil => rfl
  | cons x xs ih =>
    have tail := ih fun b y member => h b y (List.mem_cons_of_mem x member)
    simp [List.foldlM_cons, h b x List.mem_cons_self, tail]

theorem eq_ok_of_toOption {step : Except Fault α} {a : α} (h : step.toOption = some a) :
    step = .ok a := by
  cases step with
  | error => cases h
  | ok found => exact congrArg Except.ok (Option.some.inj h)

end Fault

open Fault

def difference (whole part : Nat) : Except Fault Nat :=
  if part ≤ whole then .ok (whole - part) else .error (.difference whole part)

theorem difference_of_le {whole part : Nat} (h : part ≤ whole) :
    difference whole part = .ok (whole - part) := if_pos h

def sliceOf (tokens : List String) (first past : Nat) : Except Fault (List String) :=
  if first ≤ past ∧ past ≤ tokens.length then .ok ((tokens.drop first).take (past - first))
  else .error (.slice first past)

theorem sliceOf_of_le {tokens : List String} {length start : Nat}
    (h : start + length ≤ tokens.length) :
    sliceOf tokens start (start + length) = .ok (Span.slice ⟨length, start⟩ tokens) := by
  rw [sliceOf, if_pos ⟨Nat.le_add_right start length, h⟩, Nat.add_sub_cancel_left, Span.slice]

theorem foldlM_flatMap {α β γ : Type} (f : α → List β) (g : γ → β → Option γ) (xs : List α)
    (c : γ) : (xs.flatMap f).foldlM g c = xs.foldlM (fun c x => (f x).foldlM g c) c := by
  induction xs generalizing c with
  | nil => rfl
  | cons x xs ih => simp only [List.flatMap_cons, List.foldlM_append, List.foldlM_cons, ih]

namespace Chart

/-- The cells of the starts that leave room for a length. -/
def guardedRow (tokenCount length : Nat) : Except Fault (Array Cell) := do
  let last ← difference tokenCount length
  return Array.replicate (last + 1) ∅

def guardedRows (tokenCount : Nat) : Except Fault (List (Array Cell)) :=
  (counting 1 (tokenCount + 1)).mapM (guardedRow tokenCount)

theorem guardedRow_of_le {tokenCount length : Nat} (h : length ≤ tokenCount) :
    guardedRow tokenCount length = .ok (Array.replicate (tokenCount + 1 - length) ∅) := by
  rw [guardedRow, difference_of_le h, Nat.sub_add_comm h]
  rfl

theorem guardedRows_eq (tokenCount : Nat) :
    guardedRows tokenCount = .ok (emptyRows tokenCount).toList := by
  have row : ∀ length ∈ counting 1 (tokenCount + 1), (guardedRow tokenCount length).toOption =
      some (Array.replicate (tokenCount + 1 - length) ∅) := by
    intro length member
    rw [guardedRow_of_le (Nat.le_of_lt_succ (mem_counting.mp member).2), toOption_ok]
  refine eq_ok_of_toOption ((toOption_mapM row).trans ?_)
  rw [Grammar.mapM_eq_some_map fun _ _ => rfl]
  refine congrArg some (List.ext_getElem ?_ fun i _ _ => ?_)
  · simp [counting, emptyRows]
  · have shift : tokenCount + 1 - (1 + i) = tokenCount - i := by omega
    simp [counting, emptyRows, shift]

theorem toArray_eq_emptyRows {tokenCount : Nat} {rows : List (Array Cell)}
    (h : guardedRows tokenCount = .ok rows) : rows.toArray = emptyRows tokenCount := by
  cases (guardedRows_eq tokenCount).symm.trans h
  rfl

def guardedEmpty (tokenCount : Nat) : Except Fault Chart :=
  match h : guardedRows tokenCount with
  | .error fault => .error fault
  | .ok rows => .ok {
      tokenCount
      rows := rows.toArray
      rows_size := by simp [toArray_eq_emptyRows h, emptyRows]
      row_size := by simp [toArray_eq_emptyRows h, emptyRows] }

theorem guardedEmpty_eq (tokenCount : Nat) : guardedEmpty tokenCount = .ok { tokenCount } := by
  unfold guardedEmpty
  split
  · rename_i fault h
    cases (guardedRows_eq tokenCount).symm.trans h
  · rename_i rows h
    simp only [toArray_eq_emptyRows h]

/-- Reads a row and a cell of it, for an address inside the triangle only. -/
def cellAt (chart : Chart) (length start : Nat) : Except Fault Cell :=
  if 1 ≤ length ∧ length ≤ chart.tokenCount ∧ start ≤ chart.tokenCount - length then do
    let row ← difference length 1
    let cells ← orElse (.address length start) chart.rows[row]?
    orElse (.address length start) cells[start]?
  else .error (.address length start)

theorem toOption_cellAt (chart : Chart) (length start : Nat) :
    (chart.cellAt length start).toOption = chart.cell? ⟨length, start⟩ := by
  unfold cellAt
  split
  · rename_i bounds
    have positive : length ≠ 0 := Nat.ne_of_gt bounds.1
    simp only [difference_of_le bounds.1, toOption_bind, toOption_ok, toOption_orElse, cell?,
      positive, if_false, Option.bind_some]
  · rename_i bounds
    have outside : ¬ (chart.cell? ⟨length, start⟩).isSome := by
      rw [cell?_isSome_iff]
      rintro ⟨positive, fits⟩
      simp only at positive fits
      omega
    exact (Option.not_isSome_iff_eq_none.mp outside).symm

def derivationsAt (chart : Chart) (length start : Nat) (category : String) :
    Except Fault (List Derivation) := do
  return (← chart.cellAt length start).items category

def insertAt (chart : Chart) (length start : Nat) (found : List Derivation) :
    Except Fault Chart := do
  let cell ← chart.cellAt length start
  return chart.put ⟨length, start⟩ (found.foldl (fun cell d => cell.file d.category d) cell)

def takeAt (chart : Chart) (length start : Nat) (category : String) :
    Except Fault (List Derivation × Chart) := do
  let cell ← chart.cellAt length start
  return (cell.items category, chart.put ⟨length, start⟩ (cell.erase category))

@[simp]
theorem toOption_derivationsAt (chart : Chart) (length start : Nat) (category : String) :
    (chart.derivationsAt length start category).toOption =
      chart.derivations? ⟨length, start⟩ category := by
  simp [derivationsAt, derivations?, toOption_cellAt]

@[simp]
theorem toOption_insertAt (chart : Chart) (length start : Nat) (found : List Derivation) :
    (chart.insertAt length start found).toOption = chart.insert? ⟨length, start⟩ found := by
  simp [insertAt, insert?, toOption_cellAt]

@[simp]
theorem toOption_takeAt (chart : Chart) (length start : Nat) (category : String) :
    (chart.takeAt length start category).toOption = chart.take? ⟨length, start⟩ category := by
  simp [takeAt, take?, toOption_cellAt]

def guardedVisits (tokenCount shortest longest : Nat)
    (visit : Chart → Nat → Nat → Except Fault Chart) (chart : Chart) : Except Fault Chart :=
  (counting shortest (longest + 1)).foldlM (fun chart length => do
    let last ← difference tokenCount length
    (counting 0 (last + 1)).foldlM (fun chart start => visit chart length start) chart) chart

theorem toOption_guardedVisits {tokenCount shortest longest : Nat}
    {visit : Chart → Nat → Nat → Except Fault Chart} {step : Chart → Span → Option Chart}
    (fits : longest ≤ tokenCount)
    (h : ∀ chart length start, start + length ≤ tokenCount →
      (visit chart length start).toOption = step chart ⟨length, start⟩) (chart : Chart) :
    (guardedVisits tokenCount shortest longest visit chart).toOption =
      (Span.between tokenCount shortest longest).foldlM step chart := by
  rw [Span.between, foldlM_flatMap]
  refine toOption_foldlM (fun chart length member => ?_) chart
  have bound : length ≤ tokenCount := by
    have := (mem_counting.mp member).2
    omega
  -- the starts are counted from a difference that is not cut off at zero
  have starts : Span.ofLength tokenCount length =
      (counting 0 (tokenCount - length + 1)).map (Span.mk length) := by
    rw [Span.ofLength, counting, List.range_eq_range', Nat.sub_add_comm bound, Nat.sub_zero]
  rw [difference_of_le bound, toOption_bind, toOption_ok, Option.bind_some, starts,
    List.foldlM_map]
  refine toOption_foldlM (fun chart start member => h chart length start ?_) chart
  have := (mem_counting.mp member).2
  omega

end Chart

namespace Grammar

def guardedLexical (grammar : Grammar) (tokens : List String) (chart : Chart) :
    Except Fault Chart :=
  chart.guardedVisits tokens.length 1 (min grammar.longestPhrase tokens.length)
    fun chart length start => do
      let phrase ← sliceOf tokens start (start + length)
      chart.insertAt length start (grammar.terminals phrase)

def rulesOf (grammar : Grammar) (pair : CategoryPair) : Except Fault (List Occurrence) :=
  orElse (.rules pair) grammar.binary[pair]?

def guardedPair (grammar : Grammar) (chart : Chart) (length start split : Nat)
    (pair : CategoryPair) : Except Fault (List Derivation) := do
  let lefts ← chart.derivationsAt split start pair.1
  let rights ← chart.derivationsAt (← difference length split) (start + split) pair.2
  if lefts.isEmpty || rights.isEmpty then return []
  return combine (← grammar.rulesOf pair) lefts rights

def guardedSplit (grammar : Grammar) (chart : Chart) (length start split : Nat) :
    Except Fault (List Derivation) :=
  List.flatten <$> grammar.binaryOrder.mapM (grammar.guardedPair chart length start split)

def guardedFound (grammar : Grammar) (chart : Chart) (length start : Nat) :
    Except Fault (List Derivation) :=
  List.flatten <$> (counting 1 length).mapM (grammar.guardedSplit chart length start)

def guardedBinary (grammar : Grammar) (chart : Chart) : Except Fault Chart :=
  chart.guardedVisits chart.tokenCount 2 chart.tokenCount fun chart length start => do
    chart.insertAt length start (← grammar.guardedFound chart length start)

def guardedDerive (grammar : Grammar) (tokens : List String) :
    Except Fault (List Derivation) :=
  if tokens.isEmpty then .ok []
  else do
    let chart ← grammar.guardedLexical tokens (← Chart.guardedEmpty tokens.length)
    let full ← grammar.guardedBinary chart
    let (derivations, _) ← full.takeAt tokens.length 0 grammar.startCategory
    return derivations

def guardedParse (grammar : Grammar) (sentence : String) : Except Fault (List Derivation) :=
  grammar.guardedDerive (Text.words sentence)

theorem toOption_guardedLexical (grammar : Grammar) (tokens : List String) (chart : Chart) :
    (grammar.guardedLexical tokens chart).toOption = grammar.fillLexical? tokens chart := by
  refine Chart.toOption_guardedVisits (Nat.min_le_right ..)
    (fun chart length start fits => ?_) chart
  simp [sliceOf_of_le fits, insertLexical?]

theorem toOption_guardedPair (grammar : Grammar) (chart : Chart) {length split : Nat}
    (cut : split < length) (start : Nat) (pair : CategoryPair) :
    (grammar.guardedPair chart length start split pair).toOption =
      grammar.foundByPair? chart (⟨split, start⟩, ⟨length - split, start + split⟩) pair := by
  simp only [guardedPair, foundByPair?, difference_of_le (Nat.le_of_lt cut), toOption_bind,
    toOption_ok, Option.bind_some, Chart.toOption_derivationsAt, Option.bind_eq_bind]
  refine congrArg _ (funext fun lefts => congrArg _ (funext fun rights => ?_))
  split
  · rfl
  · simp only [rulesOf, toOption_bind, toOption_orElse]
    rfl

theorem toOption_guardedSplit (grammar : Grammar) (chart : Chart) {length split : Nat}
    (cut : split < length) (start : Nat) :
    (grammar.guardedSplit chart length start split).toOption =
      grammar.foundBySplit? chart (⟨split, start⟩, ⟨length - split, start + split⟩) := by
  rw [guardedSplit, foundBySplit?, toOption_map,
    toOption_mapM fun pair _ => grammar.toOption_guardedPair chart cut start pair]

theorem toOption_guardedFound (grammar : Grammar) (chart : Chart) (length start : Nat) :
    (grammar.guardedFound chart length start).toOption = grammar.found? chart ⟨length, start⟩ := by
  have cuts : Span.splits ⟨length, start⟩ = (counting 1 length).map fun split =>
      (⟨split, start⟩, ⟨length - split, start + split⟩) := rfl
  rw [guardedFound, found?, toOption_map, cuts, List.mapM_map,
    toOption_mapM fun split member =>
      grammar.toOption_guardedSplit chart (mem_counting.mp member).2 start]
  rfl

theorem toOption_guardedBinary (grammar : Grammar) (chart : Chart) :
    (grammar.guardedBinary chart).toOption = grammar.fillBinary? chart := by
  refine Chart.toOption_guardedVisits (Nat.le_refl _) (fun chart length start _ => ?_) chart
  simp [toOption_guardedFound, insertFound?]

theorem toOption_guardedDerive (grammar : Grammar) (tokens : List String) :
    (grammar.guardedDerive tokens).toOption = grammar.derive? tokens := by
  unfold guardedDerive derive?
  split
  · rfl
  · simp only [fill?, Chart.guardedEmpty_eq, toOption_bind, toOption_ok, Option.bind_some,
      toOption_guardedLexical, toOption_guardedBinary, Chart.toOption_takeAt, Option.bind_eq_bind,
      Option.bind_assoc]
    rfl

/-- Whatever rules a grammar accepted, the parser finds the derivations of a sentence without
asking for a span outside the chart, a slice beyond the tokens, a difference below zero or the rules
of a pair without any. -/
theorem parse_never_faults (grammar : Grammar) (sentence : String) :
    grammar.guardedParse sentence = .ok (grammar.parse sentence) := by
  apply eq_ok_of_toOption
  rw [guardedParse, toOption_guardedDerive, parse, Option.some_get]

end Grammar

end SemanticParsing
