import Mathlib.Data.List.DropRight
import SemanticParsing.Grammar.Chart
/-!
Charts by their history. One command is shown to change one list, and from this it follows what a
chart holds after any commands. Main statement: a chart is a map from spans and categories to lists,
where each list has what was inserted there since it was last taken.
-/
namespace SemanticParsing.Chart

inductive Command where
  | insert (span : Span) (d : Derivation)
  | take (span : Span) (category : String)
  | derivations (span : Span) (category : String)

namespace Command

def span : Command → Span
  | insert s _ | take s _ | derivations s _ => s

def isTake (span : Span) (category : String) : Command → Bool
  | take s c => s = span ∧ c = category
  | _ => false

/-- The derivation of a category that the command inserts at a span. -/
def inserted? (span : Span) (category : String) : Command → Option Derivation
  | insert s d => if s = span ∧ d.category = category then some d else none
  | _ => none

def Changes (command : Command) (span : Span) (category : String) : Prop :=
  command.isTake span category ∨ (command.inserted? span category).isSome

/-- What becomes of the list of a category at a span. -/
def change (command : Command) (span : Span) (category : String)
    (entry : Option (List Derivation)) : Option (List Derivation) :=
  if command.isTake span category then none
  else
    match command.inserted? span category with
    | some d => some (entry.getD [] ++ [d])
    | none => entry

theorem change_of_not_changes {command : Command} {span : Span} {category : String}
    (h : ¬ command.Changes span category) (entry : Option (List Derivation)) :
    command.change span category entry = entry := by
  obtain ⟨kept, unchanged⟩ := not_or.mp h
  rw [change, if_neg kept, Option.not_isSome_iff_eq_none.mp unchanged]

theorem span_of_changes {command : Command} {span : Span} {category : String}
    (h : command.Changes span category) : command.span = span := by
  cases command with
  | insert s d => exact (by simpa [Changes, isTake, inserted?] using h : s = span ∧ _).1
  | take s c => exact (by simpa [Changes, isTake, inserted?] using h : s = span ∧ _).1
  | derivations s c => simp [Changes, isTake, inserted?] at h

end Command

/-- What a command gives and the chart after it. An insertion gives nothing. -/
def perform? (chart : Chart) : Command → Option (List Derivation × Chart)
  | .insert span d => (chart.insert? span [d]).map fun next => ([], next)
  | .take span category => chart.take? span category
  | .derivations span category =>
    (chart.derivations? span category).map fun found => (found, chart)

def after (chart : Chart) (command : Command) : Chart :=
  ((chart.perform? command).map (·.2)).getD chart

def ofCommands (tokenCount : Nat) (commands : List Command) : Chart :=
  commands.foldl after { tokenCount }

/-- The derivations of a category that were inserted at a span since they were last taken. -/
def latest (commands : List Command) (span : Span) (category : String) : List Derivation :=
  (commands.rtakeWhile fun command => !command.isTake span category).filterMap
    (·.inserted? span category)

/-- The list that the cell of a span has for a category. -/
def stored? (chart : Chart) (span : Span) (category : String) : Option (List Derivation) :=
  (chart.cell? span).bind (·[category]?)

def listed (ds : List Derivation) : Option (List Derivation) :=
  if ds = [] then none else some ds

variable {chart : Chart} {span : Span} {category : String}

theorem getD_listed (ds : List Derivation) : (listed ds).getD [] = ds := by
  unfold listed
  split
  case isTrue none => exact none.symm
  case isFalse => rfl

theorem listed_latest_concat (commands : List Command) (command : Command) (span : Span)
    (category : String) : listed (latest (commands ++ [command]) span category) =
      command.change span category (listed (latest commands span category)) := by
  unfold Command.change
  split
  case isTrue taken => simp [latest, taken, listed]
  case isFalse kept =>
    have kept : command.isTake span category = false := by simpa using kept
    cases inserted : command.inserted? span category with
    | none => simp [latest, kept, inserted]
    | some d =>
      rw [getD_listed]
      simp [latest, kept, inserted, listed]

theorem inside_of_cell? {cell : Cell} (known : chart.cell? span = some cell) :
    span.Inside chart.tokenCount :=
  cell?_isSome_iff.mp (Option.isSome_of_eq_some known)

theorem derivations?_eq_stored? (inside : span.Inside chart.tokenCount) (category : String) :
    chart.derivations? span category = some ((chart.stored? span category).getD []) := by
  obtain ⟨cell, known⟩ := exists_cell inside
  simp [derivations?, stored?, known, Index.items, Std.ExtTreeMap.getD_eq_getD_getElem?]

theorem stored?_put (inside : span.Inside chart.tokenCount) (cell : Cell) (other : Span)
    (category : String) : (chart.put span cell).stored? other category =
      if span = other then cell[category]? else chart.stored? other category := by
  rw [stored?, cell?_put inside]
  split <;> rfl

theorem stored?_insert {cell : Cell} (known : chart.cell? span = some cell) (d : Derivation)
    (other : Span) (category : String) :
    (chart.put span (cell.file d.category d)).stored? other category =
      (Command.insert span d).change other category (chart.stored? other category) := by
  rw [stored?_put (inside_of_cell? known), Index.getElem?_file]
  simp only [Command.change, Command.isTake, Command.inserted?, Bool.false_eq_true, if_false]
  by_cases here : span = other
  · subst here
    by_cases same : d.category = category
    · subst same
      simp [stored?, known, Index.items, Std.ExtTreeMap.getD_eq_getD_getElem?]
    · simp [stored?, known, same]
  · simp [here]

theorem stored?_take {cell : Cell} (known : chart.cell? span = some cell) (taken : String)
    (other : Span) (category : String) :
    (chart.put span (cell.erase taken)).stored? other category =
      (Command.take span taken).change other category (chart.stored? other category) := by
  rw [stored?_put (inside_of_cell? known), Std.ExtTreeMap.getElem?_erase]
  simp only [Command.change, Command.isTake, Command.inserted?]
  by_cases here : span = other
  · subst here
    by_cases same : taken = category <;> simp [stored?, known, same]
  · simp [here]

/-- Inside the chart a command succeeds, and changes what its kind and target say. -/
theorem perform?_of_inside {command : Command} (inside : command.span.Inside chart.tokenCount) :
    ∃ answer next, chart.perform? command = some (answer, next) ∧
      next.tokenCount = chart.tokenCount ∧ ∀ span category, next.stored? span category =
        command.change span category (chart.stored? span category) := by
  obtain ⟨cell, known⟩ := exists_cell inside
  cases command with
  | insert s d =>
    exact ⟨[], chart.put s (cell.file d.category d), by simp_all [perform?, insert?, Command.span],
      rfl, stored?_insert known d⟩
  | take s c =>
    exact ⟨cell.items c, chart.put s (cell.erase c), by simp_all [perform?, take?, Command.span],
      rfl, stored?_take known c⟩
  | derivations s c =>
    exact ⟨cell.items c, chart, by simp_all [perform?, derivations?, Command.span], rfl,
      fun _ _ => rfl⟩

theorem perform?_isSome_iff {command : Command} :
    (chart.perform? command).isSome ↔ command.span.Inside chart.tokenCount := by
  rw [← cell?_isSome_iff]
  cases command <;> simp [perform?, insert?, take?, derivations?, Command.span]

theorem after_of_outside {command : Command}
    (outside : ¬ command.span.Inside chart.tokenCount) : chart.after command = chart := by
  have failed : chart.perform? command = none :=
    Option.not_isSome_iff_eq_none.mp (mt perform?_isSome_iff.mp outside)
  simp [after, failed]

/-- A command outside the chart fails, and its target is not inside. -/
theorem after_changes (chart : Chart) (command : Command) :
    (chart.after command).tokenCount = chart.tokenCount ∧
      ∀ span, span.Inside chart.tokenCount → ∀ category,
        (chart.after command).stored? span category =
          command.change span category (chart.stored? span category) := by
  by_cases here : command.span.Inside chart.tokenCount
  · obtain ⟨answer, next, performed, size, changed⟩ := perform?_of_inside here
    have reached : chart.after command = next := by simp [after, performed]
    rw [reached]
    exact ⟨size, fun span _ => changed span⟩
  · rw [after_of_outside here]
    refine ⟨rfl, fun span inside category => (Command.change_of_not_changes ?_ _).symm⟩
    exact fun changes => here (Command.span_of_changes changes ▸ inside)

theorem ofCommands_concat (tokenCount : Nat) (commands : List Command) (command : Command) :
    ofCommands tokenCount (commands ++ [command]) =
      (ofCommands tokenCount commands).after command := by
  simp [ofCommands]

theorem tokenCount_ofCommands (tokenCount : Nat) (commands : List Command) :
    (ofCommands tokenCount commands).tokenCount = tokenCount := by
  induction commands using List.reverseRecOn with
  | nil => rfl
  | append_singleton commands command ih => rw [ofCommands_concat, (after_changes ..).1, ih]

theorem inside_ofCommands {tokenCount : Nat} (commands : List Command)
    (inside : span.Inside tokenCount) :
    span.Inside (ofCommands tokenCount commands).tokenCount := by
  rwa [tokenCount_ofCommands]

theorem stored?_empty (tokenCount : Nat) (span : Span) (category : String) :
    stored? { tokenCount } span category = none := by
  unfold stored?
  cases known : cell? { tokenCount } span with
  | none => rfl
  | some cell =>
    obtain rfl := eq_empty_of_cell? known
    exact Std.ExtTreeMap.getElem?_empty

theorem stored?_ofCommands {tokenCount : Nat} (commands : List Command)
    (inside : span.Inside tokenCount) (category : String) :
    (ofCommands tokenCount commands).stored? span category =
      listed (latest commands span category) := by
  induction commands using List.reverseRecOn with
  | nil => exact stored?_empty tokenCount span category
  | append_singleton commands command ih =>
    rw [ofCommands_concat, (after_changes ..).2 span (inside_ofCommands commands inside), ih,
      listed_latest_concat]

theorem derivations?_ofCommands {tokenCount : Nat} (commands : List Command)
    (inside : span.Inside tokenCount) (category : String) :
    (ofCommands tokenCount commands).derivations? span category =
      some (latest commands span category) := by
  rw [derivations?_eq_stored? (inside_ofCommands commands inside),
    stored?_ofCommands commands inside, getD_listed]

/-- What a chart answers that is a map from spans and categories to lists, by its history. -/
structure Recalls (tokenCount : Nat) (commands : List Command) (chart : Chart) : Prop where
  size : chart.tokenCount = tokenCount
  derivations : ∀ span, span.Inside tokenCount → ∀ category,
    chart.derivations? span category = some (latest commands span category)
  take : ∀ span, span.Inside tokenCount → ∀ category, ∃ next,
    chart.take? span category = some (latest commands span category, next) ∧
      next.derivations? span category = some [] ∧ next.stored? span category = none
  nonempty : ∀ (span : Span) (cell : Cell) (category : String) (ds : List Derivation),
    chart.cell? span = some cell → cell[category]? = some ds → ds ≠ []
  frame : ∀ command answer next, chart.perform? command = some (answer, next) →
    ∀ span category, ¬ command.Changes span category →
      next.stored? span category = chart.stored? span category
  succeeds_iff : ∀ command, (chart.perform? command).isSome ↔
    (1 ≤ command.span.length ∧ command.span.length ≤ tokenCount) ∧
      command.span.start ≤ tokenCount - command.span.length

/-- After any commands a chart holds, for each span inside it and each category, the derivations
that were inserted there since they were last taken. -/
theorem chart_recalls_history (tokenCount : Nat) (commands : List Command) :
    Recalls tokenCount commands (ofCommands tokenCount commands) where
  size := tokenCount_ofCommands tokenCount commands
  derivations := fun _ inside => derivations?_ofCommands commands inside
  take := by
    intro span inside category
    have known := derivations?_ofCommands commands inside category
    have inside := inside_ofCommands commands inside
    rw [derivations?_of_inside inside] at known
    have here : (Command.take span category).span.Inside
        (ofCommands tokenCount commands).tokenCount := inside
    obtain ⟨answer, next, performed, size, changed⟩ := perform?_of_inside here
    obtain ⟨rest, taken⟩ := take?_of_inside inside category
    obtain ⟨rfl, rfl⟩ := Prod.mk.inj (Option.some.inj (taken.symm.trans performed))
    have removed : rest.stored? span category = none := by
      rw [changed]
      simp [Command.change, Command.isTake]
    refine ⟨rest, by rw [taken, Option.some.inj known], ?_, removed⟩
    rw [derivations?_eq_stored? (size ▸ inside), removed]
    rfl
  nonempty := by
    intro span cell category ds known found
    have inside := inside_of_cell? known
    rw [tokenCount_ofCommands] at inside
    have held := stored?_ofCommands commands inside category
    rw [stored?, known, Option.bind_some, found, listed] at held
    split at held
    case isTrue => cases held
    case isFalse some => exact Option.some.inj held ▸ some
  frame := by
    intro command answer next performed span category unchanged
    obtain ⟨answer, next, known, size, changed⟩ := perform?_of_inside
      (perform?_isSome_iff.mp (Option.isSome_of_eq_some performed))
    obtain ⟨rfl, rfl⟩ := Prod.mk.inj (Option.some.inj (performed.symm.trans known))
    rw [changed, Command.change_of_not_changes unchanged]
  succeeds_iff := by
    intro command
    rw [perform?_isSome_iff, tokenCount_ofCommands, Span.Inside]
    omega

end SemanticParsing.Chart
