import SemanticParsing.Proofs.ReadBack
/-! The reader against its grammar, `expression := atom | '(' expression* ')'`: what it accepts,
and which of its errors each other program has. -/
namespace SemanticParsing.Value

/-- The tokens are those of expressions one after the other, with the values given. -/
inductive SpellsAll : List String → List Value → Prop
  | nil : SpellsAll [] []
  | atom {token : String} {spelling : List String} {values : List Value} :
      token ≠ "(" → token ≠ ")" → SpellsAll spelling values →
      SpellsAll (token :: spelling) (atom token :: values)
  | list {inner spelling : List String} {items values : List Value} :
      SpellsAll inner items → SpellsAll spelling values →
      SpellsAll ("(" :: (inner ++ ")" :: spelling)) (list items :: values)

/-- The tokens are those of one complete expression, which has the value. -/
def Spells (spelling : List String) (v : Value) : Prop :=
  SpellsAll spelling [v]

def IsExpression (spelling : List String) : Prop :=
  ∃ v, Spells spelling v

variable {spelling inner taken ts : List String} {items values : List Value}
  {stack : List (List Value)} {v w : Value}

theorem SpellsAll.append {more : List String} {others : List Value}
    (h : SpellsAll spelling values) (h' : SpellsAll more others) :
    SpellsAll (spelling ++ more) (values ++ others) := by
  induction h with
  | nil => exact h'
  | atom notOpen notClose _ ih => exact .atom notOpen notClose ih
  | list inside _ _ ih =>
    rw [List.cons_append, List.append_assoc, List.cons_append]
    exact .list inside ih

theorem spells_atom {token : String} (notOpen : token ≠ "(") (notClose : token ≠ ")") :
    Spells [token] (Value.atom token) :=
  .atom notOpen notClose .nil

theorem spells_list (h : SpellsAll inner items) : Spells ("(" :: (inner ++ [")"])) (list items) :=
  .list h .nil

theorem SpellsAll.readTokens_append (h : SpellsAll spelling values) (begun : List Value)
    (stack : List (List Value)) (rest : List String) :
    readTokens (begun :: stack) (spelling ++ rest) =
      readTokens ((values.reverse ++ begun) :: stack) rest := by
  induction h generalizing begun stack rest with
  | nil => rfl
  | @atom _ spelling _ notOpen notClose _ ih =>
    refine (readAs_atom notOpen notClose (begun :: stack) (spelling ++ rest)).trans ?_
    rw [placed, ih]
    simp
  | list _ _ ihInner ih =>
    rw [List.cons_append, List.append_assoc, List.cons_append, readTokens_open, ihInner,
      readTokens_close, placed, ih]
    simp

theorem Spells.readTokens_append (h : Spells spelling v) (rest : List String) :
    readTokens [] (spelling ++ rest) = .ok (v, rest) := by
  cases h with
  | atom notOpen notClose none =>
    cases none
    exact readAs_atom notOpen notClose [] rest
  | list inside none =>
    cases none
    rw [List.cons_append, List.append_assoc, readTokens_open, inside.readTokens_append]
    simp [readTokens_close, placed]

theorem Spells.unique {other : List String} (h : Spells spelling v) (h' : Spells other w)
    (here : spelling <+: ts) (there : other <+: ts) : other = spelling ∧ w = v := by
  obtain ⟨rest, rfl⟩ := here
  obtain ⟨left, same⟩ := there
  have first := h.readTokens_append rest
  have second := h'.readTokens_append left
  rw [same, first] at second
  cases second
  exact ⟨List.append_cancel_right same, rfl⟩

/-- The tokens open the lists, which are unclosed and have the items so far. As in reading, the
innermost list is first, and so is the last item of each. -/
inductive Opens : List String → List (List Value) → Prop
  | nil : Opens [] []
  | cons {taken inner : List String} {stack : List (List Value)} {items : List Value} :
      Opens taken stack → SpellsAll inner items →
      Opens (taken ++ "(" :: inner) (items.reverse :: stack)

theorem Opens.opens (h : Opens taken stack) : Opens (taken ++ ["("]) ([] :: stack) :=
  .cons h .nil

theorem Opens.places (h : Opens taken (items :: stack)) (spells : Spells spelling v) :
    Opens (taken ++ spelling) ((v :: items) :: stack) := by
  cases h with
  | cons around inside =>
    have more := Opens.cons around (inside.append spells)
    simpa using more

theorem Opens.innermost (h : Opens taken (items :: stack)) :
    ∃ around spelling, taken ++ [")"] = around ++ spelling ∧ Opens around stack ∧
      Spells spelling (list items.reverse) := by
  cases h with
  | cons around inside =>
    refine ⟨_, _, ?_, around, spells_list (by simpa using inside)⟩
    simp

theorem Opens.closes {outer : List Value} (h : Opens taken (items :: outer :: stack)) :
    Opens (taken ++ [")"]) ((list items.reverse :: outer) :: stack) := by
  obtain ⟨around, spelling, closed, opened, spells⟩ := h.innermost
  rw [closed]
  exact opened.places spells

theorem Opens.head?_append (h : Opens taken stack) (rest : List String) :
    (taken ++ "(" :: rest).head? = some "(" := by
  induction h generalizing rest with
  | nil => rfl
  | cons _ _ ih =>
    rw [List.append_assoc, List.cons_append]
    exact ih _

theorem Opens.head? (h : Opens taken (items :: stack)) : taken.head? = some "(" := by
  cases h with
  | cons around => exact around.head?_append _

theorem Opens.eq_nil (h : Opens taken []) : taken = [] := by
  cases h
  rfl

/-- What comes of reading one expression from the front of the tokens. -/
inductive Outcome : List String → Except ReadError (Value × List String) → Prop
  | empty : Outcome [] (.error .unexpectedEnd)
  | unopened (rest : List String) : Outcome (")" :: rest) (.error .missingOpen)
  | unclosed {ts : List String} {items : List Value} {stack : List (List Value)} :
      Opens ts (items :: stack) → Outcome ts (.error .missingClose)
  | expression {spelling : List String} {v : Value} (rest : List String) :
      Spells spelling v → Outcome (spelling ++ rest) (.ok (v, rest))

/-- Reading takes the tokens one by one, and those taken so far open the lists that it holds. -/
theorem Opens.outcome (h : Opens taken stack) (unread : List String) :
    Outcome (taken ++ unread) (readTokens stack unread) := by
  fun_induction readTokens stack unread generalizing taken with
  | case1 =>
    rw [h.eq_nil]
    exact .empty
  | case2 =>
    rw [List.append_nil]
    exact .unclosed h
  | case3 stack rest ih => simpa using ih h.opens
  | case4 rest =>
    rw [h.eq_nil]
    exact .unopened rest
  | case5 rest items =>
    obtain ⟨around, spelling, closed, opened, spells⟩ := h.innermost
    rw [opened.eq_nil, List.nil_append] at closed
    rw [← List.singleton_append, ← List.append_assoc, closed]
    exact .expression rest spells
  | case6 rest items outer stack _ ih => simpa using ih h.closes
  | case7 token rest notOpen notClose =>
    rw [h.eq_nil]
    exact .expression rest (spells_atom notOpen notClose)
  | case8 token rest notOpen notClose items stack ih =>
    simpa using ih (h.places (spells_atom notOpen notClose))

/-- Reading goes through the tokens once: those taken have decided its result, or what becomes of
the others depends on the lists that are open and no more on those taken. -/
def TakesOnce (stack : List (List Value)) (taken : List String) : Prop :=
  (∃ v rest, ∀ left, readTokens stack (taken ++ left) = .ok (v, rest ++ left)) ∨
    (∀ left, readTokens stack (taken ++ left) = .error .missingOpen) ∨
    ∃ begun, ∀ left, readTokens stack (taken ++ left) = readTokens begun left

theorem takesOnce (stack : List (List Value)) (taken : List String) : TakesOnce stack taken := by
  induction taken generalizing stack with
  | nil => exact .inr (.inr ⟨stack, fun _ => rfl⟩)
  | cons token taken ih =>
    have later {begun : List (List Value)}
        (step : ∀ left, readTokens stack (token :: (taken ++ left)) =
          readTokens begun (taken ++ left)) : TakesOnce stack (token :: taken) := by
      simpa only [TakesOnce, List.cons_append, step] using ih begun
    by_cases isOpen : token = "("
    · subst isOpen
      exact later fun left => readTokens_open stack (taken ++ left)
    by_cases isClose : token = ")"
    · subst isClose
      cases stack with
      | nil => exact .inr (.inl fun left => by simp [readTokens])
      | cons items stack =>
        cases stack with
        | nil => exact .inl ⟨_, taken, fun left => readTokens_close items [] (taken ++ left)⟩
        | cons outer stack =>
          exact later fun left => readTokens_close items (outer :: stack) (taken ++ left)
    · cases stack with
      | nil => exact .inl ⟨_, taken, fun left => readAs_atom isOpen isClose [] (taken ++ left)⟩
      | cons items stack =>
        exact later fun left => readAs_atom isOpen isClose (items :: stack) (taken ++ left)

theorem outcome_readTokens (ts : List String) : Outcome ts (readTokens [] ts) :=
  Opens.nil.outcome ts

theorem readTokens_unexpectedEnd_iff : readTokens [] ts = .error .unexpectedEnd ↔ ts = [] := by
  constructor
  · intro result
    have outcome := outcome_readTokens ts
    rw [result] at outcome
    cases outcome
    rfl
  · rintro rfl
    rfl

theorem readTokens_missingOpen_iff :
    readTokens [] ts = .error .missingOpen ↔ ts.head? = some ")" := by
  constructor
  · intro result
    have outcome := outcome_readTokens ts
    rw [result] at outcome
    cases outcome
    rfl
  · intro first
    obtain ⟨rest, rfl⟩ := List.head?_eq_some_iff.mp first
    simp [readTokens]

theorem readTokens_missingClose_iff : readTokens [] ts = .error .missingClose ↔
    ts.head? = some "(" ∧ ∀ spelling, spelling <+: ts → ¬ IsExpression spelling := by
  constructor
  · intro result
    have outcome := outcome_readTokens ts
    rw [result] at outcome
    cases outcome with
    | unclosed opens =>
      refine ⟨opens.head?, ?_⟩
      rintro spelling ⟨rest, rfl⟩ ⟨v, spells⟩
      rw [spells.readTokens_append] at result
      cases result
  · rintro ⟨first, none⟩
    have outcome := outcome_readTokens ts
    generalize readTokens [] ts = result at outcome ⊢
    cases outcome with
    | empty => cases first
    | unopened => simp at first
    | unclosed => rfl
    | expression rest spells => exact absurd ⟨_, spells⟩ (none _ (List.prefix_append _ rest))

/-- The tokens do not begin with an expression, for want of one parenthesis or of any token. -/
def Unreadable (ts : List String) : Prop :=
  ts = [] ∨ ts.head? = some ")" ∨
    (ts.head? = some "(" ∧ ∀ spelling, spelling <+: ts → ¬ IsExpression spelling)

theorem exists_spells_of_readable (h : ¬ Unreadable ts) :
    ∃ spelling rest v, ts = spelling ++ rest ∧ Spells spelling v := by
  have outcome := outcome_readTokens ts
  generalize result : readTokens [] ts = r at outcome
  cases outcome with
  | empty => exact absurd (.inl rfl) h
  | unopened => exact absurd (.inr (.inl rfl)) h
  | unclosed => exact absurd (.inr (.inr (readTokens_missingClose_iff.mp result))) h
  | expression rest spells => exact ⟨_, rest, _, rfl, spells⟩

variable {program : String}

theorem read_of_ok {rest : List String} (h : readTokens [] (tokens program) = .ok (v, rest)) :
    read program = if rest.isEmpty then .ok v else .error (.trailing rest) := by
  rw [read, h]
  rfl

theorem read_error_iff {e : ReadError} (h : ∀ rest, e ≠ .trailing rest) :
    read program = .error e ↔ readTokens [] (tokens program) = .error e := by
  cases result : readTokens [] (tokens program) with
  | error other =>
    rw [read, result]
    simp [bind, Except.bind]
  | ok outcome =>
    rw [read_of_ok result]
    split
    · simp
    · simpa using (h outcome.2).symm

/-- Reading is exact. A program without tokens has ended too early; one that begins with a closing
parenthesis lacks the opening one; one that begins with an opening parenthesis, and not with an
expression, lacks a closing one. Every other program begins with one expression and no other; it is
read as the value of that expression, or refused for the tokens that are left. Reading goes through
the tokens once. -/
theorem read_classifies (program : String) :
    (read program = .error .unexpectedEnd ↔ tokens program = []) ∧
      (read program = .error .missingOpen ↔ (tokens program).head? = some ")") ∧
      (read program = .error .missingClose ↔ (tokens program).head? = some "(" ∧
        ∀ spelling, spelling <+: tokens program → ¬ IsExpression spelling) ∧
      (¬ Unreadable (tokens program) → ∃ spelling rest v,
        tokens program = spelling ++ rest ∧ Spells spelling v ∧
        (∀ other w, other <+: tokens program → Spells other w → other = spelling ∧ w = v) ∧
        (rest = [] → read program = .ok v) ∧
        (rest ≠ [] → read program = .error (.trailing rest) ∧ (ReadError.trailing rest).message =
          "Unexpected input after expression: `" ++ " ".intercalate rest ++ "`")) ∧
      ∀ taken, TakesOnce [] taken := by
  refine ⟨?_, ?_, ?_, fun readable => ?_, takesOnce []⟩
  · exact (read_error_iff (by simp)).trans readTokens_unexpectedEnd_iff
  · exact (read_error_iff (by simp)).trans readTokens_missingOpen_iff
  · exact (read_error_iff (by simp)).trans readTokens_missingClose_iff
  · obtain ⟨spelling, rest, v, same, spells⟩ := exists_spells_of_readable readable
    have result := spells.readTokens_append rest
    rw [← same] at result
    refine ⟨spelling, rest, v, same, spells, fun other w there spells' => ?_, ?_, ?_⟩
    · exact spells.unique spells' ⟨rest, same.symm⟩ there
    · rintro rfl
      exact read_of_ok result
    · intro left
      rw [read_of_ok result, if_neg (by simpa using left)]
      exact ⟨rfl, rfl⟩

end SemanticParsing.Value
