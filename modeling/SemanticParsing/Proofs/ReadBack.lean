import SemanticParsing.Proofs.NumberText
import SemanticParsing.Proofs.ReadImage
import SemanticParsing.Proofs.WholeArithmetic
import SemanticParsing.Proofs.Words
/-! What the reader gives is written as a text that it reads as an equal value. -/
namespace SemanticParsing.Value

open Text

variable {program : String} {v w : Value} {items others : List Value}

theorem stops_close (rest : List Char) : Stops isParenthesis (')' :: rest) := by
  simp [Stops, isParenthesis]

theorem stops_space (rest : List Char) : Stops isParenthesis (' ' :: rest) := by
  simp [Stops, isBlank_space]

theorem pieces_items (items : List Value) :
    piecesFrom isParenthesis [] ((itemsText items).toList ++ [')']) =
      items.flatMap (fun v => tokens v.text) ++ [")"] := by
  have close : piecesFrom isParenthesis [] [')'] = [")"] := by decide
  induction items with
  | nil => simpa [itemsText] using close
  | cons v items ih =>
    cases items with
    | nil =>
      rw [itemsText, piecesFrom_append (stops_close []), close]
      simp [tokens, pieces]
    | cons next items =>
      have spaced : (itemsText (v :: next :: items)).toList ++ [')'] =
          v.text.toList ++ ' ' :: ((itemsText (next :: items)).toList ++ [')']) := by
        simp [itemsText.eq_3]
      rw [spaced, piecesFrom_append (stops_space _), piecesFrom_space, ih]
      simp [tokens, pieces]

theorem tokens_list (items : List Value) :
    tokens (list items).text = "(" :: (items.flatMap (fun v => tokens v.text) ++ [")"]) := by
  have opened : (list items).text.toList = '(' :: ((itemsText items).toList ++ [')']) := by
    simp [text]
  have unblank : isBlank '(' = false := by decide
  rw [← pieces_items, tokens, pieces, opened]
  simp [piecesFrom, unblank, isParenthesis, closeRun]

/-- Where reading stands after a value, which is the last item of the innermost open list. -/
def placed (v : Value) : List (List Value) → List String → Except ReadError (Value × List String)
  | [], rest => .ok (v, rest)
  | items :: stack, rest => readTokens ((v :: items) :: stack) rest

/-- The tokens are those of the value, wherever they stand. -/
def ReadAs (spelling : List String) (v : Value) : Prop :=
  ∀ stack rest, readTokens stack (spelling ++ rest) = v.placed stack rest

theorem readAs_atom {token : String} (notOpen : token ≠ "(") (notClose : token ≠ ")") :
    ReadAs [token] (atom token) := by
  intro stack rest
  cases stack <;> simp [readTokens, notOpen, notClose, placed]

theorem readTokens_items {spelling : Value → List String}
    (h : List.Forall₂ (fun v w => ReadAs (spelling v) w) items others) (begun : List Value)
    (stack : List (List Value)) (rest : List String) :
    readTokens (begun :: stack) (items.flatMap spelling ++ rest) =
      readTokens ((others.reverse ++ begun) :: stack) rest := by
  induction h generalizing begun with
  | nil => rfl
  | cons spells _ ih =>
    rw [List.flatMap_cons, List.append_assoc, spells, placed, ih]
    simp

theorem readTokens_open (stack : List (List Value)) (rest : List String) :
    readTokens stack ("(" :: rest) = readTokens ([] :: stack) rest := by
  rw [readTokens.eq_def]
  cases stack <;> simp

theorem readTokens_close (items : List Value) (stack : List (List Value)) (rest : List String) :
    readTokens (items :: stack) (")" :: rest) = (list items.reverse).placed stack rest := by
  cases stack <;> simp [readTokens, placed]

theorem readAs_list {spelling : Value → List String}
    (h : List.Forall₂ (fun v w => ReadAs (spelling v) w) items others) :
    ReadAs ("(" :: (items.flatMap spelling ++ [")"])) (list others) := by
  intro stack rest
  rw [List.cons_append, List.append_assoc, readTokens_open, readTokens_items h]
  simp [readTokens_close]

/-- The text of a value is read as an equal one, which is the same one where no float is in it. -/
structure ReadsBack (v w : Value) : Prop where
  reads : ReadAs (tokens v.text) w
  same : v.same w
  exact : (∀ x, ¬ (float x).Occurs v) → w = v

theorem eq_of_readsBack (h : List.Forall₂ ReadsBack items others)
    (none : ∀ v ∈ items, ∀ x, ¬ (float x).Occurs v) : others = items := by
  induction h with
  | nil => rfl
  | cons back _ ih =>
    rw [List.forall_mem_cons] at none
    rw [back.exact none.1, ih none.2]

theorem readsBack_list (h : List.Forall₂ ReadsBack items others) :
    ReadsBack (list items) (list others) where
  reads := by
    rw [tokens_list]
    exact readAs_list (h.imp fun _ _ back => back.reads)
  same := same_list (h.imp fun _ _ back => back.same)
  exact none := by
    rw [eq_of_readsBack h fun v member x inside => none x (.item member inside)]

theorem exists_forall₂ {R : Value → Value → Prop} (h : ∀ v ∈ items, ∃ w, R v w) :
    ∃ others, List.Forall₂ R items others := by
  induction items with
  | nil => exact ⟨[], .nil⟩
  | cons v items ih =>
    obtain ⟨w, related⟩ := h v List.mem_cons_self
    obtain ⟨others, each⟩ := ih fun v member => h v (List.mem_cons_of_mem _ member)
    exact ⟨w :: others, .cons related each⟩

theorem plain_of_isNumeral {c : Char} (h : Decimal.IsNumeral c) : Plain isParenthesis c := by
  obtain isDigit | rfl | rfl := h
  · obtain ⟨low, high⟩ : 48 ≤ c.toNat ∧ c.toNat ≤ 57 := Char.isDigit_iff_toNat.mp isDigit
    constructor
    · simp [isBlank, blankRanges]
      omega
    · have notOpen : c ≠ '(' := by rintro rfl; cases isDigit
      have notClose : c ≠ ')' := by rintro rfl; cases isDigit
      simp [isParenthesis, notOpen, notClose]
  · constructor <;> decide
  · constructor <;> decide

theorem readAs_run {text : String} (nonempty : text.toList ≠ [])
    (plain : ∀ c ∈ text.toList, Plain isParenthesis c) : ReadAs (tokens text) (atom text) := by
  have piece : IsPiece isParenthesis text := by
    rw [← String.ofList_toList (s := text)]
    exact .run _ nonempty plain
  have other (c : Char) (mark : isParenthesis c) : text ≠ String.singleton c := by
    rintro rfl
    simp [Plain, mark] at plain
  rw [tokens, pieces, piecesFrom_toList piece]
  exact readAs_atom (other '(' rfl) (other ')' rfl)

theorem readWhole?_integerText (n : Int64) :
    readWhole? (Decimal.integerText n.toInt) = some n := by
  rw [readWhole?, Decimal.readInteger?_integerText]
  exact Whole.fit?_eq_some_iff.mpr rfl

theorem atom_text_int (n : Int64) : atom (int n).text = int n := by
  rw [atom, text, readWhole?_integerText]

theorem readReal?_text {x : Float} (h : x.isFinite) :
    readReal? (Decimal.Layout.plain.text x) = some x := by
  have digit : (Decimal.Layout.plain.text x).toList.any Char.isDigit :=
    List.any_eq_true.mpr (Decimal.exists_digit_text h)
  rw [readReal?, if_pos digit, Decimal.readFloat?_text h, Option.filter_some, if_pos h]

theorem same_atom_text_float {x : Float} (h : x.isFinite) :
    (float x).same (atom (float x).text) := by
  rw [atom, text]
  cases whole : readWhole? (Decimal.Layout.plain.text x) with
  | some n =>
    obtain ⟨m, read, fits⟩ := Option.bind_eq_some_iff.mp whole
    obtain rfl := Whole.fit?_eq_some_iff.mp fits
    exact Decimal.beq_of_readInteger?_text h read
  | none =>
    rw [readReal?_text h]
    exact Decimal.beq_self_of_isFinite h

theorem isFinite_of_readReal? {token : String} {x : Float} (h : readReal? token = some x) :
    x.isFinite := by
  rw [readReal?] at h
  split_ifs at h
  exact (Option.filter_eq_some_iff.mp h).2

theorem readsBack_run (nonempty : v.text.toList ≠ [])
    (plain : ∀ c ∈ v.text.toList, Plain isParenthesis c) (same : v.same (atom v.text))
    (exact : (∀ x, ¬ (float x).Occurs v) → atom v.text = v) : ReadsBack v (atom v.text) :=
  ⟨readAs_run nonempty plain, same, exact⟩

theorem readsBack_number (digit : ∃ c ∈ v.text.toList, c.isDigit)
    (numeral : ∀ c ∈ v.text.toList, Decimal.IsNumeral c) (same : v.same (atom v.text))
    (exact : (∀ x, ¬ (float x).Occurs v) → atom v.text = v) : ReadsBack v (atom v.text) := by
  obtain ⟨c, member, -⟩ := digit
  exact readsBack_run (List.ne_nil_of_mem member)
    (fun c member => plain_of_isNumeral (numeral c member)) same exact

theorem readsBack_int (n : Int64) : ReadsBack (int n) (atom (int n).text) := by
  refine readsBack_number ?_ ?_ ?_ fun _ => atom_text_int n
  · rw [text]
    exact Decimal.exists_digit_integerText _
  · rw [text]
    exact Decimal.numeral_integerText _
  · rw [atom_text_int]
    exact beq_self_eq_true n

theorem readsBack_float {x : Float} (h : x.isFinite) :
    ReadsBack (float x) (atom (float x).text) := by
  refine readsBack_number ?_ ?_ (same_atom_text_float h) fun none => absurd .self (none x)
  · rw [text]
    exact Decimal.exists_digit_text h
  · rw [text]
    exact Decimal.numeral_text h

theorem readsBack_bool (b : Bool) : ReadsBack (bool b) (atom (bool b).text) := by
  have reread : atom (bool b).text = bool b := by cases b <;> rfl
  refine readsBack_run ?_ ?_ ?_ fun _ => reread
  · cases b <;> decide
  · cases b <;> simp [text, Plain, isParenthesis] <;> decide
  · rw [reread]
    exact beq_self_eq_true b

theorem readsBack_atom {token : String} (nonempty : token.toList ≠ [])
    (plain : ∀ c ∈ token.toList, Plain isParenthesis c) :
    ReadsBack (atom token) (atom (atom token).text) := by
  fun_cases atom token with
  | case1 n => exact readsBack_int n
  | case2 _ x real => exact readsBack_float (isFinite_of_readReal? real)
  | case3 => exact readsBack_bool true
  | case4 => exact readsBack_bool false
  | case5 whole real isTrue isFalse =>
    have reread : atom token = symbol token := by
      simp only [atom, whole, real, isTrue, isFalse, if_false]
    refine readsBack_run ?_ ?_ ?_ fun _ => ?_
    · exact nonempty
    · exact plain
    · rw [text, reread]
      exact beq_self_eq_true token
    · rw [text, reread]

theorem exists_readsBack (h : read program = .ok v) : ∃ w, ReadsBack v w := by
  refine read_all (P := fun v => ∃ w, ReadsBack v w) (fun items each => ?_) ?_ h
  · obtain ⟨others, back⟩ := exists_forall₂ each
    exact ⟨.list others, readsBack_list back⟩
  · intro token member notOpen notClose
    have piece : IsPiece isParenthesis token := isPiece_of_mem_piecesFrom (by simp) member
    cases piece with
    | mark c _ marked =>
      obtain rfl | rfl : c = '(' ∨ c = ')' := by simpa [isParenthesis] using marked
      · exact absurd rfl notOpen
      · exact absurd rfl notClose
    | run cs nonempty plain =>
      exact ⟨_, readsBack_atom (by simpa using nonempty) (by simpa using plain)⟩

theorem read_of_readAs {text : String} (h : ReadAs (tokens text) w) : read text = .ok w := by
  have all := h [] []
  rw [List.append_nil] at all
  rw [read, all]
  rfl

/-- An expression is written as a text that is read as an equal expression, and as the same one if
it has no float in it. A float that is a whole number may come back as an integer. -/
theorem read_text (h : read program = .ok v) :
    ∃ w, read v.text = .ok w ∧ v.same w ∧ ((∀ x, ¬ (float x).Occurs v) → w = v) := by
  obtain ⟨w, back⟩ := exists_readsBack h
  exact ⟨w, read_of_readAs back.reads, back.same, back.exact⟩

def hundredCall : Value :=
  list [symbol "f", int 0, list [bool true, atom "1e2"]]

theorem read_text_hundredCall :
    read "(f -0 (#t 1e2))" = .ok hundredCall ∧ hundredCall.text = "(f 0 (#t 100))" ∧
      ∃ w, read hundredCall.text = .ok w ∧ hundredCall.same w ∧
        ((∀ x, ¬ (float x).Occurs hundredCall) → w = hundredCall) := by
  have given : read "(f -0 (#t 1e2))" = .ok hundredCall := rfl
  exact ⟨given, by decide +kernel, read_text given⟩

end SemanticParsing.Value
