import SemanticParsing.Proofs.ExpressionGrammar
/-!
The layout of a text in blanks, marks and runs. Cutting a text gives the pieces of its only layout,
so nothing is lost but blanks and every run is as long as it can be. Main statement: so it is for
the tokens of a program, which are cut again in the same way when they are joined by spaces.
-/
namespace SemanticParsing.Text

variable {isMark : Char → Bool}

/-- A text as blanks, marks and runs one after the other, where no run goes on into what follows
it. Its pieces are the marks and the runs. -/
inductive Layout (isMark : Char → Bool) : List Char → List String → Prop
  | nil : Layout isMark [] []
  | blank {c : Char} {text : List Char} {ps : List String} :
      isBlank c → Layout isMark text ps → Layout isMark (c :: text) ps
  | mark {c : Char} {text : List Char} {ps : List String} :
      isBlank c = false → isMark c → Layout isMark text ps →
      Layout isMark (c :: text) (String.singleton c :: ps)
  | run {word text : List Char} {ps : List String} :
      word ≠ [] → (∀ c ∈ word, Plain isMark c) → Stops isMark text → Layout isMark text ps →
      Layout isMark (word ++ text) (String.ofList word :: ps)

variable {text : List Char} {ps : List String}

theorem stops_nil : Stops isMark [] := by simp [Stops]

theorem stops_cons {c : Char} (h : isBlank c ∨ isMark c) (text : List Char) :
    Stops isMark (c :: text) := by
  simpa [Stops] using h

theorem Stops.append {left right : List Char} (h : Stops isMark left) (h' : Stops isMark right) :
    Stops isMark (left ++ right) := by
  cases left with
  | nil => exact h'
  | cons c left => exact h

theorem Stops.of_append {left right : List Char} (h : Stops isMark (left ++ right)) :
    Stops isMark left := by
  cases left with
  | nil => exact stops_nil
  | cons c left => exact h

theorem Layout.closeRun_append {run : List Char} (plain : ∀ c ∈ run, Plain isMark c)
    (stops : Stops isMark text) (h : Layout isMark text ps) :
    Layout isMark (run.reverse ++ text) (closeRun run ++ ps) := by
  cases run with
  | nil => exact h
  | cons c run =>
    exact .run (by simp) (fun d member => plain d (List.mem_reverse.mp member)) stops h

theorem layout_piecesFrom {run : List Char} (plain : ∀ c ∈ run, Plain isMark c)
    (text : List Char) : Layout isMark (run.reverse ++ text) (piecesFrom isMark run text) := by
  induction text generalizing run with
  | nil => simpa [piecesFrom] using Layout.nil.closeRun_append plain stops_nil
  | cons c text ih =>
    have fresh : Layout isMark text (piecesFrom isMark [] text) :=
      @ih [] (by simp)
    unfold piecesFrom
    split
    case isTrue blank =>
      exact (Layout.blank blank fresh).closeRun_append plain (stops_cons (.inl blank) text)
    case isFalse unblank =>
      have unblank : isBlank c = false := by simpa using unblank
      split
      case isTrue marked =>
        exact (Layout.mark unblank marked fresh).closeRun_append plain
          (stops_cons (.inr marked) text)
      case isFalse unmarked =>
        have longer : ∀ d ∈ c :: run, Plain isMark d :=
          List.forall_mem_cons.mpr ⟨⟨unblank, by simpa using unmarked⟩, plain⟩
        simpa using ih longer

theorem Layout.pieces_eq (h : Layout isMark text ps) : piecesFrom isMark [] text = ps := by
  induction h with
  | nil => rfl
  | blank blank _ ih => simp [piecesFrom, closeRun, blank, ih]
  | mark unblank marked _ ih => simp [piecesFrom, closeRun, unblank, marked, ih]
  | @run word _ _ nonempty plain stops _ ih =>
    have one := piecesFrom_toList (IsPiece.run word nonempty plain)
    rw [String.toList_ofList] at one
    rw [piecesFrom_append stops, one, ih, List.singleton_append]

/-- A text has one layout, which cutting finds. -/
theorem layout_iff : Layout isMark text ps ↔ piecesFrom isMark [] text = ps := by
  refine ⟨Layout.pieces_eq, ?_⟩
  rintro rfl
  exact layout_piecesFrom (fun _ member => absurd member List.not_mem_nil) text

theorem filter_plain {word : List Char} (plain : ∀ c ∈ word, Plain isMark c) :
    word.filter (fun c => !isBlank c) = word :=
  List.filter_eq_self.mpr fun c member => by simp [(plain c member).1]

theorem Layout.flatMap_toList (h : Layout isMark text ps) :
    ps.flatMap String.toList = text.filter fun c => !isBlank c := by
  induction h with
  | nil => rfl
  | blank blank _ ih => simp [blank, ih]
  | mark unblank _ _ ih => simp [unblank, ih]
  | run _ plain _ _ ih =>
    rw [List.flatMap_cons, List.filter_append, filter_plain plain, ih, String.toList_ofList]

theorem join_pieces (isMark : Char → Bool) (text : String) :
    String.join (pieces isMark text) = String.ofList (text.toList.filter fun c => !isBlank c) := by
  have layout : Layout isMark text.toList (pieces isMark text) := layout_iff.mpr rfl
  rw [← layout.flatMap_toList, ← String.toList_join, String.ofList_toList]

/-- A piece that is no mark. -/
def IsRun (isMark : Char → Bool) (piece : String) : Prop :=
  piece.toList ≠ [] ∧ ∀ c ∈ piece.toList, Plain isMark c

theorem not_isRun_mark {c : Char} (marked : isMark c) : ¬ IsRun isMark (String.singleton c) := by
  intro run
  have plain := run.2 c (by simp)
  rw [plain.2] at marked
  cases marked

theorem IsRun.not_stops {piece : String} (run : IsRun isMark piece) (after : List Char) :
    ¬ Stops isMark (piece.toList ++ after) := by
  obtain ⟨nonempty, plain⟩ := run
  obtain ⟨c, rest, split⟩ := List.exists_cons_of_ne_nil nonempty
  have first := plain c (by simp [split])
  simp [split, Stops, first.1, first.2]

/-- What is before a piece and what is after it have the pieces before and after, and a run can be
made longer at neither end. -/
theorem Layout.exists_place {earlier later : List String} {piece : String}
    (h : Layout isMark text (earlier ++ piece :: later)) :
    ∃ before after, text = before ++ piece.toList ++ after ∧ Layout isMark before earlier ∧
      Layout isMark after later ∧
      (IsRun isMark piece → Stops isMark before.reverse ∧ Stops isMark after) := by
  generalize split : earlier ++ piece :: later = ps at h
  induction h generalizing earlier with
  | nil => simp at split
  | @blank c text _ blank _ ih =>
    obtain ⟨before, after, rfl, first, last, maximal⟩ := ih split
    refine ⟨c :: before, after, rfl, .blank blank first, last, fun run => ?_⟩
    rw [List.reverse_cons]
    exact ⟨(maximal run).1.append (stops_cons (.inl blank) []), (maximal run).2⟩
  | @mark c text _ unblank marked rest ih =>
    cases earlier with
    | nil =>
      obtain ⟨rfl, rfl⟩ := List.cons.inj split
      exact ⟨[], text, by simp, .nil, rest, fun run => absurd run (not_isRun_mark marked)⟩
    | cons other earlier =>
      obtain ⟨rfl, others⟩ := List.cons.inj split
      obtain ⟨before, after, rfl, first, last, maximal⟩ := ih others
      refine ⟨c :: before, after, rfl, .mark unblank marked first, last, fun run => ?_⟩
      rw [List.reverse_cons]
      exact ⟨(maximal run).1.append (stops_cons (.inr marked) []), (maximal run).2⟩
  | @run word text _ nonempty plain stops rest ih =>
    cases earlier with
    | nil =>
      obtain ⟨rfl, rfl⟩ := List.cons.inj split
      exact ⟨[], text, by simp, .nil, rest, fun _ => ⟨stops_nil, stops⟩⟩
    | cons other earlier =>
      obtain ⟨rfl, others⟩ := List.cons.inj split
      obtain ⟨before, after, rfl, first, last, maximal⟩ := ih others
      have stopsBefore : Stops isMark before := (List.append_assoc .. ▸ stops).of_append
      refine ⟨word ++ before, after, by simp, .run nonempty plain stopsBefore first, last,
        fun run => ⟨?_, (maximal run).2⟩⟩
      cases before with
      | nil => exact absurd (by simpa using stops) (run.not_stops after)
      | cons c before =>
        rw [List.reverse_append]
        cases split : (c :: before).reverse with
        | nil => simp at split
        | cons d before' =>
          have stopsLast := split ▸ (maximal run).1
          exact stopsLast

def spaced (isMark : Char → Bool) (text : List Char) : List Char :=
  text.flatMap fun c => if isMark c then [' ', c, ' '] else [c]

theorem piecesFrom_spaced (isMark : Char → Bool) (run text : List Char) :
    piecesFrom (fun _ => false) run (spaced isMark text) = piecesFrom isMark run text := by
  induction text generalizing run with
  | nil => rfl
  | cons c text ih =>
    have step : spaced isMark (c :: text) =
        (if isMark c then [' ', c, ' '] else [c]) ++ spaced isMark text := rfl
    by_cases blank : isBlank c <;> by_cases marked : isMark c <;>
      simp [step, piecesFrom, closeRun, blank, marked, isBlank_space, ih]

def replaceChar (c : Char) (other text : String) : String :=
  String.ofList (text.toList.flatMap fun d => if d = c then other.toList else [d])

end SemanticParsing.Text

namespace SemanticParsing.Value

open Text

/-- Setting spaces around the parentheses and then cutting at blanks gives the same tokens. -/
theorem tokens_eq_words (program : String) :
    tokens program = words (replaceChar ')' " ) " (replaceChar '(' " ( " program)) := by
  have replaced : (replaceChar ')' " ) " (replaceChar '(' " ( " program)).toList =
      spaced isParenthesis program.toList := by
    simp only [replaceChar, String.toList_ofList, List.flatMap_assoc, spaced]
    refine List.flatMap_congr fun c _ => ?_
    by_cases opening : c = '('
    · subst opening
      decide
    · by_cases closing : c = ')'
      · subst closing
        decide
      · simp [isParenthesis, opening, closing]
  rw [words, pieces, replaced, piecesFrom_spaced]
  rfl

theorem isPiece_of_mem_tokens {program token : String} (h : token ∈ tokens program) :
    IsPiece isParenthesis token :=
  isPiece_of_mem_piecesFrom (by simp) h

theorem suffix_of_trailing {program : String} {rest : List String}
    (h : read program = .error (.trailing rest)) : rest <:+ tokens program := by
  rw [read] at h
  generalize tokens program = ts at h ⊢
  have outcome := outcome_readTokens ts
  generalize readTokens [] ts = result at h outcome
  cases outcome with
  | empty => cases h
  | unopened => cases h
  | unclosed => cases h
  | @expression spelling _ left =>
    cases left with
    | nil => cases h
    | cons token left =>
      cases h
      exact List.suffix_append spelling _

/-- The tokens of a program are the words that are left when spaces are set around its parentheses.
Joined without spaces they are the program without its blanks. Each is a parenthesis or a run of
other characters, and stands in the program between the tokens before it and those after it; a run
ends on either side at a blank, at a parenthesis or with the program. Joined by single spaces the
tokens are cut as before, and so are those that a complaint about trailing input shows. -/
theorem tokens_are_maximal_runs (program : String) :
    tokens program = words (replaceChar ')' " ) " (replaceChar '(' " ( " program)) ∧
    String.join (tokens program) = String.ofList (program.toList.filter fun c => !isBlank c) ∧
    (∀ token ∈ tokens program, token = "(" ∨ token = ")" ∨ IsRun isParenthesis token) ∧
    (∀ earlier token later, tokens program = earlier ++ token :: later →
      ∃ before after, program = before ++ token ++ after ∧ tokens before = earlier ∧
        tokens after = later ∧ (IsRun isParenthesis token →
          Stops isParenthesis before.toList.reverse ∧ Stops isParenthesis after.toList)) ∧
    tokens (phrase (tokens program)) = tokens program ∧
    ∀ rest, read program = .error (.trailing rest) →
      rest <:+ tokens program ∧ tokens (phrase rest) = rest := by
  refine ⟨tokens_eq_words program, join_pieces isParenthesis program, ?kinds, ?places,
    pieces_phrase fun token => isPiece_of_mem_tokens, fun rest trailing => ?_⟩
  case kinds =>
    intro token member
    cases isPiece_of_mem_tokens member with
    | mark c _ marked =>
      have parenthesis : c = '(' ∨ c = ')' := by simpa [isParenthesis] using marked
      obtain rfl | rfl := parenthesis
      · exact .inl rfl
      · exact .inr (.inl rfl)
    | run cs nonempty plain => exact .inr (.inr ⟨by simpa using nonempty, by simpa using plain⟩)
  case places =>
    intro earlier token later split
    obtain ⟨before, after, whole, first, last, maximal⟩ := (layout_iff.mpr split).exists_place
    refine ⟨String.ofList before, String.ofList after, ?_, ?_, ?_, ?_⟩
    · rw [← String.toList_inj]
      simpa using whole
    · rw [tokens, pieces, String.toList_ofList, first.pieces_eq]
    · rw [tokens, pieces, String.toList_ofList, last.pieces_eq]
    · simpa only [String.toList_ofList] using maximal
  have suffix := suffix_of_trailing trailing
  exact ⟨suffix, pieces_phrase fun token member => isPiece_of_mem_tokens (suffix.mem member)⟩

end SemanticParsing.Value
