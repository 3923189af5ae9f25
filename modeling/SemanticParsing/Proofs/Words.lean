import SemanticParsing.Text.Pieces
/-!
Pieces joined by single spaces are cut into the same pieces again. So a phrase stands for one list
of words only, and an index by phrases is an index by lists of words.
-/
namespace SemanticParsing.Text

variable {isMark : Char → Bool}

theorem piecesFrom_plain_append {cs : List Char} (plain : ∀ c ∈ cs, Plain isMark c)
    (run rest : List Char) :
    piecesFrom isMark run (cs ++ rest) = piecesFrom isMark (cs.reverse ++ run) rest := by
  induction cs generalizing run with
  | nil => rfl
  | cons c cs ih =>
    obtain ⟨unblank, unmarked⟩ := plain c List.mem_cons_self
    have later := ih (fun d member => plain d (List.mem_cons_of_mem c member)) (c :: run)
    simpa [piecesFrom, unblank, unmarked] using later

theorem closeRun_of_ne_nil {run : List Char} (h : run ≠ []) :
    closeRun run = [String.ofList run.reverse] := by
  cases run with
  | nil => contradiction
  | cons c run => rfl

theorem isBlank_space : isBlank ' ' = true := by decide

/-- No run goes on into the text. -/
def Stops (isMark : Char → Bool) (text : List Char) : Prop :=
  ∀ c ∈ text.head?, isBlank c ∨ isMark c

theorem piecesFrom_append {rest : List Char} (stops : Stops isMark rest) (run cs : List Char) :
    piecesFrom isMark run (cs ++ rest) =
      piecesFrom isMark run cs ++ piecesFrom isMark [] rest := by
  induction cs generalizing run with
  | nil =>
    cases rest with
    | nil => simp [piecesFrom, closeRun]
    | cons c rest =>
      obtain blank | marked := stops c rfl
      · simp [piecesFrom, closeRun, blank]
      · by_cases blank : isBlank c <;> simp [piecesFrom, closeRun, blank, marked]
  | cons c cs ih => simp [piecesFrom, ih, apply_ite (· ++ piecesFrom isMark [] rest)]

theorem piecesFrom_toList {piece : String} (h : IsPiece isMark piece) :
    piecesFrom isMark [] piece.toList = [piece] := by
  cases h with
  | mark c unblank marked => simp [piecesFrom, closeRun, unblank, marked]
  | run cs nonempty plain =>
    have scanned := piecesFrom_plain_append plain [] []
    simpa [piecesFrom, closeRun_of_ne_nil, nonempty] using scanned

theorem piecesFrom_space (rest : List Char) :
    piecesFrom isMark [] (' ' :: rest) = piecesFrom isMark [] rest := by
  simp [piecesFrom, closeRun, isBlank_space]

theorem piecesFrom_toList_space {piece : String} (h : IsPiece isMark piece) (rest : List Char) :
    piecesFrom isMark [] (piece.toList ++ ' ' :: rest) = piece :: piecesFrom isMark [] rest := by
  have stops : Stops isMark (' ' :: rest) := by simp [Stops, isBlank_space]
  rw [piecesFrom_append stops, piecesFrom_toList h, piecesFrom_space]
  rfl

theorem pieces_phrase {tokens : List String} (h : ∀ token ∈ tokens, IsPiece isMark token) :
    pieces isMark (phrase tokens) = tokens := by
  induction tokens with
  | nil => rfl
  | cons token tokens ih =>
    have first := h token List.mem_cons_self
    have others := ih fun other member => h other (List.mem_cons_of_mem token member)
    cases tokens with
    | nil => simpa [pieces, phrase] using piecesFrom_toList first
    | cons next tokens =>
      have joined : (phrase (token :: next :: tokens)).toList =
          token.toList ++ ' ' :: (phrase (next :: tokens)).toList := by
        simp [phrase, String.toList_append]
      rw [pieces, joined, piecesFrom_toList_space first]
      exact congrArg (token :: ·) others

theorem words_phrase {tokens : List String} (h : ∀ token ∈ tokens, IsWord token) :
    words (phrase tokens) = tokens :=
  pieces_phrase fun token member => (h token member).isPiece

theorem phrase_singleton (token : String) : phrase [token] = token := by
  simp [phrase]

theorem words_of_isWord {token : String} (h : IsWord token) : words token = [token] := by
  have each : ∀ other ∈ [token], IsWord other := by simpa using h
  simpa only [phrase_singleton] using words_phrase each

theorem phrase_inj {left right : List String} (wordsLeft : ∀ token ∈ left, IsWord token)
    (wordsRight : ∀ token ∈ right, IsWord token) : phrase left = phrase right ↔ left = right := by
  refine ⟨fun same => ?_, congrArg phrase⟩
  rw [← words_phrase wordsLeft, same, words_phrase wordsRight]

end SemanticParsing.Text
