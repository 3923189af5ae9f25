/-!
Cutting a text into pieces. Blanks separate pieces and are dropped; a mark is a piece of its own;
every other piece is a maximal run of characters that are neither.
-/
namespace SemanticParsing.Text

/-- The blank code points as closed ranges, in increasing order. -/
def blankRanges : List (Nat × Nat) :=
  [(0x09, 0x0d), (0x20, 0x20), (0x85, 0x85), (0xa0, 0xa0), (0x1680, 0x1680), (0x2000, 0x200a),
    (0x2028, 0x2029), (0x202f, 0x202f), (0x205f, 0x205f), (0x3000, 0x3000)]

def isBlank (c : Char) : Bool :=
  blankRanges.any fun (low, high) => low ≤ c.toNat && c.toNat ≤ high

/-- The piece held in `run`, last character first; an empty run is no piece. -/
def closeRun : List Char → List String
  | [] => []
  | run => [String.ofList run.reverse]

def piecesFrom (isMark : Char → Bool) (run : List Char) : List Char → List String
  | [] => closeRun run
  | c :: rest =>
    if isBlank c then closeRun run ++ piecesFrom isMark [] rest
    else if isMark c then closeRun run ++ String.singleton c :: piecesFrom isMark [] rest
    else piecesFrom isMark (c :: run) rest

def pieces (isMark : Char → Bool) (text : String) : List String :=
  piecesFrom isMark [] text.toList

def words (text : String) : List String :=
  pieces (fun _ => false) text

def phrase (tokens : List String) : String :=
  " ".intercalate tokens

def Plain (isMark : Char → Bool) (c : Char) : Prop := isBlank c = false ∧ isMark c = false

inductive IsPiece (isMark : Char → Bool) : String → Prop
  | mark (c : Char) : isBlank c = false → isMark c = true → IsPiece isMark (String.singleton c)
  | run (cs : List Char) : cs ≠ [] → (∀ c ∈ cs, Plain isMark c) →
      IsPiece isMark (String.ofList cs)

theorem isPiece_of_mem_closeRun {isMark : Char → Bool} {run : List Char} {piece : String}
    (plain : ∀ c ∈ run, Plain isMark c) (h : piece ∈ closeRun run) : IsPiece isMark piece := by
  cases run with
  | nil => simp [closeRun] at h
  | cons c run =>
    obtain rfl := List.mem_singleton.mp h
    exact .run _ (by simp) fun d member => plain d (List.mem_reverse.mp member)

theorem isPiece_of_mem_piecesFrom {isMark : Char → Bool} {run cs : List Char} {piece : String}
    (plain : ∀ c ∈ run, Plain isMark c) (h : piece ∈ piecesFrom isMark run cs) :
    IsPiece isMark piece := by
  induction cs generalizing run with
  | nil => exact isPiece_of_mem_closeRun plain h
  | cons c cs ih =>
    have fresh : ∀ d ∈ ([] : List Char), Plain isMark d := by simp
    unfold piecesFrom at h
    split at h
    · cases List.mem_append.mp h with
      | inl closed => exact isPiece_of_mem_closeRun plain closed
      | inr later => exact ih fresh later
    · rename_i unblank
      have unblank : isBlank c = false := by simpa using unblank
      split at h
      · rename_i marked
        cases List.mem_append.mp h with
        | inl closed => exact isPiece_of_mem_closeRun plain closed
        | inr later =>
          cases List.mem_cons.mp later with
          | inl same => exact same ▸ .mark c unblank marked
          | inr later => exact ih fresh later
      · rename_i unmarked
        refine ih (fun d member => ?_) h
        cases List.mem_cons.mp member with
        | inl same => exact same ▸ ⟨unblank, by simpa using unmarked⟩
        | inr old => exact plain d old

/-- A word has characters, and none of them is blank. -/
def IsWord (token : String) : Prop :=
  token.toList ≠ [] ∧ ∀ c ∈ token.toList, isBlank c = false

theorem IsWord.isPiece {token : String} (h : IsWord token) :
    IsPiece (fun _ => false) token := by
  rw [← String.ofList_toList (s := token)]
  exact .run _ h.1 fun c member => ⟨h.2 c member, rfl⟩

theorem isWord_of_mem_words (text : String) : ∀ token ∈ words text, IsWord token := by
  intro token member
  have piece : IsPiece (fun _ => false) token := isPiece_of_mem_piecesFrom (by simp) member
  cases piece with
  | mark c _ marked => simp at marked
  | run cs nonempty plain =>
    refine ⟨by simpa using nonempty, fun c member => ?_⟩
    exact (plain c (by simpa using member)).1

end SemanticParsing.Text
