import SemanticParsing.Proofs.Alike
import SemanticParsing.Value.Reader
/-! What the reader gives: atoms that its tokens spell, and lists of such. -/
namespace SemanticParsing.Value

variable {P : Value → Prop} {v : Value}

/-- What holds of the atoms that are spelled and of lists of what it holds of, holds of what is
read. -/
theorem readTokens_all (list : ∀ items, (∀ v ∈ items, P v) → P (.list items))
    {stack : List (List Value)} {unread rest : List String}
    (atoms : ∀ token ∈ unread, token ≠ "(" → token ≠ ")" → P (atom token))
    (begun : ∀ items ∈ stack, ∀ v ∈ items, P v)
    (h : readTokens stack unread = .ok (v, rest)) : P v := by
  fun_induction readTokens stack unread with
  | case1 => cases h
  | case2 => cases h
  | case3 stack rest ih =>
    refine ih (fun token member => atoms token (List.mem_cons_of_mem _ member)) ?_ h
    simpa using begun
  | case4 => cases h
  | case5 rest items =>
    cases h
    exact list items.reverse fun v member => begun items (by simp) v (List.mem_reverse.mp member)
  | case6 rest items outer stack _ ih =>
    refine ih (fun token member => atoms token (List.mem_cons_of_mem _ member)) ?_ h
    simp only [List.forall_mem_cons] at begun ⊢
    have closed : P (.list items.reverse) :=
      list items.reverse fun v member => begun.1 v (List.mem_reverse.mp member)
    exact ⟨⟨closed, begun.2.1⟩, begun.2.2⟩
  | case7 token rest notOpen notClose =>
    cases h
    exact atoms token (by simp) notOpen notClose
  | case8 token rest notOpen notClose items stack ih =>
    refine ih (fun token member => atoms token (List.mem_cons_of_mem _ member)) ?_ h
    simp only [List.forall_mem_cons] at begun ⊢
    exact ⟨⟨atoms token (by simp) notOpen notClose, begun.1⟩, begun.2⟩

theorem read_all {program : String} (list : ∀ items, (∀ v ∈ items, P v) → P (.list items))
    (atoms : ∀ token ∈ tokens program, token ≠ "(" → token ≠ ")" → P (atom token))
    (h : read program = .ok v) : P v := by
  rw [read] at h
  cases result : readTokens [] (tokens program) with
  | error e => simp [result, bind, Except.bind] at h
  | ok outcome =>
    obtain ⟨value, rest⟩ := outcome
    have all := readTokens_all list atoms (by simp) result
    by_cases finished : rest.isEmpty
    · simp [result, bind, Except.bind, finished, pure, Except.pure] at h
      exact h ▸ all
    · simp [result, bind, Except.bind, finished, throw, throwThe, MonadExceptOf.throw] at h

theorem isAtom_atom (token : String) : (atom token).IsAtom := by
  fun_cases atom token with
  | case1 => exact .int _
  | case2 => exact .float _
  | case3 => exact .bool true
  | case4 => exact .bool false
  | case5 => exact .symbol _

theorem not_occurs_of_read {program : String} (h : read program = .ok v) (l : Value)
    (isLambda : l.IsLambda) : ¬ l.Occurs v := by
  cases isLambda
  refine read_all (P := fun v => ¬ Occurs _ v) (fun items none occurs => ?_) ?_ h
  · cases occurs with
    | item member inside => exact none _ member inside
  · intro token _ _ _ occurs
    have isAtom := isAtom_atom token
    generalize atom token = w at isAtom occurs
    cases isAtom <;> cases occurs

end SemanticParsing.Value
