import SemanticParsing.Proofs.ExactArithmetic
import SemanticParsing.Proofs.Fuel
import SemanticParsing.Proofs.ScopeAction
/-!
The procedure `begin` gets the values of all its arguments and gives the last, which comes to the
same as evaluating the arguments in order and keeping no value but the last.
-/
namespace SemanticParsing

open SemanticParsing.Action

theorem Action.mapM_getLast {σ α γ : Type} (each : γ → Action σ α) (items : List γ) (first : α) :
    (do return (← items.mapM each).getLast?.getD first) =
      items.foldlM (fun _ item => each item) first := by
  induction items generalizing first with
  | nil => simp
  | cons item items ih =>
    simp only [List.mapM_cons, List.foldlM_cons, bind_assoc, pure_bind, List.getLast?_cons,
      Option.getD_some, ih]

namespace Evaluator

variable {heap : Heap} {s : ScopeId}

def block (expressions : List Value) : Value :=
  .list (.symbol Operation.begin.name :: expressions)

/-- Looking up `begin` and calling it each take one unit of fuel. -/
theorem run_block (standard : heap.lookup? s Operation.begin.name =
      some (.primitive (.operation .begin))) (expressions : List Value) (fuel : Nat) :
    (eval (fuel + 2) (block expressions) s).run.run heap =
      (evalSequence (fuel + 1) expressions s).run.run heap := by
  have calls (arguments : List Value) :
      call (fuel + 1) (.primitive (.operation .begin)) arguments =
        pure (arguments.getLast?.getD .nil) := by
    rw [call]
    rfl
  rw [block, eval, Form.ofItems_operation]
  simp only [eval, run_bind (Scope.lookup s _), Scope.run_lookup_of_some standard, calls]
  rw [mapM_getLast]
  rfl

theorem fuel_of_block {expressions : List Value} {fuel : Nat}
    (finishes : (eval fuel (block expressions) s).Finishes heap) : ∃ more, fuel = more + 2 := by
  match fuel with
  | 0 => exact absurd rfl finishes
  | 1 =>
    refine absurd ?_ finishes
    rw [block, eval, Form.ofItems_operation]
    rfl
  | more + 2 => exact ⟨more, rfl⟩

/-- Where `begin` has its standard meaning, a call of it on expressions ends just when the sequence
of the expressions does, and then with the same value or the same error and the same heap, however
much fuel the two are given. That holds whatever the expressions do on the way: a new meaning of
`begin` comes too late for the call. -/
theorem block_agrees_with_sequence (heap : Heap) (s : ScopeId)
    (standard : heap.lookup? s Operation.begin.name = some (.primitive (.operation .begin)))
    (expressions : List Value) :
    ((∃ fuel, (eval fuel (block expressions) s).Finishes heap) ↔
      ∃ fuel, (evalSequence fuel expressions s).Finishes heap) ∧
    ∀ fuel fuel', (eval fuel (block expressions) s).Finishes heap →
      (evalSequence fuel' expressions s).Finishes heap →
      (eval fuel (block expressions) s).run.run heap =
        (evalSequence fuel' expressions s).run.run heap := by
  have same := run_block standard expressions
  refine ⟨⟨?_, ?_⟩, ?_⟩
  · rintro ⟨fuel, finishes⟩
    obtain ⟨fuel, rfl⟩ := fuel_of_block finishes
    refine ⟨fuel + 1, ?_⟩
    rwa [Finishes, ← same]
  · rintro ⟨fuel, finishes⟩
    refine ⟨fuel + 2, ?_⟩
    rwa [Finishes, same, evalSequence_cutShort (Nat.le_succ fuel) expressions s heap finishes]
  · intro fuel fuel' finishes finishes'
    obtain ⟨fuel, rfl⟩ := fuel_of_block finishes
    have finishes : (evalSequence (fuel + 1) expressions s).Finishes heap := by
      rwa [Finishes, ← same]
    rw [same]
    -- Of the two the one with less fuel finishes, so the other comes to the same.
    obtain le | le := Nat.le_total (fuel + 1) fuel'
    · exact (evalSequence_cutShort le expressions s heap finishes).symm
    · exact evalSequence_cutShort le expressions s heap finishes'

def rebinding : List Value :=
  [.list [.symbol "define", .symbol "begin", .int 5],
    .list [.symbol "define", .symbol "x", .symbol "begin"],
    .list [.symbol "set!", .symbol "x", .list [.symbol "+", .symbol "x", .int 1]], .symbol "x"]

theorem block_agrees_with_sequence_rebinding :
    let heap := Heap.empty.pushStandard.2
    let result := (eval 9 (block rebinding) 0).run.run heap
    heap.lookup? 0 Operation.begin.name = some (.primitive (.operation .begin)) ∧
      result.1.toOption.map Value.text = some "6" ∧
      result = (evalSequence 4 rebinding 0).run.run heap := by
  intro heap result
  have standard : heap.lookup? 0 Operation.begin.name = some (.primitive (.operation .begin)) :=
    Heap.lookup?_pushStandard .empty (.operation .begin)
  have text : result.1.toOption.map Value.text = some "6" := by decide +kernel
  have finishes : (eval 9 (block rebinding) 0).Finishes heap :=
    finishes_of_isOk (by decide +kernel)
  have finishes' : (evalSequence 4 rebinding 0).Finishes heap :=
    finishes_of_isOk (by decide +kernel)
  obtain ⟨-, same⟩ := block_agrees_with_sequence heap 0 standard rebinding
  exact ⟨standard, text, same 9 4 finishes finishes'⟩

end Evaluator

end SemanticParsing
