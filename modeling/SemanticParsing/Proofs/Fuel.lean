import SemanticParsing.Evaluator.Basic
import SemanticParsing.Proofs.Action
/-! An evaluation that does not run out of fuel comes to the same with more fuel. -/
namespace SemanticParsing

variable {σ α β γ : Type}

namespace Action

def Finishes (action : Action σ α) (state : σ) : Prop :=
  (action.run.run state).1 ≠ .error .outOfFuel

theorem finishes_of_isOk {action : Action σ α} {state : σ}
    (h : (action.run.run state).1.isOk = true) : action.Finishes state := by
  intro cut
  rw [cut] at h
  cases h

/-- Wherever the first action finishes, the second does the same. -/
def CutShort (short long : Action σ α) : Prop :=
  ∀ state, short.Finishes state → long.run.run state = short.run.run state

theorem cutShort_self (action : Action σ α) : CutShort action action := fun _ _ => rfl

theorem cutShort_outOfFuel (action : Action σ α) : CutShort (throw .outOfFuel) action :=
  fun _ finishes => absurd rfl finishes

theorem CutShort.trans {short long longer : Action σ α} (first : CutShort short long)
    (second : CutShort long longer) : CutShort short longer := by
  intro state finishes
  have same := first state finishes
  rw [← same]
  exact second state (by rwa [Finishes, same])

theorem CutShort.bind {short long : Action σ α} {next next' : α → Action σ β}
    (first : CutShort short long) (second : ∀ a, CutShort (next a) (next' a)) :
    CutShort (short >>= next) (long >>= next') := by
  intro state finishes
  rw [Finishes, run_bind] at finishes
  have here : short.Finishes state := by
    intro cut
    generalize short.run.run state = result at finishes cut
    obtain ⟨_, later⟩ := result
    cases cut
    exact finishes rfl
  rw [run_bind, run_bind, first state here]
  generalize short.run.run state = result at finishes
  obtain ⟨stop | a, later⟩ := result
  · rfl
  · exact second a later finishes

theorem cutShort_mapM {each each' : γ → Action σ α} (h : ∀ item, CutShort (each item) (each' item))
    (items : List γ) : CutShort (items.mapM each) (items.mapM each') := by
  induction items with
  | nil => exact cutShort_self _
  | cons item items ih =>
    rw [List.mapM_cons, List.mapM_cons]
    exact (h item).bind fun a => ih.bind fun as => cutShort_self _

theorem cutShort_foldlM {each each' : γ → Action σ α}
    (h : ∀ item, CutShort (each item) (each' item)) (items : List γ) (first : α) :
    CutShort (items.foldlM (fun _ item => each item) first)
      (items.foldlM (fun _ item => each' item) first) := by
  induction items generalizing first with
  | nil => exact cutShort_self _
  | cons item items ih =>
    rw [List.foldlM_cons, List.foldlM_cons]
    exact (h item).bind ih

end Action

namespace Evaluator

open SemanticParsing.Action

/-- One more unit of fuel changes no evaluation and no call that finishes. -/
structure Suffices (fuel : Nat) : Prop where
  eval : ∀ e s, CutShort (eval fuel e s) (eval (fuel + 1) e s)
  call : ∀ procedure arguments,
    CutShort (call fuel procedure arguments) (call (fuel + 1) procedure arguments)

variable {fuel fuel' : Nat}

theorem Suffices.eval_list (h : Suffices fuel) (items : List Value) (s : ScopeId) :
    CutShort (Evaluator.eval (fuel + 1) (.list items) s)
      (Evaluator.eval (fuel + 2) (.list items) s) := by
  rw [Evaluator.eval, Evaluator.eval]
  cases Form.ofItems items with
  | conditional test consequence alternative =>
    refine (h.eval test s).bind fun value => ?_
    split
    · exact h.eval consequence s
    · exact h.eval alternative s
  | define name e => exact (h.eval e s).bind fun _ => cutShort_self _
  | assign name e => exact (h.eval e s).bind fun _ => cutShort_self _
  | application operator operands =>
    refine (h.eval operator s).bind fun procedure => ?_
    exact (cutShort_mapM (h.eval · s) operands).bind fun arguments => h.call procedure arguments
  | _ => exact cutShort_self _

theorem Suffices.call_step (h : Suffices fuel) (procedure : Value) (arguments : List Value) :
    CutShort (Evaluator.call (fuel + 1) procedure arguments)
      (Evaluator.call (fuel + 2) procedure arguments) := by
  cases procedure with
  | primitive p =>
    cases p with
    | operation op => exact cutShort_self _
    | apply => exact (cutShort_self _).bind fun called => h.call called.1 called.2
    | map =>
      refine (cutShort_self _).bind fun called => ?_
      exact (cutShort_mapM (h.call called.1 [·]) called.2).bind fun _ => cutShort_self _
  | lambda parameters body outer identity =>
    rw [Evaluator.call, Evaluator.call]
    split
    · exact cutShort_self _
    · refine (cutShort_self _).bind fun s => ?_
      exact cutShort_foldlM (h.eval · s) body .nil
  | _ => exact cutShort_self _

theorem suffices_all (fuel : Nat) : Suffices fuel := by
  induction fuel with
  | zero => exact ⟨fun _ _ => cutShort_outOfFuel _, fun _ _ => cutShort_outOfFuel _⟩
  | succ fuel ih =>
    refine ⟨fun e s => ?_, ih.call_step⟩
    cases e with
    | list items => exact ih.eval_list items s
    | _ => exact cutShort_self _

theorem eval_cutShort (le : fuel ≤ fuel') (e : Value) (s : ScopeId) :
    CutShort (eval fuel e s) (eval fuel' e s) := by
  induction le with
  | refl => exact cutShort_self _
  | step _ ih => exact ih.trans ((suffices_all _).eval e s)

theorem evalSequence_cutShort (le : fuel ≤ fuel') (expressions : List Value) (s : ScopeId) :
    CutShort (evalSequence fuel expressions s) (evalSequence fuel' expressions s) :=
  cutShort_foldlM (eval_cutShort le · s) expressions .nil

end Evaluator

end SemanticParsing
