import SemanticParsing.Proofs.Action
import SemanticParsing.Proofs.FormSyntax
import SemanticParsing.Proofs.Mirror
/-! Evaluations of alike expressions on the two sides of a mirror end alike and leave a mirror. -/
namespace SemanticParsing

inductive Ends {ε α β : Type} (R : α → β → Prop) : Except ε α → Except ε β → Prop
  | ok {a : α} {b : β} : R a b → Ends R (.ok a) (.ok b)
  | error (e : ε) : Ends R (.error e) (.error e)

theorem Ends.mapError {ε ε' α β : Type} {R : α → β → Prop} {result : Except ε α}
    {result' : Except ε β} (h : Ends R result result') (f : ε → ε') :
    Ends R (result.mapError f) (result'.mapError f) := by
  cases h with
  | ok related => exact .ok related
  | error e => exact .error (f e)

theorem Ends.imp {ε α β : Type} {R S : α → β → Prop} {result : Except ε α} {result' : Except ε β}
    (h : Ends R result result') (implies : ∀ a b, R a b → S a b) : Ends S result result' := by
  cases h with
  | ok related => exact .ok (implies _ _ related)
  | error e => exact .error e

open Value (AllAlike)

namespace Mirror

variable {α β γ δ : Type} {m : Mirror} {R : Mirror → α → β → Prop}

/-- The actions, run on their sides, end alike and leave the two sides of a mirror. -/
def Runs (m : Mirror) (action : Action Heap α) (other : Action Heap β)
    (R : Mirror → α → β → Prop) : Prop :=
  ∃ after result result', m.Step after ∧ action.run.run m.left = (result, after.left) ∧
    other.run.run m.right = (result', after.right) ∧ Ends (R after) result result'

abbrev Evaluates (m : Mirror) (action other : Action Heap Value) : Prop :=
  m.Runs action other fun after v w => after.Values v w

theorem runs_pure {a : α} {b : β} (h : R m a b) : m.Runs (pure a) (pure b) R :=
  ⟨m, _, _, .refl m, rfl, rfl, .ok h⟩

theorem runs_throw (stop : Stop) : m.Runs (throw stop) (throw stop) R :=
  ⟨m, _, _, .refl m, rfl, rfl, .error stop⟩

theorem Runs.bind {action : Action Heap α} {other : Action Heap β} {next : α → Action Heap γ}
    {next' : β → Action Heap δ} {S : Mirror → γ → δ → Prop} (first : m.Runs action other R)
    (second : ∀ middle a b, m.Step middle → R middle a b →
      middle.Runs (next a) (next' b) S) : m.Runs (action >>= next) (other >>= next') S := by
  obtain ⟨middle, _, _, step, left, right, ends⟩ := first
  cases ends with
  | ok related =>
    obtain ⟨after, result, result', step', left', right', ends⟩ := second middle _ _ step related
    refine ⟨after, result, result', step.trans step', ?_, ?_, ends⟩
    · rw [Action.run_bind, left]
      exact left'
    · rw [Action.run_bind, right]
      exact right'
  | error stop =>
    refine ⟨middle, .error stop, .error stop, step, ?_, ?_, .error stop⟩
    · rw [Action.run_bind, left]
    · rw [Action.run_bind, right]

theorem runs_mapM {each : γ → Action Heap α} {each' : δ → Action Heap β} {items : List γ}
    {others : List δ} {related : γ → δ → Prop}
    (lasts : ∀ first second : Mirror, ∀ a b, first.Step second → R first a b → R second a b)
    (all : List.Forall₂ related items others)
    (h : ∀ later, m.Step later → ∀ item other, related item other →
      later.Runs (each item) (each' other) R) :
    m.Runs (items.mapM each) (others.mapM each') fun after => List.Forall₂ (R after) := by
  induction all generalizing m with
  | nil => exact runs_pure .nil
  | cons here _ ih =>
    rw [List.mapM_cons, List.mapM_cons]
    refine (h m (.refl m) _ _ here).bind fun middle a b step first => ?_
    refine (ih fun later step' => h later (step.trans step')).bind fun after as bs step' rest => ?_
    exact runs_pure (.cons (lasts middle after a b step' first) rest)

theorem runs_foldlM {each : γ → Action Heap α} {each' : δ → Action Heap β} {items : List γ}
    {others : List δ} {related : γ → δ → Prop} {start : α} {start' : β} (first : R m start start')
    (all : List.Forall₂ related items others)
    (h : ∀ later, m.Step later → ∀ item other, related item other →
      later.Runs (each item) (each' other) R) :
    m.Runs (items.foldlM (fun _ item => each item) start)
      (others.foldlM (fun _ item => each' item) start') R := by
  induction all generalizing m start start' with
  | nil => exact runs_pure first
  | cons here _ ih =>
    rw [List.foldlM_cons, List.foldlM_cons]
    refine (h m (.refl m) _ _ here).bind fun middle a b step related => ?_
    exact ih related fun later step' => h later (step.trans step')

end Mirror

namespace Evaluator

variable {m : Mirror} {s t : ScopeId} {name : String} {v w : Value}

theorem lookup_runs (paired : m.scopes s t) (name : String) :
    m.Evaluates (Scope.lookup s name) (Scope.lookup t name) := by
  have found := m.fits.lookup? paired name
  generalize left : m.left.lookup? s name = here, right : m.right.lookup? t name = there at found
  cases found with
  | some alike =>
    exact ⟨m, _, _, .refl m, Scope.run_lookup_of_some left, Scope.run_lookup_of_some right,
      .ok alike⟩
  | none =>
    exact ⟨m, _, _, .refl m, Scope.run_lookup_of_none left, Scope.run_lookup_of_none right,
      .error _⟩

theorem define_runs (paired : m.scopes s t) (alike : m.Values v w) :
    m.Evaluates (do Scope.define s name v; return .nil) (do Scope.define t name w; return .nil) :=
  ⟨_, _, _, m.step_define _ paired alike, rfl, rfl, .ok (.atom .nil)⟩

theorem assign_runs (paired : m.scopes s t) (alike : m.Values v w) :
    m.Evaluates (do Scope.assign s name v; return .nil)
      (do Scope.assign t name w; return .nil) := by
  have found := m.fits.binder? paired name
  generalize left : m.left.binder? s name = here, right : m.right.binder? t name = there at found
  cases found with
  | some paired' =>
    refine ⟨_, .ok .nil, .ok .nil, m.step_define name paired' alike, ?_, ?_, .ok (.atom .nil)⟩
    · rw [Action.run_bind, Scope.run_assign_of_some left]
      rfl
    · rw [Action.run_bind, Scope.run_assign_of_some right]
      rfl
  | none =>
    refine ⟨m, _, _, .refl m, ?_, ?_, .error (.error (.unbound name))⟩
    · rw [Action.run_bind, Scope.run_assign_of_none left]
    · rw [Action.run_bind, Scope.run_assign_of_none right]

theorem makeLambda_runs {body body' : List Value} (paired : m.scopes s t)
    (alike : AllAlike m.Procedures body body') (parameters : List String) :
    m.Evaluates (makeLambda parameters body s) (makeLambda parameters body' t) := by
  refine ⟨m.freshIdentity, _, _, m.step_freshIdentity, rfl, rfl, .ok ?_⟩
  have bodies : AllAlike m.freshIdentity.Procedures body body' :=
    alike.imp fun _ _ => m.step_freshIdentity.sub.values
  obtain ⟨length, each⟩ := Value.forall₂_iff.mp bodies
  exact .lambda ⟨paired, .inr ⟨rfl, rfl⟩⟩ length each

theorem push_runs {arguments arguments' : List Value} (paired : m.scopes s t)
    (alike : AllAlike m.Procedures arguments arguments') (parameters : List String) :
    m.Runs (Scope.push (bind parameters arguments) (some s))
      (Scope.push (bind parameters arguments') (some t)) fun after a b => after.scopes a b :=
  ⟨_, _, _, m.step_push paired (bind_rel alike parameters), rfl, rfl, .ok (.inr ⟨rfl, rfl⟩)⟩

theorem check_runs {α β : Type} {R : Mirror → α → β → Prop} {result : Checked α}
    {result' : Checked β} (similar : Similar (R m) result result') :
    m.Runs (check result) (check result') R := by
  match result, result', similar with
  | .ok _, .ok _, related => exact Mirror.runs_pure related
  | .error e, .error _, ⟨rfl, _⟩ => exact Mirror.runs_throw (.error e)

theorem callee_runs {arguments arguments' : List Value}
    (alike : AllAlike m.Procedures arguments arguments') (name : String) :
    m.Runs (check (callee name arguments)) (check (callee name arguments')) fun after p q =>
      after.Values p.1 q.1 ∧ AllAlike after.Procedures p.2 q.2 :=
  check_runs (callee_similar name alike)

theorem values_last (first second : Mirror) (v w : Value) (step : first.Step second) :
    first.Values v w → second.Values v w :=
  step.sub.values

/-- Evaluations and calls that nest no deeper than this run alike on the two sides. -/
structure MirroredTo (depth : Nat) : Prop where
  eval : ∀ (m : Mirror) s t v w, m.scopes s t → m.Values v w →
    m.Evaluates (eval depth v s) (eval depth w t)
  call : ∀ (m : Mirror) v w arguments arguments', m.Values v w →
    AllAlike m.Procedures arguments arguments' →
    m.Evaluates (call depth v arguments) (call depth w arguments')

variable {depth : Nat} {items items' arguments arguments' : List Value}

theorem eval_list_runs (deeper : MirroredTo depth) (paired : m.scopes s t)
    (alike : AllAlike m.Procedures items items') :
    m.Evaluates (eval (depth + 1) (.list items) s) (eval (depth + 1) (.list items') t) := by
  rw [eval, eval, (Value.alike_list alike).text_eq]
  have form := Form.ofItems_alike alike
  generalize Form.ofItems items = f, Form.ofItems items' = g at form ⊢
  cases form with
  | empty => exact Mirror.runs_pure (Value.alike_list .nil)
  | quote datum => exact Mirror.runs_pure datum
  | conditional test consequence alternative =>
    refine (deeper.eval m s t _ _ paired test).bind fun later v w step truth => ?_
    have paired' := step.sub.scopes s t paired
    rw [truth.isTruthy_eq]
    split
    · exact deeper.eval later s t _ _ paired' (step.sub.values consequence)
    · exact deeper.eval later s t _ _ paired' (step.sub.values alternative)
  | define name e =>
    refine (deeper.eval m s t _ _ paired e).bind fun later v w step alike => ?_
    exact define_runs (step.sub.scopes s t paired) alike
  | assign name e =>
    refine (deeper.eval m s t _ _ paired e).bind fun later v w step alike => ?_
    exact assign_runs (step.sub.scopes s t paired) alike
  | lambda parameters body => exact makeLambda_runs paired body parameters
  | application operator operands =>
    refine (deeper.eval m s t _ _ paired operator).bind fun later v w step procedure => ?_
    refine (Mirror.runs_mapM values_last operands fun last step' e e' alike => ?_).bind
      fun last _ _ step' arguments => ?_
    · exact deeper.eval last s t e e' (step'.sub.scopes s t (step.sub.scopes s t paired))
        (step'.sub.values (step.sub.values alike))
    · exact deeper.call last v w _ _ (step'.sub.values procedure) arguments
  | malformed keyword => exact Mirror.runs_throw _

theorem eval_runs (deeper : MirroredTo depth) (paired : m.scopes s t) (alike : m.Values v w) :
    m.Evaluates (eval (depth + 1) v s) (eval (depth + 1) w t) := by
  cases alike with
  | list length each => exact eval_list_runs deeper paired (Value.forall₂_iff.mpr ⟨length, each⟩)
  | lambda procedures length each => exact Mirror.runs_pure (.lambda procedures length each)
  | atom isAtom =>
    cases isAtom with
    | symbol name => exact lookup_runs paired name
    | int n => exact Mirror.runs_pure (.atom (.int n))
    | float x => exact Mirror.runs_pure (.atom (.float x))
    | bool b => exact Mirror.runs_pure (.atom (.bool b))
    | primitive p => exact Mirror.runs_pure (.atom (.primitive p))
    | nil => exact Mirror.runs_pure (.atom .nil)

theorem call_lambda_runs {body body' : List Value} {i j : Nat} (deeper : MirroredTo depth)
    (paired : m.scopes s t) (bodies : AllAlike m.Procedures body body')
    (alike : AllAlike m.Procedures arguments arguments') (parameters : List String) :
    m.Evaluates (call (depth + 1) (.lambda parameters body s i) arguments)
      (call (depth + 1) (.lambda parameters body' t j) arguments') := by
  rw [call, call, alike.length_eq]
  split
  · exact Mirror.runs_throw _
  · refine (push_runs paired alike parameters).bind fun middle a b step inner => ?_
    refine Mirror.runs_foldlM (.atom .nil) bodies fun later step' e e' alike => ?_
    exact deeper.eval later a b e e' (step'.sub.scopes a b inner)
      (step'.sub.values (step.sub.values alike))

theorem call_runs (deeper : MirroredTo depth) (procedure : m.Values v w)
    (alike : AllAlike m.Procedures arguments arguments') :
    m.Evaluates (call (depth + 1) v arguments) (call (depth + 1) w arguments') := by
  cases procedure with
  | list length each =>
    -- the message quotes the value, so the texts must be the same
    change m.Evaluates (throw (.error (.notAProcedure (Value.list _).text)))
      (throw (.error (.notAProcedure (Value.list _).text)))
    rw [(Value.Alike.list length each).text_eq]
    exact Mirror.runs_throw _
  | lambda procedures length each =>
    exact call_lambda_runs deeper procedures.1 (Value.forall₂_iff.mpr ⟨length, each⟩) alike _
  | atom isAtom =>
    cases isAtom with
    | primitive p =>
      cases p with
      | operation op => exact check_runs (op.call_similar m.fits.faithful alike)
      | apply =>
        refine (callee_runs alike _).bind fun later p q _ called => ?_
        exact deeper.call later p.1 q.1 p.2 q.2 called.1 called.2
      | map =>
        refine (callee_runs alike _).bind fun later p q _ called => ?_
        refine (Mirror.runs_mapM values_last called.2 fun last step item item' alike => ?_).bind
          fun _ _ _ _ results => Mirror.runs_pure (Value.alike_list results)
        exact deeper.call last p.1 q.1 [item] [item'] (step.sub.values called.1)
          (.cons (step.sub.values alike) .nil)
    | _ => exact Mirror.runs_throw _

/-- By induction on the depth, of evaluations and calls together. -/
theorem mirroredTo (depth : Nat) : MirroredTo depth := by
  induction depth with
  | zero =>
    exact ⟨fun _ _ _ _ _ _ _ => Mirror.runs_throw _, fun _ _ _ _ _ _ _ => Mirror.runs_throw _⟩
  | succ depth deeper =>
    exact ⟨fun _ _ _ _ _ paired alike => eval_runs deeper paired alike,
      fun _ _ _ _ _ procedure alike => call_runs deeper procedure alike⟩

end Evaluator

end SemanticParsing
