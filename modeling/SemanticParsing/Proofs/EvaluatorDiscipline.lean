import SemanticParsing.Proofs.Action
import SemanticParsing.Proofs.FormSyntax
import SemanticParsing.Proofs.ScopeAction
/-! An evaluation keeps to a discipline when the actions on scopes do that it is made of. -/
namespace SemanticParsing

open Value

/-- The expressions of a form that are evaluated in the scope in which the form is. -/
def Form.parts : Form → List Value
  | conditional test consequence alternative => [test, consequence, alternative]
  | define _ e => [e]
  | assign _ e => [e]
  | application operator operands => operator :: operands
  | _ => []

namespace Evaluator

abbrev Yields (d : Discipline Heap) (P : Heap → List String → List Value → ScopeId → Nat → Prop)
    (heap : Heap) (action : Action Heap Value) : Prop :=
  action.Keeps d heap fun after v => v.EachLambda (P after)

/-- What makes evaluations keep to the discipline and give values whose procedures satisfy `P`.
Expressions that fit a scope still do in later heaps, and so do the parts of them that are
evaluated there; each action on scopes keeps to the discipline where its expression fits; and the
body of a procedure fits the scope of a call. -/
structure Upholds (d : Discipline Heap)
    (P : Heap → List String → List Value → ScopeId → Nat → Prop)
    (Fits : Heap → ScopeId → Value → Prop) : Prop where
  stops : ∀ stop, (∀ name, stop ≠ .error (.unbound name)) → d.Stops stop
  procedure_later : ∀ {before after parameters body s i}, d.Step before after →
    P before parameters body s i → P after parameters body s i
  fits_later : ∀ {before after s e}, d.Step before after → Fits before s e → Fits after s e
  procedures : ∀ {heap s e}, Fits heap s e → e.EachLambda (P heap)
  part : ∀ {heap s items form e}, Form.Spells items form → e ∈ form.parts →
    Fits heap s (.list items) → Fits heap s e
  lookup : ∀ {heap s name}, d.Inv heap → Fits heap s (.symbol name) →
    Yields d P heap (Scope.lookup s name)
  define : ∀ {heap s name e v}, d.Inv heap →
    Fits heap s (.list [.symbol "define", .symbol name, e]) → v.EachLambda (P heap) →
    (Scope.define s name v).Keeps d heap fun _ _ => True
  assign : ∀ {heap s name e v}, d.Inv heap →
    Fits heap s (.list [.symbol "set!", .symbol name, e]) → v.EachLambda (P heap) →
    (Scope.assign s name v).Keeps d heap fun _ _ => True
  lambda : ∀ {heap s written parameters body}, d.Inv heap →
    Form.parameters? written = some parameters →
    Fits heap s (.list (.symbol "lambda" :: written :: body)) →
    Yields d P heap (makeLambda parameters body s)
  enter : ∀ {heap s i parameters body arguments}, d.Inv heap →
    parameters.length = arguments.length →
    (Value.lambda parameters body s i).EachLambda (P heap) →
    (∀ v ∈ arguments, v.EachLambda (P heap)) →
    (Scope.push (bind parameters arguments) (some s)).Keeps d heap
      fun after inner => ∀ e ∈ body, Fits after inner e

variable {d : Discipline Heap} {P : Heap → List String → List Value → ScopeId → Nat → Prop}
  {Fits : Heap → ScopeId → Value → Prop} {heap before after : Heap} {s : ScopeId} {v e : Value}
  {items arguments : List Value} {depth : Nat}

/-- Evaluations and calls that nest no deeper than this keep to the discipline. -/
structure KeepsTo (d : Discipline Heap)
    (P : Heap → List String → List Value → ScopeId → Nat → Prop)
    (Fits : Heap → ScopeId → Value → Prop) (depth : Nat) : Prop where
  eval : ∀ heap e s, d.Inv heap → Fits heap s e → Yields d P heap (eval depth e s)
  call : ∀ heap procedure arguments, d.Inv heap → procedure.EachLambda (P heap) →
    (∀ v ∈ arguments, v.EachLambda (P heap)) → Yields d P heap (call depth procedure arguments)

namespace Upholds

theorem later (h : Upholds d P Fits) (step : d.Step before after) (good : v.EachLambda (P before)) :
    v.EachLambda (P after) :=
  fun parameters body s i occurs => h.procedure_later step (good parameters body s i occurs)

theorem throw_error (h : Upholds d P Fits) (inv : d.Inv heap) {e : EvalError}
    (bound : ∀ name, e ≠ .unbound name) {α : Type} {post : Heap → α → Prop} :
    (throw (.error e) : Action Heap α).Keeps d heap post :=
  Action.keeps_throw inv (h.stops _ fun name same => bound name (Stop.error.inj same))

theorem check {α : Type} {post : Heap → α → Prop} {result : Checked α} (h : Upholds d P Fits)
    (inv : d.Inv heap) (bound : ∀ name, result ≠ .error (.unbound name))
    (gives : ∀ a, result = .ok a → post heap a) : (check result).Keeps d heap post := by
  cases result with
  | ok a => exact Action.keeps_pure inv (gives a rfl)
  | error e => exact h.throw_error inv fun name same => bound name (congrArg _ same)

theorem callee (h : Upholds d P Fits) (inv : d.Inv heap) (name : String)
    (good : ∀ v ∈ arguments, v.EachLambda (P heap)) :
    (Evaluator.check (callee name arguments)).Keeps d heap fun after called =>
      called.1.EachLambda (P after) ∧ ∀ v ∈ called.2, v.EachLambda (P after) := by
  refine h.check inv (callee_ne_unbound arguments name) fun called result => ?_
  rw [eq_of_callee result] at good
  exact ⟨good called.1 (by simp), eachLambda_list.mp (good (.list called.2) (by simp))⟩

theorem eval_list (h : Upholds d P Fits) (deeper : KeepsTo d P Fits depth) (inv : d.Inv heap)
    (fits : Fits heap s (.list items)) : Yields d P heap (eval (depth + 1) (.list items) s) := by
  rw [eval]
  have inside := eachLambda_list.mp (h.procedures fits)
  have form := Form.spells_ofItems items
  have part (e : Value) (member : e ∈ (Form.ofItems items).parts) : Fits heap s e :=
    h.part form member fits
  generalize Form.ofItems items = f at form part ⊢
  cases form with
  | empty => exact Action.keeps_pure inv (eachLambda_list.mpr (by simp))
  | quote datum => exact Action.keeps_pure inv (inside datum (by simp))
  | conditional test consequence alternative =>
    refine (deeper.eval heap test s inv (part test (by simp [Form.parts]))).bind
      fun later _ inv' step _ => ?_
    split
    · exact deeper.eval later consequence s inv'
        (h.fits_later step (part consequence (by simp [Form.parts])))
    · exact deeper.eval later alternative s inv'
        (h.fits_later step (part alternative (by simp [Form.parts])))
  | define name e =>
    refine (deeper.eval heap e s inv (part e (by simp [Form.parts]))).bind
      fun later v inv' step good => ?_
    exact (h.define inv' (h.fits_later step fits) good).bind fun _ _ inv'' _ _ =>
      Action.keeps_pure inv'' IsAtom.nil.eachLambda
  | assign name e =>
    refine (deeper.eval heap e s inv (part e (by simp [Form.parts]))).bind
      fun later v inv' step good => ?_
    exact (h.assign inv' (h.fits_later step fits) good).bind fun _ _ inv'' _ _ =>
      Action.keeps_pure inv'' IsAtom.nil.eachLambda
  | lambda names first rest => exact h.lambda inv names fits
  | @application operator ordinary operands =>
    refine (deeper.eval heap operator s inv (part operator (by simp [Form.parts]))).bind
      fun later procedure inv' step good => ?_
    have operands : (operands.mapM fun operand => eval depth operand s).Keeps d later
        fun after arguments => ∀ v ∈ arguments, v.EachLambda (P after) := by
      refine Action.keeps_mapM inv' (fun _ _ _ _ step good => h.later step good) ?_
      intro last inv'' step' operand member
      exact deeper.eval last operand s inv''
        (h.fits_later (d.trans step step') (part operand (List.mem_cons_of_mem _ member)))
    refine operands.bind fun last arguments inv'' step' results => ?_
    exact deeper.call last procedure arguments inv'' (h.later step' good) results
  | malformed keyword => exact h.throw_error inv fun _ => by nofun

theorem eval (h : Upholds d P Fits) (deeper : KeepsTo d P Fits depth) (inv : d.Inv heap)
    (fits : Fits heap s e) : Yields d P heap (eval (depth + 1) e s) := by
  cases e with
  | symbol name => exact h.lookup inv fits
  | list items => exact h.eval_list deeper inv fits
  | _ => exact Action.keeps_pure inv (h.procedures fits)

theorem call_lambda {parameters : List String} {body : List Value} {i : Nat}
    (h : Upholds d P Fits) (deeper : KeepsTo d P Fits depth) (inv : d.Inv heap)
    (procedure : (Value.lambda parameters body s i).EachLambda (P heap))
    (good : ∀ v ∈ arguments, v.EachLambda (P heap)) :
    Yields d P heap (call (depth + 1) (.lambda parameters body s i) arguments) := by
  rw [call]
  split
  case isTrue => exact h.throw_error inv fun _ => by nofun
  case isFalse length =>
    refine (h.enter inv (not_not.mp length) procedure good).bind
      fun middle inner inv' _ body => ?_
    refine Action.keeps_foldlM inv' IsAtom.nil.eachLambda fun later inv'' step e member => ?_
    exact deeper.eval later e inner inv'' (h.fits_later step (body e member))

theorem call (h : Upholds d P Fits) (deeper : KeepsTo d P Fits depth) (inv : d.Inv heap)
    (procedure : v.EachLambda (P heap)) (good : ∀ v ∈ arguments, v.EachLambda (P heap)) :
    Yields d P heap (call (depth + 1) v arguments) := by
  cases v with
  | primitive p =>
    cases p with
    | operation op =>
      exact h.check inv (op.call_ne_unbound arguments) fun result gives =>
        Operation.eachLambda_of_call gives good
    | apply =>
      refine (h.callee inv _ good).bind fun later called inv' _ result => ?_
      exact deeper.call later called.1 called.2 inv' result.1 result.2
    | map =>
      refine (h.callee inv _ good).bind fun later called inv' _ result => ?_
      have items : (called.2.mapM fun item => Evaluator.call depth called.1 [item]).Keeps d later
          fun after results => ∀ v ∈ results, v.EachLambda (P after) := by
        refine Action.keeps_mapM inv' (fun _ _ _ _ step good => h.later step good) ?_
        intro last inv'' step item member
        refine deeper.call last called.1 [item] inv'' (h.later step result.1) ?_
        simpa using h.later step (result.2 item member)
      exact items.bind fun _ _ inv'' _ results =>
        Action.keeps_pure inv'' (eachLambda_list.mpr results)
  | lambda => exact h.call_lambda deeper inv procedure good
  | _ => exact h.throw_error inv fun _ => by nofun

/-- By induction on the depth, of evaluations and calls together. -/
theorem keepsTo (h : Upholds d P Fits) (depth : Nat) : KeepsTo d P Fits depth := by
  have cut (stop : Stop) (same : stop = .outOfFuel) : d.Stops stop :=
    h.stops stop fun name error => nomatch same.symm.trans error
  induction depth with
  | zero =>
    exact ⟨fun _ _ _ inv _ => Action.keeps_throw inv (cut _ rfl),
      fun _ _ _ inv _ _ => Action.keeps_throw inv (cut _ rfl)⟩
  | succ depth deeper =>
    exact ⟨fun _ _ _ inv fits => h.eval deeper inv fits,
      fun _ _ _ inv procedure good => h.call deeper inv procedure good⟩

end Upholds

end Evaluator

end SemanticParsing
