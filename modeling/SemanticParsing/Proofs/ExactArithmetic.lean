import Mathlib.Data.List.MinMax
import SemanticParsing.Evaluator.Basic
import SemanticParsing.Proofs.ArithmeticCall
import SemanticParsing.Proofs.StandardScope
/-! Evaluating arithmetic: the evaluator computes the outcome of a term, and the outcome is an
integer just when the exact computation never leaves the integers of 64 bits. -/
namespace SemanticParsing

namespace Evaluator

variable {α β : Type} {heap : Heap}

/-- From this heap the action ends with the result and leaves the heap as it is. -/
def Gives (heap : Heap) (action : Action Heap α) (result : Checked α) : Prop :=
  action.run.run heap = (result.mapError .error, heap)

theorem gives_check (result : Checked α) : Gives heap (check result) result := by
  cases result <;> rfl

theorem gives_bind {action : Action Heap α} {result : Checked α} {next : α → Action Heap β}
    {after : α → Checked β} (first : Gives heap action result)
    (second : ∀ a, result = .ok a → Gives heap (next a) (after a)) :
    Gives heap (action >>= next) (result >>= after) := by
  have steps : (action >>= next).run.run heap =
      (match action.run.run heap with
        | (.ok a, later) => (next a).run.run later
        | (.error stop, later) => (.error stop, later)) := by
    simp only [ExceptT.run_bind, StateT.run_bind]
    obtain ⟨_ | _, _⟩ := action.run.run heap <;> rfl
  rw [Gives, steps, first]
  cases result with
  | error e => rfl
  | ok a => exact second a rfl

theorem gives_bind_ok {action : Action Heap α} {a : α} {next : α → Action Heap β}
    {result : Checked β} (first : Gives heap action (.ok a))
    (second : Gives heap (next a) result) : Gives heap (action >>= next) result := by
  change Gives heap (action >>= next) (Except.ok a >>= fun _ => result)
  refine gives_bind first fun b same => ?_
  obtain rfl := Except.ok.inj same
  exact second

theorem gives_mapM {γ : Type} {each : γ → Action Heap α} {result : γ → Checked α} {items : List γ}
    (gives : ∀ item ∈ items, Gives heap (each item) (result item)) :
    Gives heap (items.mapM each) (items.mapM result) := by
  induction items with
  | nil => rfl
  | cons item items ih =>
    have rest := ih fun other member => gives other (List.mem_cons_of_mem _ member)
    rw [List.mapM_cons, List.mapM_cons]
    refine gives_bind (gives item List.mem_cons_self) fun a _ => ?_
    exact gives_bind rest fun as _ => rfl

end Evaluator

open Evaluator

/-- The arithmetic procedures have their standard names in the scope. -/
def Heap.BindsArithmetic (heap : Heap) (s : ScopeId) : Prop :=
  ∀ sign : Sign,
    heap.lookup? s sign.operation.name = some (.primitive (.operation sign.operation))

theorem Form.ofItems_operation (op : Operation) (operands : List Value) :
    Form.ofItems (.symbol op.name :: operands) = .application (.symbol op.name) operands := by
  have ordinary : Keyword.ofName? op.name = none := by
    cases op with
    | compare c => cases c <;> decide
    | real f => cases f <;> decide
    | _ => decide
  simp only [Form.ofItems, ordinary]

namespace Term

theorem depth_le {operands : List Term} {t : Term} (member : t ∈ operands) :
    t.depth ≤ (operands.map depth).foldr max 0 :=
  List.le_max_of_le' 0 (List.mem_map_of_mem member) le_rfl

variable {heap : Heap} {s : ScopeId}

theorem lookup_gives {name : String} {value : Value} (bound : heap.lookup? s name = some value) :
    Gives heap (Scope.lookup s name) (.ok value) := by
  have heapRead : Gives heap (get : Action Heap Heap) (.ok heap) := rfl
  refine gives_bind_ok heapRead ?_
  rw [bound]
  rfl

/-- With fuel for its depth the evaluator gives a term its outcome. -/
theorem eval_gives (standard : heap.BindsArithmetic s) (t : Term) {fuel : Nat}
    (deep : t.depth < fuel) : Gives heap (eval fuel t.expression s) t.outcome := by
  induction t using expression.induct generalizing fuel with
  | case1 n =>
    obtain ⟨fuel, rfl⟩ : ∃ k, fuel = k + 1 := ⟨fuel - 1, by omega⟩
    simp only [expression, outcome, eval]
    rfl
  | case2 sign operands ih =>
    rw [depth] at deep
    -- One unit of fuel is for the list and one for the call; the operands have all but the first.
    obtain ⟨fuel, rfl⟩ : ∃ k, fuel = k + 2 := ⟨fuel - 2, by omega⟩
    have values : Gives heap
        ((operands.map expression).mapM fun operand => eval (fuel + 1) operand s)
        (operands.mapM outcome) := by
      rw [List.mapM_map]
      refine gives_mapM fun t member => ih t member ?_
      have := depth_le member
      omega
    simp only [expression, outcome, eval, Form.ofItems_operation]
    refine gives_bind_ok (lookup_gives (standard sign)) ?_
    refine gives_bind values fun arguments _ => ?_
    simp only [call]
    exact gives_check _

/-- What can come of the operands: a division by zero, integers that are all exact, or numbers
with a float among them, which some operand that does not stay whole has caused. -/
inductive Operands (operands : List Term) : Checked (List Value) → Prop where
  | divided {t : Term} (member : t ∈ operands) (broken : ¬ t.StaysWhole) :
      Operands operands (.error .divisionByZero)
  | whole (ns : List Int64) (count : ns.length = operands.length)
      (values : operands.mapM value? = some (ns.map Whole.toRat))
      (all : ∀ t ∈ operands, t.StaysWhole) : Operands operands (.ok (ns.map .int))
  | mixed {values : List Value} (count : values.length = operands.length)
      (numbers : ∀ v ∈ values, v.isNumber) (float : ∃ v ∈ values, v.IsFloat)
      {t : Term} (member : t ∈ operands) (broken : ¬ t.StaysWhole) : Operands operands (.ok values)

theorem Operands.cons {t : Term} {rest : List Term} {results : Checked (List Value)}
    (first : Agrees t.StaysWhole t.value? t.outcome) (later : Operands rest results) :
    Operands (t :: rest) (do return (← t.outcome) :: (← results)) := by
  generalize t.outcome = result at first ⊢
  match result, first with
  | .error .divisionByZero, broken => exact .divided List.mem_cons_self broken
  | .ok (.float x), broken =>
    cases later with
    | divided member broken => exact .divided (List.mem_cons_of_mem _ member) broken
    | whole ns count values all =>
      refine .mixed (by simp [count]) ?_ ⟨_, List.mem_cons_self, x, rfl⟩ List.mem_cons_self broken
      simp [Value.isNumber]
    | mixed count numbers float =>
      refine .mixed (by simp [count]) ?_ ⟨_, List.mem_cons_self, x, rfl⟩ List.mem_cons_self broken
      simpa [Value.isNumber] using numbers
  | .ok (.int n), ⟨stays, value⟩ =>
    cases later with
    | divided member broken => exact .divided (List.mem_cons_of_mem _ member) broken
    | whole ns count values all =>
      refine .whole (n :: ns) (by simp [count]) ?_ ?_
      · simp [value, values]
      · simpa using ⟨stays, all⟩
    | mixed count numbers float member broken =>
      obtain ⟨v, inside, isFloat⟩ := float
      refine .mixed (by simp [count]) ?_ ⟨v, List.mem_cons_of_mem _ inside, isFloat⟩
        (List.mem_cons_of_mem _ member) broken
      simpa [Value.isNumber] using numbers

theorem operands_agree {operands : List Term}
    (each : ∀ t ∈ operands, Agrees t.StaysWhole t.value? t.outcome) :
    Operands operands (operands.mapM outcome) := by
  induction operands with
  | nil => exact .whole [] rfl rfl (by simp)
  | cons t rest ih =>
    rw [List.mapM_cons]
    exact .cons (each t List.mem_cons_self)
      (ih fun u member => each u (List.mem_cons_of_mem _ member))

theorem value?_apply {sign : Sign} {operands : List Term} {values : List ℚ}
    (known : operands.mapM value? = some values) :
    (apply sign operands).value? = sign.value? values := by
  rw [value?, known]
  rfl

theorem staysWhole_apply {sign : Sign} {operands : List Term} {values : List ℚ}
    (all : ∀ t ∈ operands, t.StaysWhole) (known : operands.mapM value? = some values) :
    (apply sign operands).StaysWhole ↔ sign.StaysWhole values := by
  rw [StaysWhole, known]
  simpa using fun _ => all

/-- The outcome of a term is its exact value while everything stays whole, and no integer after
that. -/
theorem outcome_agrees (t : Term) (wellFormed : t.WellFormed) :
    Agrees t.StaysWhole t.value? t.outcome := by
  induction t using expression.induct with
  | case1 n =>
    rw [outcome, StaysWhole, value?]
    exact ⟨trivial, rfl⟩
  | case2 sign operands ih =>
    rw [WellFormed] at wellFormed
    obtain ⟨takes, wellFormed⟩ := wellFormed
    have children := operands_agree fun t member => ih t member (wellFormed t member)
    have stays : (apply sign operands).StaysWhole → ∀ t ∈ operands, t.StaysWhole := by
      rw [StaysWhole]
      exact And.left
    rw [outcome]
    generalize operands.mapM outcome = results at children ⊢
    cases children with
    | divided member broken => exact fun whole => broken (stays whole _ member)
    | whole ns count values all =>
      have called := sign.call_ints ns (count ▸ takes)
      rw [staysWhole_apply all values, value?_apply values]
      exact called
    | mixed count numbers float member broken =>
      have called := sign.call_float _ (count ▸ takes) numbers float
      exact .of_toFloat called fun whole => broken (stays whole _ member)

/-- Where the arithmetic procedures have their names, every term evaluates to an integer, a float
or a division by zero, and the scopes stay as they are. An integer is the exact value of the term;
and there is one just when all subterms and partial results are integers of 64 bits, no divisor is
zero and the exponents are in range. -/
theorem eval_is_exact (t : Term) (wellFormed : t.WellFormed) (heap : Heap) (s : ScopeId)
    (standard : heap.BindsArithmetic s) :
    ∃ result : Except Stop Value,
      (∀ fuel, t.depth < fuel → (eval fuel t.expression s).run.run heap = (result, heap)) ∧
      ((∃ r, result = .ok (.int r)) ∨ (∃ x, result = .ok (.float x)) ∨
        result = .error (.error .divisionByZero)) ∧
      (∀ r, result = .ok (.int r) → t.value? = some (Whole.toRat r)) ∧
      ((∃ r, result = .ok (.int r)) ↔ t.StaysWhole) := by
  refine ⟨t.outcome.mapError .error, fun fuel deep => eval_gives standard t deep, ?_⟩
  have agrees := outcome_agrees t wellFormed
  generalize t.outcome = outcome at agrees ⊢
  match outcome, agrees with
  | .ok (.int r), ⟨stays, value⟩ => simp [Except.mapError, stays, value]
  | .ok (.float x), broken => simpa [Except.mapError, Agrees] using broken
  | .error .divisionByZero, broken => simpa [Except.mapError, Agrees] using broken

def sample : Term :=
  apply .slash [apply .minus [literal 7, literal 1], literal 2]

theorem bindsArithmetic_pushStandard (heap : Heap) :
    heap.pushStandard.2.BindsArithmetic heap.pushStandard.1 :=
  fun sign => heap.lookup?_pushStandard (.operation sign.operation)

theorem sample_operands :
    [literal 7, literal 1].mapM value? = some [7, 1] ∧
      [apply .minus [literal 7, literal 1], literal 2].mapM value? = some [6, 2] := by
  have inner : [literal 7, literal 1].mapM value? = some [7, 1] := by
    simp [value?, Whole.toRat]
  have difference : (apply .minus [literal 7, literal 1]).value? = some 6 := by
    rw [value?_apply inner]
    decide +kernel
  exact ⟨inner, by simp [difference, value?, Whole.toRat]⟩

theorem sample_value : sample.value? = some 3 := by
  rw [sample, value?_apply sample_operands.2]
  decide +kernel

theorem sample_staysWhole : sample.StaysWhole := by
  have inner : Sign.minus.StaysWhole [7, 1] := by
    refine ⟨trivial, ?_, 6, by decide +kernel, 6, by decide +kernel⟩
    have passes : Sign.minus.partials [7, 1] = [7, 6] := by decide +kernel
    rw [passes]
    simpa using ⟨⟨7, by decide +kernel⟩, ⟨6, by decide +kernel⟩⟩
  have outer : Sign.slash.StaysWhole [6, 2] :=
    ⟨two_ne_zero, by simp [Sign.partials], 3, by decide +kernel, 3, by decide +kernel⟩
  have literals (n : Int64) : (literal n).StaysWhole := by
    rw [StaysWhole]
    trivial
  have difference : (apply .minus [literal 7, literal 1]).StaysWhole :=
    (staysWhole_apply (by simp [literals]) sample_operands.1).mpr inner
  exact (staysWhole_apply (by simp [literals, difference]) sample_operands.2).mpr outer

theorem eval_sample :
    sample.WellFormed ∧ Heap.empty.pushStandard.2.BindsArithmetic Heap.empty.pushStandard.1 ∧
      (eval 3 sample.expression Heap.empty.pushStandard.1).run.run Heap.empty.pushStandard.2 =
        (.ok (.int 3), Heap.empty.pushStandard.2) := by
  have wellFormed : sample.WellFormed := by simp [sample, WellFormed, Sign.Takes]
  have standard := bindsArithmetic_pushStandard Heap.empty
  obtain ⟨result, evaluates, _, exactly, whole⟩ := eval_is_exact sample wellFormed _ _ standard
  obtain ⟨r, rfl⟩ := whole.mpr sample_staysWhole
  have value : Whole.toRat 3 = Whole.toRat r := by
    simpa [sample_value, Whole.toRat] using exactly r rfl
  obtain rfl := Whole.toRat_inj.mp value
  exact ⟨wellFormed, standard, evaluates 3 (by simp [sample, depth])⟩

end Term

end SemanticParsing
