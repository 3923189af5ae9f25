import SemanticParsing.Proofs.IntegerComparison
/-!
Arguments of numeric operations. Among arguments that are not all numbers an operation complains
about the first that is none, unless it complains about their count. A single argument of an
extremum is the exception: it is not compared with anything, and only comparing looks at it.
-/
namespace SemanticParsing

open Evaluator

namespace Arguments

variable {α : Type} {name : String} {v left right first : Value} {arguments rest : List Value}
  {step : Value → Value → Checked Value}

def firstOther? (arguments : List Value) : Option Value :=
  arguments.find? fun v => !v.isNumber

def notNumber (name : String) (v : Value) : EvalError := .argumentKind name .number v.text

theorem firstOther?_of_number (h : first.isNumber) :
    firstOther? (first :: rest) = firstOther? rest :=
  List.find?_cons_of_neg (by simp [h])

theorem firstOther?_of_other (h : ¬ first.isNumber) :
    firstOther? (first :: rest) = some first :=
  List.find?_cons_of_pos (by simp [h])

theorem exists_firstOther? (h : ∃ v ∈ arguments, ¬ v.isNumber) :
    ∃ v, firstOther? arguments = some v := by
  refine Option.isSome_iff_exists.mp (List.find?_isSome.mpr ?_)
  simpa using h

theorem number_of_isNumber (name : String) (h : v.isNumber) : ∃ x, number name v = .ok x := by
  obtain ⟨n, rfl⟩ | ⟨x, rfl⟩ := Value.number_cases h <;> exact ⟨_, rfl⟩

theorem number_of_other (name : String) (h : ¬ v.isNumber) :
    number name v = .error (notNumber name v) := by
  cases v with
  | int | float => exact absurd rfl h
  | _ => rfl

theorem bind_number_of_other (next : Float → Checked α) (h : ¬ left.isNumber) :
    (number name left >>= next) = .error (notNumber name left) := by
  rw [number_of_other name h]
  rfl

theorem bind_numbers_of_other (next : Float → Float → Checked α)
    (found : firstOther? [left, right] = some v) :
    (number name left >>= fun x => number name right >>= next x) = .error (notNumber name v) := by
  by_cases first : left.isNumber
  · obtain ⟨x, read⟩ := number_of_isNumber name first
    rw [firstOther?_of_number first] at found
    rw [read]
    by_cases second : right.isNumber
    · rw [firstOther?_of_number second] at found
      cases found
    · rw [firstOther?_of_other second] at found
      cases found
      exact bind_number_of_other (next x) second
  · rw [firstOther?_of_other first] at found
    cases found
    exact bind_number_of_other _ first

/-- A step that makes a number of two numbers, and complains about the first value that is none. -/
structure Checks (name : String) (step : Value → Value → Checked Value) : Prop where
  accepts {left right : Value} : left.isNumber → right.isNumber →
    ∃ v, step left right = .ok v ∧ v.isNumber
  rejects {left right v : Value} : firstOther? [left, right] = some v →
    step left right = .error (notNumber name v)

theorem Checks.foldlM (checks : Checks name step) (started : rest ≠ [])
    (found : firstOther? (first :: rest) = some v) :
    rest.foldlM step first = .error (notNumber name v) := by
  induction rest generalizing first with
  | nil => exact absurd rfl started
  | cons next rest ih =>
    have split : firstOther? ([first, next] ++ rest) =
        (firstOther? [first, next]).or (firstOther? rest) :=
      List.find?_append
    change firstOther? ([first, next] ++ rest) = some v at found
    rw [split] at found
    rw [List.foldlM_cons]
    cases here : firstOther? [first, next] with
    | some other =>
      rw [here] at found
      cases found
      rw [checks.rejects here]
      rfl
    | none =>
      rw [here, Option.none_or] at found
      have numbers : first.isNumber ∧ next.isNumber := by
        simpa [firstOther?] using here
      obtain ⟨value, made, number⟩ := checks.accepts numbers.1 numbers.2
      rw [made]
      refine ih (fun ended => ?_) ((firstOther?_of_number number).trans found)
      rw [ended] at found
      cases found

/-- The result is a complaint: about the first argument that is not a number if their count is
right, and about the count if it is not. -/
def Rejected (name : String) (takes : Nat → Bool) (arguments : List Value) (result : Checked α) :
    Prop :=
  if takes arguments.length then
    ∃ v, firstOther? arguments = some v ∧ result = .error (notNumber name v)
  else ∃ arity, result = .error (.argumentCount name arity arguments.length)

variable {takes : Nat → Bool} {result : Checked α}

theorem Rejected.of_other (fits : takes arguments.length) (found : firstOther? arguments = some v)
    (rejects : result = .error (notNumber name v)) : Rejected name takes arguments result := by
  rw [Rejected, if_pos fits]
  exact ⟨v, found, rejects⟩

theorem Rejected.of_count (arity : Arity) (wrong : takes arguments.length = false)
    (rejects : result = .error (.argumentCount name arity arguments.length)) :
    Rejected name takes arguments result := by
  rw [Rejected, if_neg (by simp [wrong])]
  exact ⟨arity, rejects⟩

theorem Rejected.of_one {next : Value → Checked α}
    (rejects : ∀ {v}, ¬ v.isNumber → next v = .error (notNumber name v))
    (found : firstOther? arguments = some v) :
    Rejected name (· = 1) arguments (one name arguments >>= next) := by
  cases arguments with
  | nil => cases found
  | cons first rest =>
    cases rest with
    | nil =>
      by_cases number : first.isNumber
      · rw [firstOther?_of_number number] at found
        cases found
      · exact .of_other rfl (firstOther?_of_other number) (rejects number)
    | cons second rest => exact .of_count .one (by simp) rfl

theorem Rejected.of_two {next : Value × Value → Checked α}
    (rejects : ∀ {left right v}, firstOther? [left, right] = some v →
      next (left, right) = .error (notNumber name v))
    (found : firstOther? arguments = some v) :
    Rejected name (· = 2) arguments (two name arguments >>= next) := by
  by_cases pair : arguments.length = 2
  · obtain ⟨left, right, rfl⟩ := List.length_eq_two.mp pair
    exact .of_other rfl found (rejects found)
  · have wrong : two name arguments = .error (.argumentCount name .two arguments.length) := by
      match arguments, pair with
      | [], _ | [_], _ | _ :: _ :: _ :: _, _ => rfl
    rw [wrong]
    exact .of_count .two (by simpa using pair) rfl

end Arguments

open Arguments

namespace Arithmetic

theorem combine_of_other (a : Arithmetic) {left right v : Value}
    (found : firstOther? [left, right] = some v) :
    a.combine left right = .error (notNumber a.name v) := by
  have onFloats : a.combine left right = a.onFloats left right := by
    cases left with
    | int m =>
      cases right with
      | int n => cases found
      | _ => rfl
    | _ => rfl
  rw [onFloats]
  exact bind_numbers_of_other _ found

theorem checks_combine (a : Arithmetic) : Checks a.name a.combine :=
  ⟨combine_isNumber, a.combine_of_other⟩

theorem fold_of_other (a : Arithmetic) {start v : Value} {arguments : List Value}
    (number : start.isNumber) (found : firstOther? arguments = some v) :
    a.fold start arguments = .error (notNumber a.name v) := by
  refine a.checks_combine.foldlM (fun none => ?_) ((firstOther?_of_number number).trans found)
  rw [none] at found
  cases found

end Arithmetic

namespace Operation

variable {arguments : List Value} {v : Value}

def isNumeric : Operation → Bool
  | add | subtract | multiply | divide | power | pow | compare _ | abs | max | min | atan2
  | real _ => true
  | _ => false

example : (all.filter isNumeric).map name =
    ["+", "-", "*", "/", "**", "pow", ">", "<", ">=", "<=", "abs", "max", "min", "atan2", "sin",
      "cos", "tan", "asin", "acos", "atan", "exp", "log", "sqrt", "floor", "ceil", "round"] := by
  decide

def takes : Operation → Nat → Bool
  | add, _ | multiply, _ => true
  | subtract, count | max, count | min, count => 1 ≤ count
  | divide, count | power, count | pow, count | compare _, count | atan2, count => count = 2
  | abs, count | real _, count => count = 1
  | _, _ => false

def isExtremum : Operation → Bool
  | max | min => true
  | _ => false

theorem quotient_of_other {left right v : Value} (found : firstOther? [left, right] = some v) :
    quotient left right = .error (notNumber divide.name v) := by
  have combines : quotient left right = Arithmetic.division.combine left right := by
    cases left with
    | int m =>
      cases right with
      | int n => cases found
      | _ => rfl
    | _ => rfl
  rw [combines]
  exact Arithmetic.division.combine_of_other found

theorem absolute_of_other (h : ¬ v.isNumber) :
    absolute v = .error (notNumber abs.name v) := by
  cases v with
  | int | float => exact absurd rfl h
  | _ => rfl

theorem subtractAll_of_other (found : firstOther? arguments = some v) :
    subtractAll arguments = .error (notNumber subtract.name v) := by
  cases arguments with
  | nil => cases found
  | cons first rest =>
    cases rest with
    | nil =>
      rw [subtractAll, ← Arithmetic.fold_singleton]
      exact Arithmetic.subtraction.fold_of_other rfl found
    | cons second rest =>
      exact Arithmetic.subtraction.checks_combine.foldlM (List.cons_ne_nil _ _) found

theorem checks_extremum (name : String) (keeps : Float → Float → Bool) :
    Checks name fun best argument => do
      let x ← Arguments.number name best
      let y ← Arguments.number name argument
      return if keeps x y then best else argument where
  accepts {left right} first second := by
    obtain ⟨x, read⟩ := number_of_isNumber name first
    obtain ⟨y, read'⟩ := number_of_isNumber name second
    rw [read, read']
    refine ⟨if keeps x y then left else right, rfl, ?_⟩
    split <;> assumption
  rejects found := bind_numbers_of_other _ found

theorem extremum_of_other (name : String) (keeps : Float → Float → Bool)
    (several : arguments.length ≠ 1) (found : firstOther? arguments = some v) :
    extremum name keeps arguments = .error (notNumber name v) := by
  cases arguments with
  | nil => cases found
  | cons first rest =>
    refine (checks_extremum name keeps).foldlM (fun none => several ?_) found
    rw [none]
    rfl

theorem call_rejects {op : Operation} (numeric : op.isNumeric)
    (several : op.isExtremum → arguments.length ≠ 1) (found : firstOther? arguments = some v) :
    Rejected op.reportedName op.takes arguments (op.call arguments) := by
  have given : 1 ≤ arguments.length := by
    cases arguments with
    | nil => cases found
    | cons => simp
  cases op with
  | add => exact .of_other rfl found (Arithmetic.addition.fold_of_other rfl found)
  | multiply => exact .of_other rfl found (Arithmetic.multiplication.fold_of_other rfl found)
  | subtract => exact .of_other (by simpa [takes]) found (subtractAll_of_other found)
  | max | min =>
    exact .of_other (by simpa [takes]) found (extremum_of_other _ _ (several rfl) found)
  | divide => exact .of_two quotient_of_other found
  | power | pow => exact .of_two Arithmetic.power.combine_of_other found
  | compare c => exact .of_two (bind_numbers_of_other _) found
  | atan2 => exact .of_two (bind_numbers_of_other _) found
  | abs => exact .of_one absolute_of_other found
  | real f => exact .of_one (bind_number_of_other _) found
  | _ => cases numeric

theorem call_extremum_singleton {op : Operation} (extremum : op.isExtremum) (v : Value) :
    op.call [v] = .ok v := by
  cases op with
  | max | min => rfl
  | _ => cases extremum

/-- A numeric operation that is called on arguments of which some are not numbers gives no value:
it complains about their count if it does not take so many, and else about the first of them that is
not a number. The exception is an extremum of one argument, which gives that argument, whatever it
is. No scope is changed. -/
theorem others_are_rejected (op : Operation) (arguments : List Value) (numeric : op.isNumeric)
    (other : ∃ v ∈ arguments, ¬ v.isNumber) :
    (∀ heap fuel, Gives heap (Evaluator.call (fuel + 1) (.primitive (.operation op)) arguments)
      (op.call arguments)) ∧
    (¬ (op.isExtremum ∧ arguments.length = 1) →
      Rejected op.reportedName op.takes arguments (op.call arguments)) ∧
    (op.isExtremum → ∀ v, arguments = [v] → op.call arguments = .ok v) := by
  refine ⟨fun heap fuel => ?_, fun several => ?_, fun extremum v only => ?_⟩
  · rw [Evaluator.call]
    exact gives_check _
  · obtain ⟨v, found⟩ := exists_firstOther? other
    exact call_rejects numeric (fun extremum one => several ⟨extremum, one⟩) found
  · rw [only]
    exact call_extremum_singleton extremum v

theorem maximum_rejects_first_other :
    max.isNumeric ∧ (∃ v ∈ [Value.int 1, .list [], .symbol "a"], ¬ v.isNumber) ∧
      max.call [.int 1, .list [], .symbol "a"] = .error (.argumentKind "max" .number "()") := by
  have other : ∃ v ∈ [Value.int 1, .list [], .symbol "a"], ¬ v.isNumber :=
    ⟨.list [], by simp, by decide⟩
  refine ⟨rfl, other, ?_⟩
  obtain ⟨-, rejected, -⟩ := others_are_rejected max [.int 1, .list [], .symbol "a"] rfl other
  obtain ⟨v, found, complaint⟩ := rejected (by decide)
  cases found
  exact complaint

def onQuoted (op : Operation) (values : List Value) : Value :=
  .list (.symbol op.name :: values.map fun v => .list [.symbol "quote", v])

theorem eval_onQuoted {heap : Heap} {s : ScopeId} (standard : heap.BindsOperations s)
    (op : Operation) (values : List Value) (fuel : Nat) :
    Gives heap (eval (fuel + 2) (op.onQuoted values) s) (op.call values) := by
  have quoted : Gives heap
      ((values.map fun v => Value.list [.symbol "quote", v]).mapM
        fun operand => eval (fuel + 1) operand s) (values.mapM pure) := by
    rw [List.mapM_map]
    refine gives_mapM fun v _ => ?_
    simp only [Function.comp, eval]
    rfl
  rw [List.mapM_pure, List.map_id'] at quoted
  simp only [onQuoted, eval, Form.ofItems_operation]
  refine gives_bind_ok (Term.lookup_gives (standard op)) (gives_bind_ok quoted ?_)
  simp only [call]
  exact gives_check _

/-- The maximum of one symbol is the symbol, although the operation is a numeric one and the
argument is not a number. -/
theorem maximum_of_symbol_is_given :
    max.isNumeric ∧ (∃ v ∈ [Value.symbol "a"], ¬ v.isNumber) ∧
      Gives Heap.empty.pushStandard.2
        (eval 2 (max.onQuoted [.symbol "a"]) Heap.empty.pushStandard.1) (.ok (.symbol "a")) :=
  ⟨rfl, ⟨.symbol "a", List.mem_cons_self, by decide⟩,
    eval_onQuoted Heap.empty.bindsOperations_pushStandard max [.symbol "a"] 0⟩

end Operation

end SemanticParsing
