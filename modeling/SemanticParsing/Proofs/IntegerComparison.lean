import SemanticParsing.Proofs.ExactArithmetic
import SemanticParsing.Proofs.IntegerRounding
/-!
Comparing integers. They are rounded to doubles before they are ordered, but not before they are
compared for equality. The order is that of the integers as far as doubles tell them apart.
-/
namespace SemanticParsing

open Decimal Evaluator

namespace Whole

/-- Different integers that are rounded to the same double. -/
def Merged (m n : Int64) : Prop := m ≠ n ∧ (ofInteger m.toInt == ofInteger n.toInt) = true

instance (m n : Int64) : Decidable (Merged m n) := inferInstanceAs (Decidable (_ ∧ _))

/-- The first integer is less than the second one, and rounding keeps them apart. -/
def Below (m n : Int64) : Prop := m.toInt < n.toInt ∧ ¬ Merged m n

instance (m n : Int64) : Decidable (Below m n) := inferInstanceAs (Decidable (_ ∧ _))

variable {m n : Int64}

theorem merged_comm : Merged m n ↔ Merged n m := by
  rw [Merged, Merged, ne_comm, BEq.comm]

theorem below_iff : Below m n ↔ ofInteger m.toInt < ofInteger n.toInt := by
  rw [ofInteger_lt_iff, Below, and_congr_right_iff]
  intro less
  have different : m ≠ n := fun same => less.ne (congrArg _ same)
  simp [Merged, different]

theorem not_below_iff : ¬ Below m n ↔ ofInteger n.toInt ≤ ofInteger m.toInt := by
  rw [below_iff, ← not_le_iff (isNaN_ofInteger _) (isNaN_ofInteger _), not_not]

theorem le_or_merged (h : ¬ Below m n) : n.toInt ≤ m.toInt ∨ Merged m n := by
  by_contra neither
  rw [not_or, not_le] at neither
  exact h neither

theorem below_iff_place : Below m n ↔ place (ofInteger m.toInt) < place (ofInteger n.toInt) := by
  rw [below_iff, lt_iff (isNaN_ofInteger _) (isNaN_ofInteger _)]

def IsExact (n : Int64) : Prop := n.toInt.natAbs ≤ 2 ^ 53

theorem IsExact.not_merged (hm : IsExact m) (hn : IsExact n) : ¬ Merged m n := by
  rintro ⟨different, equal⟩
  exact different (Int64.toInt_inj.mp ((ofInteger_beq_iff hm hn).mp equal))

theorem count_below (m n : Int64) :
    [decide (Below m n), decide (m = n), decide (Below n m)].count true =
      if Merged m n then 0 else 1 := by
  by_cases merged : Merged m n
  · have different := merged.1
    simp [Below, merged, merged_comm.mp merged, different]
  · have merged' := mt merged_comm.mpr merged
    obtain less | same | more := lt_trichotomy m.toInt n.toInt
    · have different : m ≠ n := fun same => less.ne (congrArg _ same)
      simp [Below, merged, less, less.not_gt, different]
    · obtain rfl := Int64.toInt_inj.mp same
      simp [Below, merged]
    · have different : m ≠ n := fun same => more.ne' (congrArg _ same)
      simp [Below, merged, merged', more, more.not_gt, different]

/-- The first of the integers that no other one exceeds. -/
inductive Picks (exceeds : Int64 → Int64 → Prop) : List Int64 → Int64 → Prop
  | head {n : Int64} {rest : List Int64} (none : ∀ m ∈ rest, ¬ exceeds m n) :
      Picks exceeds (n :: rest) n
  | later {n m : Int64} {rest : List Int64} (more : exceeds m n) (picks : Picks exceeds rest m) :
      Picks exceeds (n :: rest) m

section

variable {exceeds : Int64 → Int64 → Prop} {ns rest : List Int64}

variable {L : Type} [LinearOrder L] {key : Int64 → L}
  (order : ∀ m n, exceeds m n ↔ key n < key m)
include order

theorem Picks.not_exceeds (h : Picks exceeds ns m) : ∀ n ∈ ns, ¬ exceeds n m := by
  induction h with
  | head none => exact List.forall_mem_cons.mpr ⟨fun more => ((order _ _).mp more).false, none⟩
  | later more _ ih =>
    refine List.forall_mem_cons.mpr ⟨fun less => ?_, ih⟩
    exact ((order _ _).mp more).asymm ((order _ _).mp less)

theorem Picks.insert {first : Int64} (h : Picks exceeds (first :: rest) m)
    (less : ¬ exceeds n first) : Picks exceeds (first :: n :: rest) m := by
  cases h with
  | head none => exact .head (List.forall_mem_cons.mpr ⟨less, none⟩)
  | later more picks =>
    have above : exceeds m n := by
      rw [order] at less more ⊢
      exact (not_lt.mp less).trans_lt more
    exact .later more (.later above picks)

theorem Picks.cons {first : Int64} (h : Picks exceeds (n :: rest) m) (more : exceeds n first) :
    Picks exceeds (first :: n :: rest) m := by
  have most := h.not_exceeds order n List.mem_cons_self
  refine .later ?_ h
  rw [order] at more most ⊢
  exact more.trans_le (not_lt.mp most)

theorem extremum_ints {keeps : Float → Float → Bool}
    (judges : ∀ m n : Int64,
      keeps (ofInteger m.toInt) (ofInteger n.toInt) = true ↔ ¬ exceeds n m)
    (name : String) (first : Int64) (rest : List Int64) :
    ∃ m, Operation.extremum name keeps ((first :: rest).map .int) = .ok (.int m) ∧
      Picks exceeds (first :: rest) m := by
  induction rest generalizing first with
  | nil => exact ⟨first, rfl, .head (by simp)⟩
  | cons n rest ih =>
    have step : Operation.extremum name keeps ((first :: n :: rest).map .int) =
        Operation.extremum name keeps
          ((if keeps (ofInteger first.toInt) (ofInteger n.toInt) then .int first else .int n) ::
            rest.map .int) := rfl
    rw [step]
    split
    case isTrue kept =>
      obtain ⟨m, picked, picks⟩ := ih first
      exact ⟨m, picked, picks.insert order ((judges _ _).mp kept)⟩
    case isFalse replaced =>
      obtain ⟨m, picked, picks⟩ := ih n
      exact ⟨m, picked, picks.cons order (not_not.mp (mt (judges _ _).mpr replaced))⟩

end

variable {ns : List Int64}

theorem exceeds_max (m n : Int64) :
    Below n m ↔ place (ofInteger n.toInt) < place (ofInteger m.toInt) :=
  below_iff_place

theorem exceeds_min (m n : Int64) : Below m n ↔
    OrderDual.toDual (place (ofInteger n.toInt)) < OrderDual.toDual (place (ofInteger m.toInt)) :=
  below_iff_place

theorem Picks.greatest (h : Picks (fun m n => Below n m) ns m) :
    ∀ n ∈ ns, n.toInt ≤ m.toInt ∨ Merged m n :=
  fun n member => le_or_merged (h.not_exceeds exceeds_max n member)

theorem Picks.least (h : Picks Below ns m) : ∀ n ∈ ns, m.toInt ≤ n.toInt ∨ Merged m n :=
  fun n member =>
    (le_or_merged (h.not_exceeds exceeds_min n member)).imp_right merged_comm.mp

end Whole

open Whole

def Heap.BindsOperations (heap : Heap) (s : ScopeId) : Prop :=
  ∀ op : Operation, heap.lookup? s op.name = some (.primitive (.operation op))

namespace Operation

def ofIntegers (op : Operation) (ns : List Int64) : Value :=
  .list (.symbol op.name :: ns.map .int)

/-- Applied to integers in the scope, the operation gives the value and changes no scope. -/
def Answers (heap : Heap) (s : ScopeId) (fuel : Nat) (op : Operation) (ns : List Int64)
    (v : Value) : Prop :=
  Gives heap (eval fuel (op.ofIntegers ns) s) (.ok v)

section

variable {heap : Heap} {s : ScopeId} {fuel : Nat}
variable (standard : heap.BindsOperations s) (deep : 1 < fuel)
include standard deep

theorem eval_ofIntegers (op : Operation) (ns : List Int64) :
    Gives heap (eval fuel (op.ofIntegers ns) s) (op.call (ns.map .int)) := by
  obtain ⟨fuel, rfl⟩ : ∃ k, fuel = k + 2 := ⟨fuel - 2, by omega⟩
  have literals : Gives heap ((ns.map Value.int).mapM fun operand => eval (fuel + 1) operand s)
      (ns.mapM fun n => pure (.int n)) := by
    rw [List.mapM_map]
    refine gives_mapM fun n _ => ?_
    simp only [Function.comp, eval]
    rfl
  rw [List.mapM_pure] at literals
  simp only [ofIntegers, eval, Form.ofItems_operation]
  refine gives_bind_ok (Term.lookup_gives (standard op)) (gives_bind_ok literals ?_)
  simp only [call]
  exact gives_check _

theorem Answers.of_call {op : Operation} {ns : List Int64} {v : Value}
    (h : op.call (ns.map .int) = .ok v) : Answers heap s fuel op ns v := by
  rw [Answers, ← h]
  exact eval_ofIntegers standard deep op ns

theorem Answers.of_holds (c : Comparison) {m n : Int64} {p : Prop} [Decidable p]
    (h : c.holds (ofInteger m.toInt) (ofInteger n.toInt) = decide p) :
    Answers heap s fuel (compare c) [m, n] (.bool p) := by
  rw [← h]
  exact .of_call standard deep rfl

end

theorem call_max_two (m n : Int64) : max.call ([m, n].map .int) =
    .ok (if Comparison.atLeast.holds (ofInteger m.toInt) (ofInteger n.toInt) then .int m
      else .int n) :=
  rfl

theorem call_max (first : Int64) (rest : List Int64) :
    ∃ m, max.call ((first :: rest).map .int) = .ok (.int m) ∧
      Picks (fun m n => Below n m) (first :: rest) m :=
  extremum_ints exceeds_max (fun _ _ => decide_eq_true_iff.trans not_below_iff.symm) _ _ _

theorem call_min (first : Int64) (rest : List Int64) :
    ∃ m, min.call ((first :: rest).map .int) = .ok (.int m) ∧ Picks Below (first :: rest) m :=
  extremum_ints exceeds_min (fun _ _ => decide_eq_true_iff.trans not_below_iff.symm) _ _ _

structure ComparesIntegers (heap : Heap) (s : ScopeId) (fuel : Nat) : Prop where
  less : ∀ m n, Answers heap s fuel (compare .less) [m, n] (.bool (Below m n))
  greater : ∀ m n, Answers heap s fuel (compare .greater) [m, n] (.bool (Below n m))
  atMost : ∀ m n, Answers heap s fuel (compare .atMost) [m, n] (.bool (¬ Below n m))
  atLeast : ∀ m n, Answers heap s fuel (compare .atLeast) [m, n] (.bool (¬ Below m n))
  equal : ∀ m n, Answers heap s fuel equal [m, n] (.bool (m = n))
  one : ∀ m n, [decide (Below m n), decide (m = n), decide (Below n m)].count true =
    if Merged m n then 0 else 1
  max : ∀ first rest, ∃ m, Answers heap s fuel max (first :: rest) (.int m) ∧
    Picks (fun m n => Below n m) (first :: rest) m ∧
    ∀ n ∈ first :: rest, n.toInt ≤ m.toInt ∨ Merged m n
  min : ∀ first rest, ∃ m, Answers heap s fuel min (first :: rest) (.int m) ∧
    Picks Below (first :: rest) m ∧ ∀ n ∈ first :: rest, m.toInt ≤ n.toInt ∨ Merged m n
  exact : ∀ m n, IsExact m → IsExact n → ¬ Merged m n

/-- Where the operations have their names, integers are ordered as their doubles are, and compared
for equality as integers. Up to `2 ^ 53` this is the order of the integers. Past it, one of two
different integers may be neither less than the other one, nor equal, nor greater; the maximum
and the minimum are then the one that comes first. -/
theorem integers_are_ordered_as_doubles (heap : Heap) (s : ScopeId) (fuel : Nat)
    (standard : heap.BindsOperations s) (deep : 1 < fuel) : ComparesIntegers heap s fuel where
  less _ _ := .of_holds standard deep .less (decide_eq_decide.mpr below_iff.symm)
  greater _ _ := .of_holds standard deep .greater (decide_eq_decide.mpr below_iff.symm)
  atMost _ _ := .of_holds standard deep .atMost (decide_eq_decide.mpr not_below_iff.symm)
  atLeast _ _ := .of_holds standard deep .atLeast (decide_eq_decide.mpr not_below_iff.symm)
  equal _ _ := .of_call standard deep rfl
  one := count_below
  exact _ _ hm hn := hm.not_merged hn
  max first rest := by
    obtain ⟨m, picked, picks⟩ := call_max first rest
    exact ⟨m, .of_call standard deep picked, picks, picks.greatest⟩
  min first rest := by
    obtain ⟨m, picked, picks⟩ := call_min first rest
    exact ⟨m, .of_call standard deep picked, picks, picks.least⟩

end Operation

theorem Heap.bindsOperations_pushStandard (heap : Heap) :
    heap.pushStandard.2.BindsOperations heap.pushStandard.1 :=
  fun op => heap.lookup?_pushStandard (.operation op)

namespace Operation

theorem standard_orders_integers_as_doubles :
    Heap.empty.pushStandard.2.BindsOperations Heap.empty.pushStandard.1 ∧ 1 < 2 ∧
      ComparesIntegers Heap.empty.pushStandard.2 Heap.empty.pushStandard.1 2 := by
  have standard := Heap.empty.bindsOperations_pushStandard
  exact ⟨standard, Nat.one_lt_two, integers_are_ordered_as_doubles _ _ 2 standard Nat.one_lt_two⟩

def StandardAnswer (op : Operation) (ns : List Int64) (v : Value) : Prop :=
  Answers Heap.empty.pushStandard.2 Heap.empty.pushStandard.1 2 op ns v

/-- The first integer is less than the second one, but not as a double. It compares as neither
less nor equal nor greater, and is given as the maximum. -/
theorem neighbours_are_not_ordered :
    (9007199254740992 : Int64).toInt < (9007199254740993 : Int64).toInt ∧
      StandardAnswer (compare .less) [9007199254740992, 9007199254740993] (.bool false) ∧
      StandardAnswer equal [9007199254740992, 9007199254740993] (.bool false) ∧
      StandardAnswer (compare .greater) [9007199254740992, 9007199254740993] (.bool false) ∧
      StandardAnswer max [9007199254740992, 9007199254740993] (.int 9007199254740992) := by
  have standard := Heap.empty.bindsOperations_pushStandard
  have answers {op : Operation} {ns : List Int64} {v : Value}
      (h : op.call (ns.map .int) = .ok v) : StandardAnswer op ns v :=
    .of_call standard Nat.one_lt_two h
  have less : (Comparison.less.holds (ofInteger (9007199254740992 : Int64).toInt)
    (ofInteger (9007199254740993 : Int64).toInt)) = false := by decide +kernel
  have greater : (Comparison.greater.holds (ofInteger (9007199254740992 : Int64).toInt)
    (ofInteger (9007199254740993 : Int64).toInt)) = false := by decide +kernel
  have atLeast : (Comparison.atLeast.holds (ofInteger (9007199254740992 : Int64).toInt)
    (ofInteger (9007199254740993 : Int64).toInt)) = true := by decide +kernel
  refine ⟨by decide, answers ?_, answers rfl, answers ?_, answers ?_⟩
  · rw [← less]
    rfl
  · rw [← greater]
    rfl
  · rw [call_max_two, atLeast, if_pos rfl]

end Operation

end SemanticParsing
