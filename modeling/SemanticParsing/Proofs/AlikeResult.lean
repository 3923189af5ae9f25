import SemanticParsing.Evaluator.Operation
import SemanticParsing.Proofs.Alike
/-! The operations cannot tell alike values apart and make no procedures of their own: from alike
arguments come alike results. -/
namespace SemanticParsing

/-- Both results are values and related, or both are the same complaint, and not about a symbol. -/
def Similar {α β : Type} (R : α → β → Prop) : Checked α → Checked β → Prop
  | .ok a, .ok b => R a b
  | .error e, .error f => e = f ∧ ∀ name, e ≠ .unbound name
  | _, _ => False

theorem Similar.bind {α β γ δ : Type} {R : α → β → Prop} {S : γ → δ → Prop} {x : Checked α}
    {y : Checked β} {f : α → Checked γ} {g : β → Checked δ} (first : Similar R x y)
    (second : ∀ a b, R a b → Similar S (f a) (g b)) : Similar S (x >>= f) (y >>= g) := by
  match x, y, first with
  | .ok a, .ok b, related => exact second a b related
  | .error e, .error _, same => exact same

open Value

variable {corresponds : Value → Value → Prop} {v w v' w' : Value} {vs ws : List Value}

namespace Arguments

theorem one_similar (name : String) (h : AllAlike corresponds vs ws) :
    Similar (Alike corresponds) (one name vs) (one name ws) := by
  match h with
  | .nil => exact ⟨rfl, nofun⟩
  | .cons first .nil => exact first
  | .cons _ (.cons _ rest) => simp [one, Similar, rest.length_eq]

theorem two_similar (name : String) (h : AllAlike corresponds vs ws) :
    Similar (fun p q => Alike corresponds p.1 q.1 ∧ Alike corresponds p.2 q.2)
      (two name vs) (two name ws) := by
  match h with
  | .nil | .cons _ .nil => exact ⟨rfl, nofun⟩
  | .cons first (.cons second .nil) => exact ⟨first, second⟩
  | .cons _ (.cons _ (.cons _ rest)) => simp [two, Similar, rest.length_eq]

theorem number_eq (name : String) (h : Alike corresponds v w) :
    number name v = number name w := by
  rw [number, number, h.asFloat?_eq, h.text_eq]

theorem number_similar (name : String) (h : Alike corresponds v w) :
    Similar Eq (number name v) (number name w) := by
  rw [number_eq name h, number]
  split
  · rfl
  · exact ⟨rfl, nofun⟩

theorem list_similar (name : String) (h : Alike corresponds v w) :
    Similar (AllAlike corresponds) (list name v) (list name w) := by
  have text := h.text_eq
  cases h with
  | list length each => exact forall₂_iff.mpr ⟨length, each⟩
  | atom isAtom => cases isAtom <;> exact ⟨rfl, nofun⟩
  | lambda => simp [list, asList?, Similar, text]

theorem procedure_similar (name : String) (h : Alike corresponds v w) :
    Similar (Alike corresponds) (procedure name v) (procedure name w) := by
  rw [procedure, procedure, h.isProcedure_eq, h.text_eq]
  split
  · exact h
  · exact ⟨rfl, nofun⟩

end Arguments

namespace Arithmetic

variable (a : Arithmetic)

theorem onFloats_similar (h : Alike corresponds v w) (h' : Alike corresponds v' w') :
    Similar (Alike corresponds) (a.onFloats v v') (a.onFloats w w') := by
  refine (Arguments.number_similar a.name h).bind fun x _ same => ?_
  refine (Arguments.number_similar a.name h').bind fun y _ same' => ?_
  rw [same, same']
  exact .atom (.float _)

theorem combine_similar (h : Alike corresponds v w) (h' : Alike corresponds v' w') :
    Similar (Alike corresponds) (a.combine v v') (a.combine w w') := by
  have floats := a.onFloats_similar h h'
  cases h with
  | list => exact floats
  | lambda => exact floats
  | atom isAtom =>
    cases isAtom with
    | int m =>
      cases h' with
      | list => exact floats
      | lambda => exact floats
      | atom isAtom' =>
        cases isAtom' with
        | int n =>
          simp only [combine]
          split
          · exact .atom (.int _)
          · exact floats
        | _ => exact floats
    | _ => exact floats

theorem fold_similar (first : Alike corresponds v w) (rest : AllAlike corresponds vs ws) :
    Similar (Alike corresponds) (a.fold v vs) (a.fold w ws) := by
  induction rest generalizing v w with
  | nil => exact first
  | cons next _ ih => exact (a.combine_similar first next).bind fun _ _ total => ih total

end Arithmetic

namespace Operation

theorem subtractAll_similar (h : AllAlike corresponds vs ws) :
    Similar (Alike corresponds) (subtractAll vs) (subtractAll ws) := by
  match h with
  | .nil => exact ⟨rfl, nofun⟩
  | .cons only .nil => exact Arithmetic.combine_similar _ (.atom (.int 0)) only
  | .cons first (.cons second rest) => exact Arithmetic.fold_similar _ first (.cons second rest)

theorem quotient_similar (h : Alike corresponds v w) (h' : Alike corresponds v' w') :
    Similar (Alike corresponds) (quotient v v') (quotient w w') := by
  have combined := Arithmetic.division.combine_similar h h'
  cases h with
  | list => exact combined
  | lambda => exact combined
  | atom isAtom =>
    cases isAtom with
    | int m =>
      cases h' with
      | list => exact combined
      | lambda => exact combined
      | atom isAtom' =>
        cases isAtom' with
        | int n =>
          simp only [quotient]
          split
          · exact ⟨rfl, nofun⟩
          · exact combined
        | _ => exact combined
    | _ => exact combined

theorem extremum_similar (name : String) (keeps : Float → Float → Bool)
    (h : AllAlike corresponds vs ws) :
    Similar (Alike corresponds) (extremum name keeps vs) (extremum name keeps ws) := by
  cases h with
  | nil => exact ⟨rfl, nofun⟩
  | @cons v w _ _ first rest =>
    simp only [extremum]
    induction rest generalizing v w with
    | nil => exact first
    | cons next _ ih =>
      refine Similar.bind ?_ fun _ _ best => ih best
      refine (Arguments.number_similar name first).bind fun x _ same => ?_
      refine (Arguments.number_similar name next).bind fun y _ same' => ?_
      rw [same, same']
      split
      · exact first
      · exact next

theorem absolute_similar (h : Alike corresponds v w) :
    Similar (Alike corresponds) (absolute v) (absolute w) := by
  have read : Similar (Alike corresponds)
      (do return .float (← Arguments.number abs.name v).abs)
      (do return .float (← Arguments.number abs.name w).abs) :=
    (Arguments.number_similar abs.name h).bind fun x _ same => same ▸ .atom (.float _)
  cases h with
  | list => exact read
  | lambda => exact read
  | atom isAtom =>
    cases isAtom with
    | int n =>
      simp only [absolute]
      split
      · exact .atom (.int _)
      · exact .atom (.float _)
    | _ => exact read

theorem isEmptyOrNil_eq (h : Alike corresponds v w) : isEmptyOrNil v = isEmptyOrNil w := by
  cases h with
  | @list items others length => cases items <;> cases others <;> simp_all [isEmptyOrNil]
  | _ => rfl

theorem getLast_alike (h : AllAlike corresponds vs ws) :
    Alike corresponds (vs.getLast?.getD .nil) (ws.getLast?.getD .nil) := by
  induction h with
  | nil => exact .atom .nil
  | cons first rest ih =>
    cases rest with
    | nil => exact first
    | cons second rest => simpa [List.getLast?_cons_cons] using ih

theorem bool_similar {a b : Bool} (same : a = b) :
    Similar (Alike corresponds) (.ok (.bool a)) (.ok (.bool b)) :=
  same ▸ .atom (.bool a)

/-- From alike arguments an operation gives alike results or the same error. -/
theorem call_similar (faithful : Faithful corresponds) (op : Operation)
    (h : AllAlike corresponds vs ws) :
    Similar (Alike corresponds) (op.call vs) (op.call ws) := by
  have alone (name : String) := Arguments.one_similar name h
  have pair (name : String) := Arguments.two_similar name h
  cases op with
  | add => exact Arithmetic.fold_similar _ (.atom (.int 0)) h
  | multiply => exact Arithmetic.fold_similar _ (.atom (.int 1)) h
  | subtract => exact subtractAll_similar h
  | divide => exact (pair _).bind fun _ _ both => quotient_similar both.1 both.2
  | power | pow => exact (pair _).bind fun _ _ both => Arithmetic.combine_similar _ both.1 both.2
  | compare c =>
    refine (pair _).bind fun _ _ both => ?_
    refine (Arguments.number_similar _ both.1).bind fun x _ same => ?_
    refine (Arguments.number_similar _ both.2).bind fun y _ same' => ?_
    exact bool_similar (same ▸ same' ▸ rfl)
  | equal | isEq | isEqual =>
    exact (pair _).bind fun _ _ both => bool_similar (both.1.same_eq faithful both.2)
  | append =>
    refine (pair _).bind fun _ _ both => ?_
    refine (Arguments.list_similar _ both.1).bind fun _ _ items => ?_
    exact alike_list (List.rel_append items (.cons both.2 .nil))
  | begin => exact getLast_alike h
  | car =>
    refine (alone _).bind fun _ _ list => ?_
    refine (Arguments.list_similar _ list).bind fun _ _ items => ?_
    cases items with
    | nil => exact ⟨congrArg (EvalError.argumentKind _ _) list.text_eq, nofun⟩
    | cons first => exact first
  | cdr =>
    refine (alone _).bind fun _ _ list => ?_
    refine (Arguments.list_similar _ list).bind fun _ _ items => ?_
    cases items with
    | nil => exact alike_list .nil
    | cons _ rest => exact alike_list rest
  | cons =>
    refine (pair _).bind fun _ _ both => ?_
    refine (Arguments.list_similar _ both.2).bind fun _ _ items => ?_
    exact alike_list (.cons both.1 items)
  | length =>
    refine (alone _).bind fun _ _ list => ?_
    refine (Arguments.list_similar _ list).bind fun _ _ items => ?_
    rw [items.length_eq]
    exact .atom (.int _)
  | list => exact alike_list h
  | not => exact (alone _).bind fun _ _ v => bool_similar (congrArg _ v.isTruthy_eq)
  | isNull => exact (alone _).bind fun _ _ v => bool_similar (isEmptyOrNil_eq v)
  | isNumber => exact (alone _).bind fun _ _ v => bool_similar v.isNumber_eq
  | isProcedure => exact (alone _).bind fun _ _ v => bool_similar v.isProcedure_eq
  | isSymbol => exact (alone _).bind fun _ _ v => bool_similar v.isSymbol_eq
  | abs => exact (alone _).bind fun _ _ v => absolute_similar v
  | max => exact extremum_similar _ _ h
  | min => exact extremum_similar _ _ h
  | atan2 =>
    refine (pair _).bind fun _ _ both => ?_
    refine (Arguments.number_similar _ both.1).bind fun y _ same => ?_
    refine (Arguments.number_similar _ both.2).bind fun x _ same' => ?_
    rw [same, same']
    exact .atom (.float _)
  | real f =>
    refine (alone _).bind fun _ _ v => ?_
    exact (Arguments.number_similar _ v).bind fun x _ same => same ▸ .atom (.float _)

def ProcedureOf (vs : List Value) (l m : Value) : Prop :=
  l = m ∧ ∃ v ∈ vs, l.Occurs v

theorem procedureOf_faithful (vs : List Value) : Faithful (ProcedureOf vs) := by
  rintro l _ l' _ ⟨rfl, -⟩ ⟨rfl, -⟩
  rfl

theorem procedureOf_self (vs : List Value) : AllAlike (ProcedureOf vs) vs vs :=
  List.forall₂_same.mpr fun v member => alike_self fun _ _ occurs => ⟨rfl, v, member, occurs⟩

/-- An operation makes no procedures: those in its result stand in its arguments. -/
theorem occurs_of_call {op : Operation} {arguments : List Value} {result l : Value}
    (h : op.call arguments = .ok result) (isLambda : l.IsLambda) (inside : l.Occurs result) :
    ∃ v ∈ arguments, l.Occurs v := by
  have results := call_similar (procedureOf_faithful arguments) op (procedureOf_self arguments)
  rw [h] at results
  obtain ⟨_, -, -, found⟩ := Alike.occurs results isLambda inside
  exact found

theorem eachLambda_of_call {P : List String → List Value → ScopeId → Nat → Prop} {op : Operation}
    {arguments : List Value} {result : Value} (h : op.call arguments = .ok result)
    (each : ∀ v ∈ arguments, v.EachLambda P) : result.EachLambda P := by
  intro parameters body s i occurs
  obtain ⟨v, member, inside⟩ := occurs_of_call h (.lambda ..) occurs
  exact each v member parameters body s i inside

theorem call_ne_unbound (op : Operation) (arguments : List Value) (name : String) :
    op.call arguments ≠ .error (.unbound name) := by
  have results := call_similar (procedureOf_faithful arguments) op (procedureOf_self arguments)
  intro h
  rw [h] at results
  exact results.2 name rfl

end Operation

end SemanticParsing
