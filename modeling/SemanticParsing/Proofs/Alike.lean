import Mathlib.Data.List.Forall2
import SemanticParsing.Value.Basic
/-! Values that differ in their procedures at most. -/
namespace SemanticParsing

namespace Value

inductive IsAtom : Value → Prop
  | int (n : Int64) : IsAtom (int n)
  | float (x : Float) : IsAtom (float x)
  | bool (b : Bool) : IsAtom (bool b)
  | symbol (name : String) : IsAtom (symbol name)
  | primitive (p : Primitive) : IsAtom (primitive p)
  | nil : IsAtom nil

inductive IsLambda : Value → Prop
  | lambda (parameters : List String) (body : List Value) (s : ScopeId) (i : Nat) :
      IsLambda (lambda parameters body s i)

@[elab_as_elim]
theorem induction {motive : Value → Prop} (atom : ∀ v : Value, v.IsAtom → motive v)
    (list : ∀ items, (∀ v ∈ items, motive v) → motive (list items))
    (lambda : ∀ parameters body s i, (∀ v ∈ body, motive v) → motive (lambda parameters body s i))
    (v : Value) : motive v :=
  match v with
  | .list items => list items fun v _ => induction atom list lambda v
  | .lambda parameters body s i =>
    lambda parameters body s i fun v _ => induction atom list lambda v
  | .int n => atom _ (.int n)
  | .float x => atom _ (.float x)
  | .bool b => atom _ (.bool b)
  | .symbol name => atom _ (.symbol name)
  | .primitive p => atom _ (.primitive p)
  | .nil => atom _ .nil

/-- The part is the value itself, or stands somewhere in its lists and procedure bodies. -/
inductive Occurs (part : Value) : Value → Prop
  | self : Occurs part part
  | item {items : List Value} {v : Value} : v ∈ items → Occurs part v → Occurs part (list items)
  | body {parameters : List String} {body : List Value} {s : ScopeId} {i : Nat} {v : Value} :
      v ∈ body → Occurs part v → Occurs part (lambda parameters body s i)

/-- Each procedure made by `lambda` that stands in the value satisfies the condition. -/
def EachLambda (P : List String → List Value → ScopeId → Nat → Prop) (v : Value) : Prop :=
  ∀ parameters body s i, (lambda parameters body s i).Occurs v → P parameters body s i

section EachLambda

variable {P : List String → List Value → ScopeId → Nat → Prop} {items body : List Value}
  {parameters : List String} {v e : Value} {s : ScopeId} {i : Nat}

theorem IsAtom.eachLambda (h : v.IsAtom) : v.EachLambda P := by
  intro parameters body s i occurs
  cases h <;> cases occurs

theorem eachLambda_list : (list items).EachLambda P ↔ ∀ v ∈ items, v.EachLambda P := by
  constructor
  · exact fun h v member parameters body s i occurs => h parameters body s i (.item member occurs)
  · intro h parameters body s i occurs
    cases occurs with
    | item member inside => exact h _ member parameters body s i inside

theorem eachLambda_lambda : (lambda parameters body s i).EachLambda P ↔
    P parameters body s i ∧ ∀ e ∈ body, e.EachLambda P := by
  constructor
  · exact fun h => ⟨h _ _ _ _ .self,
      fun e member parameters body s i occurs => h _ _ _ _ (.body member occurs)⟩
  · rintro ⟨own, inside⟩ parameters' body' s' i' occurs
    cases occurs with
    | self => exact own
    | body member deeper => exact inside _ member parameters' body' s' i' deeper

end EachLambda

mutual

def isPlain : Value → Bool
  | list items => allPlain items
  | lambda .. => false
  | _ => true

def allPlain : List Value → Bool
  | [] => true
  | v :: rest => v.isPlain && allPlain rest

end

theorem allPlain_iff {items : List Value} : allPlain items ↔ ∀ v ∈ items, v.isPlain := by
  induction items with
  | nil => simp [allPlain]
  | cons v rest ih => simp [allPlain, ih]

theorem eachLambda_of_isPlain {P : List String → List Value → ScopeId → Nat → Prop} {v : Value}
    (h : v.isPlain) : v.EachLambda P := by
  induction v using Value.induction with
  | atom v isAtom => exact isAtom.eachLambda
  | list items ih =>
    rw [isPlain, allPlain_iff] at h
    exact eachLambda_list.mpr fun v member => ih v member (h v member)
  | lambda => simp [isPlain] at h

/-- The values are the same up to procedures made by `lambda`, which correspond where they
stand. -/
inductive Alike (corresponds : Value → Value → Prop) : Value → Value → Prop
  | atom {v : Value} : v.IsAtom → Alike corresponds v v
  | list {items others : List Value} (length : items.length = others.length)
      (each : ∀ pair ∈ items.zip others, Alike corresponds pair.1 pair.2) :
      Alike corresponds (list items) (list others)
  | lambda {parameters : List String} {body other : List Value} {s t : ScopeId} {i j : Nat}
      (procedures : corresponds (lambda parameters body s i) (lambda parameters other t j))
      (length : body.length = other.length)
      (each : ∀ pair ∈ body.zip other, Alike corresponds pair.1 pair.2) :
      Alike corresponds (lambda parameters body s i) (lambda parameters other t j)

variable {corresponds weaker : Value → Value → Prop} {v w : Value}

abbrev AllAlike (corresponds : Value → Value → Prop) : List Value → List Value → Prop :=
  List.Forall₂ (Alike corresponds)

theorem forall₂_iff {R : Value → Value → Prop} {items others : List Value} :
    List.Forall₂ R items others ↔
      items.length = others.length ∧ ∀ pair ∈ items.zip others, R pair.1 pair.2 := by
  simp [List.forall₂_iff_zip]

theorem alike_list {items others : List Value} (h : AllAlike corresponds items others) :
    Alike corresponds (.list items) (.list others) :=
  have ⟨length, each⟩ := forall₂_iff.mp h
  .list length each

theorem Alike.mono (h : Alike corresponds v w) (implies : ∀ l m, corresponds l m → weaker l m) :
    Alike weaker v w := by
  induction h with
  | atom isAtom => exact .atom isAtom
  | list length _ ih => exact .list length ih
  | lambda procedures length _ ih => exact .lambda (implies _ _ procedures) length ih

theorem alike_self (procedures : ∀ l : Value, l.IsLambda → l.Occurs v → corresponds l l) :
    Alike corresponds v v := by
  induction v using Value.induction with
  | atom v isAtom => exact .atom isAtom
  | list items ih =>
    refine alike_list (List.forall₂_same.mpr fun v member =>
      ih v member fun l isLambda inside => ?_)
    exact procedures l isLambda (.item member inside)
  | lambda parameters body s i ih =>
    have items : AllAlike corresponds body body := by
      refine List.forall₂_same.mpr fun v member => ih v member fun l isLambda inside => ?_
      exact procedures l isLambda (.body member inside)
    obtain ⟨length, each⟩ := forall₂_iff.mp items
    exact .lambda (procedures _ (.lambda ..) .self) length each

theorem exists_of_mem_zip {items others : List Value} (length : items.length = others.length)
    (member : v ∈ items) : ∃ pair ∈ items.zip others, pair.1 = v ∧ pair.2 ∈ others := by
  obtain ⟨i, bound, rfl⟩ := List.mem_iff_getElem.mp member
  refine ⟨(items[i], others[i]), ?_, rfl, List.getElem_mem _⟩
  exact List.mem_iff_getElem.mpr ⟨i, by simp; omega, by simp⟩

theorem Alike.occurs (h : Alike corresponds v w) {l : Value} (isLambda : l.IsLambda)
    (inside : l.Occurs v) : ∃ m, m.Occurs w ∧ corresponds l m := by
  induction h with
  | @atom v isAtom =>
    cases isLambda
    cases isAtom <;> cases inside
  | list length _ ih =>
    cases inside with
    | self => cases isLambda
    | item member inside =>
      obtain ⟨pair, paired, rfl, other⟩ := exists_of_mem_zip length member
      obtain ⟨m, occurs, procedures⟩ := ih pair paired inside
      exact ⟨m, .item other occurs, procedures⟩
  | lambda procedures length _ ih =>
    cases inside with
    | self => exact ⟨_, .self, procedures⟩
    | body member inside =>
      obtain ⟨pair, paired, rfl, other⟩ := exists_of_mem_zip length member
      obtain ⟨m, occurs, procedures⟩ := ih pair paired inside
      exact ⟨m, .body other occurs, procedures⟩

theorem Alike.eq_of_isPlain (h : Alike corresponds v w) (plain : v.isPlain) : v = w := by
  induction h with
  | atom => rfl
  | @list items others length _ ih =>
    rw [isPlain, allPlain_iff] at plain
    have same : List.Forall₂ Eq items others :=
      forall₂_iff.mpr ⟨length, fun pair member =>
        ih pair member (plain pair.1 (List.of_mem_zip member).1)⟩
    rw [List.forall₂_eq_eq_eq] at same
    rw [same]
  | lambda => simp [isPlain] at plain

theorem Alike.symm (h : Alike corresponds v w) : Alike (flip corresponds) w v := by
  induction h with
  | atom isAtom => exact .atom isAtom
  | @list items others length _ ih =>
    exact alike_list (List.Forall₂.flip (forall₂_iff.mpr ⟨length, ih⟩))
  | lambda procedures length _ ih =>
    obtain ⟨length', each⟩ := forall₂_iff.mp (List.Forall₂.flip (forall₂_iff.mpr ⟨length, ih⟩))
    exact .lambda procedures length' each

theorem itemsText_eq (items : List Value) : itemsText items = " ".intercalate (items.map text) := by
  induction items with
  | nil => rfl
  | cons v rest ih =>
    cases rest with
    | nil => simp [itemsText]
    | cons next rest =>
      rw [itemsText, ih]
      · simp
      · simp

theorem Alike.text_eq (h : Alike corresponds v w) : v.text = w.text := by
  induction h with
  | atom => rfl
  | @list items others length _ ih =>
    have texts : List.Forall₂ Eq (items.map text) (others.map text) := by
      rw [List.forall₂_map_left_iff, List.forall₂_map_right_iff]
      exact forall₂_iff.mpr ⟨length, ih⟩
    rw [List.forall₂_eq_eq_eq] at texts
    rw [text, text, itemsText_eq, itemsText_eq, texts]
  | lambda => rfl

/-- Of the procedures on either side the same ones are the same. -/
def Faithful (corresponds : Value → Value → Prop) : Prop :=
  ∀ l m l' m', corresponds l m → corresponds l' m' → l.same l' = m.same m'

theorem Alike.asFloat?_eq (h : Alike corresponds v w) : v.asFloat? = w.asFloat? := by
  cases h <;> rfl

theorem Alike.isTruthy_eq (h : Alike corresponds v w) : v.isTruthy = w.isTruthy := by
  cases h <;> rfl

theorem Alike.isNumber_eq (h : Alike corresponds v w) : v.isNumber = w.isNumber := by
  cases h <;> rfl

theorem Alike.isProcedure_eq (h : Alike corresponds v w) : v.isProcedure = w.isProcedure := by
  cases h <;> rfl

theorem Alike.isSymbol_eq (h : Alike corresponds v w) : v.isSymbol = w.isSymbol := by
  cases h <;> rfl

theorem sameItems_eq {items others : List Value} (length : items.length = others.length)
    {later laterOthers : List Value}
    (each : ∀ pair ∈ items.zip others, ∀ w w', Alike corresponds w w' →
      pair.1.same w = pair.2.same w') (h : AllAlike corresponds later laterOthers) :
    sameItems items later = sameItems others laterOthers := by
  induction h generalizing items others with
  | nil => cases items <;> cases others <;> simp_all [sameItems]
  | cons first _ ih =>
    cases items with
    | nil => cases others <;> simp_all [sameItems]
    | cons v items =>
      cases others with
      | nil => simp at length
      | cons w others =>
        rw [sameItems, sameItems, each (v, w) (by simp) _ _ first, ih (by simpa using length)]
        exact fun pair member => each pair (by simp [member])

theorem Alike.same_eq (faithful : Faithful corresponds) {v' w' : Value}
    (h : Alike corresponds v w) (h' : Alike corresponds v' w') : v.same v' = w.same w' := by
  induction h generalizing v' w' with
  | atom isAtom =>
    cases h' with
    | atom => rfl
    | list | lambda => cases isAtom <;> rfl
  | list length _ ih =>
    cases h' with
    | list length' each' =>
      exact sameItems_eq length (fun pair member _ _ => ih pair member)
        (forall₂_iff.mpr ⟨length', each'⟩)
    | lambda => rfl
    | atom isAtom => cases isAtom <;> rfl
  | lambda procedures =>
    cases h' with
    | lambda procedures' => exact faithful _ _ _ _ procedures procedures'
    | list => rfl
    | atom isAtom => cases isAtom <;> rfl

end Value

end SemanticParsing
