import SemanticParsing.Proofs.IntegerComparison
/-!
Equality of meanings is not transitive. An integer is rounded when it is compared with a float, so
a float can be equal to different integers, and these are not equal to each other. This is the only
way in which it fails.
-/
namespace SemanticParsing.Value

open Decimal Whole

/-- The values are equal when integers are rounded everywhere. -/
inductive Near : Value → Value → Prop
  | number {v w : Value} {x y : Float} (left : v.asFloat? = some x) (right : w.asFloat? = some y)
      (equal : x == y) : Near v w
  | atom {v : Value} (isAtom : v.IsAtom) (other : v.asFloat? = none) : Near v v
  | lambda {parameters others : List String} {body body' : List Value} {s t : ScopeId} {i : Nat} :
      Near (lambda parameters body s i) (lambda others body' t i)
  | list {items others : List Value} (length : items.length = others.length)
      (each : ∀ pair ∈ items.zip others, Near pair.1 pair.2) : Near (list items) (list others)

mutual

/-- Integers at corresponding places are the same. -/
def integersAgree : Value → Value → Bool
  | int m, int n => m == n
  | list items, list others => allIntegersAgree items others
  | _, _ => true

def allIntegersAgree : List Value → List Value → Bool
  | v :: items, w :: others => v.integersAgree w && allIntegersAgree items others
  | _, _ => true

end

mutual

def integers : Value → List Int64
  | int n => [n]
  | list items => allIntegers items
  | _ => []

def allIntegers : List Value → List Int64
  | [] => []
  | v :: rest => v.integers ++ allIntegers rest

end

variable {u v w : Value} {items others : List Value} {x : Float}

theorem same_comm (v w : Value) : v.same w = w.same v := by
  induction v using Value.induction generalizing w with
  | atom v isAtom => cases isAtom <;> cases w <;> simp [same, BEq.comm]
  | list items ih =>
    cases w with
    | list others =>
      rw [same, same]
      induction items generalizing others with
      | nil => cases others <;> rfl
      | cons v items ih' =>
        cases others with
        | nil => rfl
        | cons w others =>
          rw [sameItems, sameItems, ih v List.mem_cons_self,
            ih' fun u member => ih u (List.mem_cons_of_mem _ member)]
    | _ => rfl
  | lambda => cases w <;> simp [same, BEq.comm]

theorem sameItems_iff :
    sameItems items others = true ↔ List.Forall₂ (fun v w => v.same w = true) items others := by
  induction items generalizing others with
  | nil => cases others <;> simp [sameItems]
  | cons v items ih => cases others <;> simp [sameItems, ih]

theorem near_list (h : List.Forall₂ Near items others) : Near (.list items) (.list others) :=
  have ⟨length, each⟩ := forall₂_iff.mp h
  .list length each

theorem asFloat?_of_same (number : v.asFloat? = some x) (h : v.same w = true) :
    ∃ y, w.asFloat? = some y ∧ (x == y) = true := by
  cases v with
  | int m =>
    obtain rfl := Option.some.inj number
    cases w with
    | int n =>
      obtain rfl := beq_iff_eq.mp h
      exact ⟨_, rfl, beq_self_of_isNaN_eq_false (isNaN_ofInteger _)⟩
    | float y => exact ⟨y, rfl, h⟩
    | _ => simp [same] at h
  | float x' =>
    obtain rfl := Option.some.inj number
    cases w with
    | int n => exact ⟨_, rfl, h⟩
    | float y => exact ⟨y, rfl, h⟩
    | _ => simp [same] at h
  | _ => cases number

theorem IsAtom.eq_of_same (isAtom : v.IsAtom) (other : v.asFloat? = none) (h : v.same w = true) :
    v = w := by
  cases isAtom <;> cases w <;> simp_all [same, asFloat?]

theorem Near.of_same (h : v.same w = true) : Near v w := by
  induction v using Value.induction generalizing w with
  | atom v isAtom =>
    cases number : v.asFloat? with
    | none =>
      obtain rfl := isAtom.eq_of_same number h
      exact .atom isAtom number
    | some x =>
      obtain ⟨y, right, equal⟩ := asFloat?_of_same number h
      exact .number number right equal
  | list items ih =>
    cases w with
    | list others =>
      rw [same, sameItems_iff] at h
      obtain ⟨length, each⟩ := forall₂_iff.mp h
      exact .list length fun pair member =>
        ih pair.1 (List.of_mem_zip member).1 (each pair member)
    | _ => simp [same] at h
  | lambda =>
    cases w with
    | lambda =>
      obtain rfl := beq_iff_eq.mp h
      exact .lambda
    | _ => simp [same] at h

theorem allIntegersAgree_iff : allIntegersAgree items others = true ↔
    ∀ pair ∈ items.zip others, pair.1.integersAgree pair.2 = true := by
  induction items generalizing others with
  | nil => simp [allIntegersAgree]
  | cons v items ih => cases others <;> simp [allIntegersAgree, ih]

theorem Near.same_iff (h : Near v w) : v.same w = true ↔ v.integersAgree w = true := by
  induction h with
  | @number v w x y left right equal =>
    cases v <;> cases w <;> simp_all [same, asFloat?, integersAgree]
  | atom isAtom other => cases isAtom <;> simp_all [same, asFloat?, integersAgree]
  | lambda => simp [same, integersAgree]
  | @list items others length _ ih =>
    rw [same, integersAgree, sameItems_iff, forall₂_iff, allIntegersAgree_iff]
    exact (and_iff_right length).trans (forall₂_congr ih)

theorem forall₂_chain {others more : List Value}
    (first : List.Forall₂ (fun u v => ∀ w, Near v w → Near u w) items others)
    (second : List.Forall₂ Near others more) : List.Forall₂ Near items more := by
  induction first generalizing more with
  | nil =>
    cases second
    exact .nil
  | cons chains _ ih =>
    cases second with
    | cons near rest => exact .cons (chains _ near) (ih rest)

theorem Near.trans (first : Near u v) (second : Near v w) : Near u w := by
  induction first generalizing w with
  | @number u v x y left right equal =>
    cases second with
    | number left' right' equal' =>
      obtain rfl := Option.some.inj (right.symm.trans left')
      exact .number left right' (BEq.trans equal equal')
    | atom _ other =>
      rw [right] at other
      cases other
    | lambda | list => cases right
  | atom => exact second
  | lambda =>
    cases second with
    | number left => cases left
    | atom isAtom => cases isAtom
    | lambda => exact .lambda
  | @list items others length _ ih =>
    cases second with
    | number left => cases left
    | atom isAtom => cases isAtom
    | list length' each' =>
      refine near_list (forall₂_chain ?_ (forall₂_iff.mpr ⟨length', each'⟩))
      exact forall₂_iff.mpr ⟨length, fun pair member _ => ih pair member⟩

theorem mem_allIntegers {n : Int64} : n ∈ allIntegers items ↔ ∃ v ∈ items, n ∈ v.integers := by
  induction items with
  | nil => simp [allIntegers]
  | cons v items ih => simp [allIntegers, ih]

theorem Near.integersAgree (h : Near v w)
    (apart : ∀ m ∈ v.integers, ∀ n ∈ w.integers, ¬ Merged m n) : v.integersAgree w = true := by
  induction h with
  | @number v w x y left right equal =>
    cases v with
    | int m =>
      cases w with
      | int n =>
        obtain rfl := Option.some.inj left
        obtain rfl := Option.some.inj right
        have known := apart m (by simp [integers]) n (by simp [integers])
        have same : m = n := by_contra fun different => known ⟨different, equal⟩
        exact beq_iff_eq.mpr same
      | _ => rfl
    | float | list => simp_all [Value.integersAgree, asFloat?]
    | _ => cases left
  | atom isAtom other => cases isAtom <;> simp_all [asFloat?, Value.integersAgree]
  | lambda => simp [Value.integersAgree]
  | list length _ ih =>
    rw [Value.integersAgree, allIntegersAgree_iff]
    intro pair member
    obtain ⟨left, right⟩ := List.of_mem_zip member
    refine ih pair member fun m inside n inside' => apart m ?_ n ?_
    · exact mem_allIntegers.mpr ⟨pair.1, left, inside⟩
    · exact mem_allIntegers.mpr ⟨pair.2, right, inside'⟩

/-- What holds of equality in place of the laws of an equivalence. -/
structure SameLaws (u v w : Value) : Prop where
  refl : u.isNaNFree = true → u.same u = true
  symm : u.same v = true → v.same u = true
  trans_iff : u.same v = true → v.same w = true → (u.same w = true ↔ u.integersAgree w = true)
  trans_of_exact : u.same v = true → v.same w = true →
    (∀ n ∈ u.integers, IsExact n) → (∀ n ∈ w.integers, IsExact n) → u.same w = true

/-- Values without NaN are equal to themselves, and equality is symmetric. Where two values are
equal to a third one, they are equal unless different integers stand at corresponding places in
them, one of which is then past `2 ^ 53`. -/
theorem same_is_transitive_up_to_integers (u v w : Value) : SameLaws u v w where
  refl := same_self
  symm h := by rwa [same_comm]
  trans_iff first second := ((Near.of_same first).trans (.of_same second)).same_iff
  trans_of_exact first second exact exact' := by
    have near := (Near.of_same first).trans (.of_same second)
    exact near.same_iff.mpr
      (near.integersAgree fun m inside n inside' => (exact m inside).not_merged (exact' n inside'))

theorem same_is_not_transitive :
    (int 9007199254740992).same (float 9007199254740992.0) = true ∧
      (float 9007199254740992.0).same (int 9007199254740993) = true ∧
      (int 9007199254740992).same (int 9007199254740993) = false ∧
      [int 9007199254740992, float 9007199254740992.0, int 9007199254740993].all isNaNFree := by
  refine ⟨?_, ?_, rfl, ?_⟩ <;> decide +kernel

end SemanticParsing.Value
