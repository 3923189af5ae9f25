import Mathlib.Data.List.Nodup
import SemanticParsing.Proofs.Alike
import SemanticParsing.Proofs.WeightUpdate
/-! The precedence features of a meaning count its nestings: the lists that are arguments of lists
with another head, each at an address of its own. -/
namespace SemanticParsing

/-- A list of two items that starts with the minus sign is headed by the sign of a negation, and
every other list by the text of its first item. The empty list has no head. -/
inductive HeadedBy : List Value → String → Prop
  | negation (operand : Value) : HeadedBy [.symbol "-", operand] "~"
  | operator {first : Value} {rest : List Value} :
      ¬ (first = .symbol "-" ∧ rest.length = 1) → HeadedBy (first :: rest) first.text

/-- A list stands at the address among the arguments of a list with another head, and the name has
both heads. Each number of the address picks an argument, never the first item of a list. -/
inductive Value.Nests : Value → String → List Nat → Prop
  | here {first : Value} {rest child : List Value} {i : Nat} {outer inner : String} :
      rest[i]? = some (.list child) → HeadedBy (first :: rest) outer → HeadedBy child inner →
      inner ≠ outer → Nests (.list (first :: rest)) (inner ++ "," ++ outer) [i]
  | inside {first v : Value} {rest : List Value} {i : Nat} {name : String} {address : List Nat} :
      rest[i]? = some v → Nests v name address → Nests (.list (first :: rest)) name (i :: address)

theorem Value.Nests.ne_nil {v : Value} {name : String} {address : List Nat}
    (nests : v.Nests name address) : address ≠ [] := by
  cases nests <;> exact List.cons_ne_nil _ _

namespace Feature

variable {α : Type} [Scalar α] {items rest : List Value} {v child : Value} {head name : String}
  {address : List Nat} {i : Nat}

theorem head?_cons {first : Value} (other : ¬ (first = .symbol "-" ∧ rest.length = 1)) :
    head? (first :: rest) = some first.text := by
  rw [head?.eq_def]
  split
  · next empty => cases empty
  · next negation =>
    cases negation
    exact absurd ⟨rfl, rfl⟩ other
  · next same => cases same; rfl

theorem exists_head? (first : Value) (rest : List Value) :
    ∃ head, head? (first :: rest) = some head := by
  rw [head?.eq_def]
  split
  · next empty => cases empty
  all_goals exact ⟨_, rfl⟩

theorem head?_eq_some_iff : head? items = some head ↔ HeadedBy items head := by
  constructor
  · intro found
    cases items with
    | nil => cases found
    | cons first rest =>
      by_cases negation : first = .symbol "-" ∧ rest.length = 1
      · obtain ⟨rfl, single⟩ := negation
        obtain ⟨operand, rfl⟩ := List.length_eq_one_iff.mp single
        cases found
        exact .negation operand
      · rw [head?_cons negation] at found
        cases found
        exact .operator negation
  · intro headed
    cases headed with
    | negation => rfl
    | operator other => exact head?_cons other

/-- The name under which a child list is counted, if it is. -/
def nestingName? (parent : String) (child : Value) : Option String := do
  let head ← child.asList?.bind head?
  if head = parent then Option.none else some (head ++ "," ++ parent)

theorem nestingName?_eq_some_iff {parent : String} : nestingName? parent child = some name ↔
    ∃ items inner, child = .list items ∧ HeadedBy items inner ∧ inner ≠ parent ∧
      name = inner ++ "," ++ parent := by
  rw [nestingName?]
  cases child with
  | list items =>
    simp only [Value.asList?, Option.bind_some, Option.bind_eq_bind, Option.bind_eq_some_iff,
      head?_eq_some_iff]
    constructor
    · rintro ⟨inner, headed, named⟩
      split at named
      · cases named
      · next different => exact ⟨items, inner, rfl, headed, different, (Option.some.inj named).symm⟩
    · rintro ⟨_, inner, same, headed, different, rfl⟩
      cases same
      exact ⟨inner, headed, if_neg different⟩
  | _ => simp [Value.asList?]

def tally (features : Table α) (names : List String) : Table α :=
  names.foldl (fun features name => features.addAt name Scalar.one) features

theorem tally_append (features : Table α) (names others : List String) :
    tally features (names ++ others) = tally (tally features names) others :=
  List.foldl_append

theorem getElem?_tally (features : Table α) (names : List String) :
    (tally features names)[name]? = (names.filter (· = name)).foldl
      (fun entry _ => some (entry.getD Scalar.zero + Scalar.one)) features[name]? := by
  induction names generalizing features with
  | nil => rfl
  | cons other names ih =>
    rw [tally, List.foldl_cons, ← tally, ih, Table.getElem?_addAt, Table.number_eq]
    by_cases same : other = name
    · rw [if_pos same, List.filter_cons_of_pos (by simpa using same), List.foldl_cons, same]
    · rw [if_neg same, List.filter_cons_of_neg (by simpa using same)]

theorem countNesting_eq (parent : String) (child : Value) (features : Table α) :
    countNesting parent child features = tally features (nestingName? parent child).toList := by
  rw [countNesting, nestingName?]
  cases child.asList?.bind head? with
  | none => rfl
  | some head =>
    simp only [Option.bind_eq_bind, Option.bind_some]
    split <;> rfl

mutual

/-- The nestings of a value with their addresses, in the order in which they are counted. -/
def nestings : Value → List (List Nat × String)
  | .list (first :: rest) =>
    match head? (first :: rest) with
    | some parent => argumentNestings parent 0 rest
    | Option.none => []
  | _ => []

def argumentNestings (parent : String) (i : Nat) : List Value → List (List Nat × String)
  | [] => []
  | child :: rest =>
    (nestings child).map (fun nesting => (i :: nesting.1, nesting.2)) ++
      ((nestingName? parent child).toList.map fun name => ([i], name)) ++
      argumentNestings parent (i + 1) rest

end

theorem nestings_cons {first : Value} (headed : head? (first :: rest) = some head) :
    nestings (.list (first :: rest)) = argumentNestings head 0 rest := by
  rw [nestings, headed]

theorem addChildren_eq {parent : String} {children : List Value}
    (each : ∀ child ∈ children, ∀ features : Table α,
      addNestings features child = tally features ((nestings child).map Prod.snd))
    (features : Table α) (i : Nat) :
    addChildren parent features children =
      tally features ((argumentNestings parent i children).map Prod.snd) := by
  induction children generalizing features i with
  | nil => rfl
  | cons child rest ih =>
    rw [List.forall_mem_cons] at each
    rw [addChildren, ih each.2 _ (i + 1), countNesting_eq, each.1, argumentNestings]
    simp [tally_append, Function.comp_def]

theorem addNestings_eq (v : Value) (features : Table α) :
    addNestings features v = tally features ((nestings v).map Prod.snd) := by
  induction v using Value.induction generalizing features with
  | atom v isAtom => cases isAtom <;> simp only [addNestings, nestings] <;> rfl
  | lambda => simp only [addNestings, nestings]; rfl
  | list items ih =>
    cases items with
    | nil => simp only [addNestings, nestings]; rfl
    | cons first rest =>
      obtain ⟨head, headed⟩ := exists_head? first rest
      rw [addNestings, headed, nestings_cons headed]
      exact addChildren_eq (fun child member => ih child (List.mem_cons_of_mem first member)) _ 0

theorem mem_argumentNestings {parent : String} {children : List Value} :
    (address, name) ∈ argumentNestings parent i children ↔
      ∃ j child, children[j]? = some child ∧
        ((∃ inner, (inner, name) ∈ nestings child ∧ address = (i + j) :: inner) ∨
          nestingName? parent child = some name ∧ address = [i + j]) := by
  induction children generalizing i with
  | nil => simp [argumentNestings]
  | cons child rest ih =>
    rw [argumentNestings, List.mem_append, ih, List.mem_append]
    constructor
    · rintro ((inside | here) | ⟨j, other, found, place⟩)
      · obtain ⟨nesting, member, same⟩ := List.mem_map.mp inside
        cases same
        exact ⟨0, child, rfl, .inl ⟨nesting.1, member, rfl⟩⟩
      · obtain ⟨named, member, same⟩ := List.mem_map.mp here
        cases same
        exact ⟨0, child, rfl, .inr ⟨Option.mem_toList.mp member, rfl⟩⟩
      · rw [Nat.add_right_comm, Nat.add_assoc] at place
        exact ⟨j + 1, other, found, place⟩
    · rintro ⟨_ | j, other, found, place⟩
      · cases found
        left
        obtain ⟨inner, member, rfl⟩ | ⟨named, rfl⟩ := place
        · exact .inl (List.mem_map.mpr ⟨(inner, name), member, rfl⟩)
        · exact .inr (List.mem_map.mpr ⟨name, Option.mem_toList.mpr named, rfl⟩)
      · refine .inr ⟨j, other, found, ?_⟩
        rwa [Nat.add_right_comm, Nat.add_assoc]

theorem mem_nestings_iff : (address, name) ∈ nestings v ↔ v.Nests name address := by
  induction v using Value.induction generalizing address with
  | atom v isAtom =>
    cases isAtom <;> simp only [nestings, List.not_mem_nil, false_iff] <;> exact nofun
  | lambda => simp only [nestings, List.not_mem_nil, false_iff]; exact nofun
  | list items ih =>
    cases items with
    | nil => simp only [nestings, List.not_mem_nil, false_iff]; exact nofun
    | cons first rest =>
      have each (j : Nat) (child : Value) (found : rest[j]? = some child) (inner : List Nat) :
          (inner, name) ∈ nestings child ↔ child.Nests name inner :=
        ih child (List.mem_cons_of_mem first (List.mem_of_getElem? found))
      obtain ⟨outer, headed⟩ := exists_head? first rest
      rw [nestings_cons headed, mem_argumentNestings]
      constructor
      · rintro ⟨j, child, found, place⟩
        rw [Nat.zero_add] at place
        obtain ⟨inner, member, rfl⟩ | ⟨named, rfl⟩ := place
        · exact .inside found ((each j child found inner).mp member)
        · obtain ⟨items, inner, rfl, headedBy, different, rfl⟩ := nestingName?_eq_some_iff.mp named
          exact .here found (head?_eq_some_iff.mp headed) headedBy different
      · intro nests
        cases nests with
        | @here _ _ child j parent inner found headedBy headedBy' different =>
          obtain rfl := Option.some.inj (headed.symm.trans (head?_eq_some_iff.mpr headedBy))
          refine ⟨j, .list child, found, .inr ⟨?_, by rw [Nat.zero_add]⟩⟩
          exact nestingName?_eq_some_iff.mpr ⟨child, inner, rfl, headedBy', different, rfl⟩
        | @inside _ child _ j _ inner found nests =>
          refine ⟨j, child, found, .inl ⟨inner, ?_, by rw [Nat.zero_add]⟩⟩
          exact (each j child found inner).mpr nests

theorem exists_argument {parent : String} {children : List Value}
    (member : address ∈ (argumentNestings parent i children).map Prod.fst) :
    ∃ j inner, j < children.length ∧ address = (i + j) :: inner := by
  obtain ⟨nesting, inside, rfl⟩ := List.mem_map.mp member
  obtain ⟨j, child, found, place⟩ := mem_argumentNestings.mp inside
  have within : j < children.length := (List.getElem?_eq_some_iff.mp found).1
  obtain ⟨inner, -, starts⟩ | ⟨-, starts⟩ := place
  · exact ⟨j, inner, within, starts⟩
  · exact ⟨j, [], within, starts⟩

theorem argument_nodup {parent : String} (once : ((nestings child).map Prod.fst).Nodup) (i : Nat) :
    ((argumentNestings parent i [child]).map Prod.fst).Nodup := by
  have addresses : (argumentNestings parent i [child]).map Prod.fst =
      ((nestings child).map Prod.fst).map (i :: ·) ++
        (nestingName? parent child).toList.map fun _ => [i] := by
    simp [argumentNestings, Function.comp_def]
  rw [addresses, List.nodup_append]
  refine ⟨once.map List.cons_injective, ?_, ?_⟩
  · cases nestingName? parent child <;> simp
  · -- Deeper addresses go on after the number of the argument.
    intro address inside other alone same
    obtain ⟨inner, within, rfl⟩ := List.mem_map.mp inside
    obtain ⟨nesting, member, rfl⟩ := List.mem_map.mp within
    obtain ⟨_, -, rfl⟩ := List.mem_map.mp alone
    exact (mem_nestings_iff.mp member).ne_nil (List.cons.inj same).2

theorem argumentNestings_nodup {parent : String} {children : List Value}
    (each : ∀ child ∈ children, ((nestings child).map Prod.fst).Nodup) (i : Nat) :
    ((argumentNestings parent i children).map Prod.fst).Nodup := by
  induction children generalizing i with
  | nil => exact List.nodup_nil
  | cons child rest ih =>
    rw [List.forall_mem_cons] at each
    have split : argumentNestings parent i (child :: rest) =
        argumentNestings parent i [child] ++ argumentNestings parent (i + 1) rest := by
      simp [argumentNestings]
    rw [split, List.map_append, List.nodup_append]
    refine ⟨argument_nodup each.1 i, ih each.2 (i + 1), ?_⟩
    intro address here other later same
    obtain ⟨j, inner, only, rfl⟩ := exists_argument here
    obtain ⟨k, inner', -, rfl⟩ := exists_argument later
    rw [List.length_singleton] at only
    have number : i + j = i + 1 + k := (List.cons.inj same).1
    omega

theorem nestings_nodup (v : Value) : ((nestings v).map Prod.fst).Nodup := by
  induction v using Value.induction with
  | atom v isAtom => cases isAtom <;> simp [nestings]
  | lambda => simp [nestings]
  | list items ih =>
    cases items with
    | nil => simp [nestings]
    | cons first rest =>
      obtain ⟨head, headed⟩ := exists_head? first rest
      rw [nestings_cons headed]
      exact argumentNestings_nodup
        (fun child member => ih child (List.mem_cons_of_mem first member)) 0

theorem foldl_ones {β : Type} (xs : List β) :
    xs.foldl (fun entry _ => some (entry.getD Scalar.zero + Scalar.one)) (Option.none : Option α) =
      if xs.isEmpty then Option.none
      else some (xs.foldl (fun count _ => count + Scalar.one) Scalar.zero) := by
  have counted (xs : List β) (count : α) :
      xs.foldl (fun entry _ => some (entry.getD Scalar.zero + Scalar.one)) (some count) =
        some (xs.foldl (fun count _ => count + Scalar.one) count) := by
    induction xs generalizing count with
    | nil => rfl
    | cons x xs ih => exact ih (count + Scalar.one)
  cases xs with
  | nil => rfl
  | cons x xs => exact counted xs _

/-- A name has an entry among the precedence features of a meaning just when something is nested
under that name, and then the entry is one added to zero for each address at which it is. -/
theorem precedence_counts_nestings (meaning : Value) (name : String) :
    ∃ addresses : List (List Nat), addresses.Nodup ∧
      (∀ address, address ∈ addresses ↔ meaning.Nests name address) ∧
      (precedence meaning : Table α)[name]? =
        if addresses.isEmpty then Option.none
        else some (addresses.foldl (fun count _ => count + Scalar.one) Scalar.zero) := by
  refine ⟨((nestings meaning).filter (·.2 = name)).map Prod.fst, ?_, fun address => ?_, ?_⟩
  · exact (nestings_nodup meaning).sublist (List.filter_sublist.map Prod.fst)
  · rw [← mem_nestings_iff]
    simp
  · have empty : (∅ : Table α)[name]? = Option.none := Std.ExtTreeMap.getElem?_empty
    have named : (((nestings meaning).map Prod.snd).filter (· = name)) =
        ((nestings meaning).filter (·.2 = name)).map Prod.snd := by
      rw [List.filter_map]
      rfl
    rw [precedence, addNestings_eq, getElem?_tally, empty, named, List.foldl_map, List.foldl_map,
      List.isEmpty_map]
    exact foldl_ones _

example : (precedence (.list [.symbol "*", .list [.symbol "+", .int 1, .int 2],
    .list [.symbol "+", .int 3, .list [.symbol "-", .int 4]]]) : Table Float).toList =
      [("+,*", 2.0), ("~,+", 1.0)] := by
  decide +kernel

end Feature

end SemanticParsing
