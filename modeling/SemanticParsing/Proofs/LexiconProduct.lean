import Mathlib
import SemanticParsing.Proofs.LexiconPipeline
/-! A synthesized lexicon is a product: each token with each meaning and each category of the same
kind. Meanings are executed once each, in their order, up to the first that stops. -/
namespace SemanticParsing.Lexicon

variable {σ : Type}

/-- The meanings are executed one after the other, each in the state that the one before it left,
and give these outputs. -/
inductive Executes (executor : Executor σ) : σ → List Value → List Value → σ → Prop
  | done (state : σ) : Executes executor state [] [] state
  | next {state later after : σ} {meaning output : Value} {rest outputs : List Value}
      (first : (executor meaning).run.run state = (.ok output, later))
      (others : Executes executor later rest outputs after) :
      Executes executor state (meaning :: rest) (output :: outputs) after

/-- Executed in the same way, one of the meanings stops, and none after it is executed. -/
inductive StopsWith (executor : Executor σ) : σ → List Value → Stop → σ → Prop
  | here {state after : σ} {meaning : Value} {rest : List Value} {stop : Stop}
      (stops : (executor meaning).run.run state = (.error stop, after)) :
      StopsWith executor state (meaning :: rest) stop after
  | next {state later after : σ} {meaning output : Value} {rest : List Value} {stop : Stop}
      (first : (executor meaning).run.run state = (.ok output, later))
      (others : StopsWith executor later rest stop after) :
      StopsWith executor state (meaning :: rest) stop after

variable {executor : Executor σ} {state after : σ} {meanings outputs : List Value} {stop : Stop}

theorem executes_or_stops (executor : Executor σ) (meanings : List Value) (state : σ) :
    (∃ outputs after, Executes executor state meanings outputs after) ∨
      ∃ stop after, StopsWith executor state meanings stop after := by
  induction meanings generalizing state with
  | nil => exact .inl ⟨[], state, .done state⟩
  | cons meaning rest ih =>
    match first : (executor meaning).run.run state with
    | (.error stop, after) => exact .inr ⟨stop, after, .here first⟩
    | (.ok output, later) =>
      obtain ⟨outputs, after, others⟩ | ⟨stop, after, others⟩ := ih later
      · exact .inl ⟨output :: outputs, after, .next first others⟩
      · exact .inr ⟨stop, after, .next first others⟩

theorem Executes.length_eq (h : Executes executor state meanings outputs after) :
    meanings.length = outputs.length := by
  induction h with
  | done => rfl
  | next _ _ ih => rw [List.length_cons, List.length_cons, ih]

theorem Executes.run_mapM (h : Executes executor state meanings outputs after) :
    (meanings.mapM executor).run.run state = (.ok outputs, after) := by
  induction h with
  | done => rfl
  | next first _ ih => simp only [List.mapM_cons, Action.run_bind, first, ih, Action.run_pure]

theorem StopsWith.run_mapM (h : StopsWith executor state meanings stop after) :
    (meanings.mapM executor).run.run state = (.error stop, after) := by
  induction h with
  | here stops => simp only [List.mapM_cons, Action.run_bind, stops]
  | next first _ ih => simp only [List.mapM_cons, Action.run_bind, first, ih]

structure Choice where
  token : Nat
  meaning : Nat
  category : Nat

namespace Choice

/-- Choices are in the order of their tokens, then meanings, then categories. -/
def Before (c d : Choice) : Prop :=
  c.token < d.token ∨ c.token = d.token ∧
    (c.meaning < d.meaning ∨ c.meaning = d.meaning ∧ c.category < d.category)

def Makes (tokens : List String) (meanings : List Value) (categories : List String) (c : Choice)
    (rule : Rule) : Prop :=
  ∃ token ∈ tokens[c.token]?, ∃ meaning ∈ meanings[c.meaning]?,
    ∃ category ∈ categories[c.category]?, Rule.lexical category token meaning = rule

/-- All choices among tokens, meanings and categories at these positions. -/
def grid (tokens meanings categories : List Nat) : List Choice :=
  tokens.flatMap fun token => meanings.flatMap fun meaning => categories.map fun category =>
    ⟨token, meaning, category⟩

variable {ts ms cs : List Nat} {c : Choice}

theorem mem_grid : c ∈ grid ts ms cs ↔ c.token ∈ ts ∧ c.meaning ∈ ms ∧ c.category ∈ cs := by
  simp only [grid, List.mem_flatMap, List.mem_map]
  constructor
  · intro made
    obtain ⟨token, inTokens, meaning, inMeanings, category, inCategories, rfl⟩ := made
    exact ⟨inTokens, inMeanings, inCategories⟩
  · intro members
    exact ⟨c.token, members.1, c.meaning, members.2.1, c.category, members.2.2, rfl⟩

theorem grid_sorted (tokens : ts.Pairwise (· < ·)) (meanings : ms.Pairwise (· < ·))
    (categories : cs.Pairwise (· < ·)) : (grid ts ms cs).Pairwise Before := by
  rw [grid, List.pairwise_flatMap]
  constructor
  · intro token _
    rw [List.pairwise_flatMap]
    constructor
    · intro meaning _
      exact List.pairwise_map.mpr (categories.imp fun less => .inr ⟨rfl, .inr ⟨rfl, less⟩⟩)
    · refine meanings.imp fun less c first d second => ?_
      obtain ⟨category, -, rfl⟩ := List.mem_map.mp first
      obtain ⟨category', -, rfl⟩ := List.mem_map.mp second
      exact .inr ⟨rfl, .inl less⟩
  · refine tokens.imp fun less c first d second => ?_
    obtain ⟨meaning, -, inside⟩ := List.mem_flatMap.mp first
    obtain ⟨meaning', -, inside'⟩ := List.mem_flatMap.mp second
    obtain ⟨category, -, rfl⟩ := List.mem_map.mp inside
    obtain ⟨category', -, rfl⟩ := List.mem_map.mp inside'
    exact .inl less

theorem length_grid : (grid ts ms cs).length = ts.length * (ms.length * cs.length) := by
  simp [grid]

end Choice

/-- The items stand at these positions of the list. -/
def At {α : Type} (list : List α) (positions : List Nat) (items : List α) : Prop :=
  List.Forall₂ (fun i item => list[i]? = some item) positions items

theorem at_range {α : Type} (list : List α) : At list (List.range list.length) list := by
  refine List.forall₂_iff_get.mpr ⟨List.length_range, fun i inRange inList => ?_⟩
  simp

theorem at_findIdxs {α : Type} (list : List α) (p : α → Bool) :
    At list (list.findIdxs p) (list.filter p) := by
  induction list using List.reverseRecOn with
  | nil => exact .nil
  | append_singleton list x ih =>
    rw [List.findIdxs_append, List.filter_append]
    refine List.rel_append ?_ ?_
    · refine ih.imp fun i item atIndex => ?_
      rw [List.getElem?_append_left (List.getElem?_eq_some_iff.mp atIndex).1, atIndex]
    · rw [List.findIdxs_singleton, List.filter_singleton]
      cases p x with
      | true =>
        refine .cons ?_ .nil
        simp
      | false => exact .nil

theorem at_meaningsOfKind (length : meanings.length = outputs.length) (isProcedure : Bool) :
    At meanings (outputs.findIdxs (·.isProcedure = isProcedure))
      (meaningsOfKind meanings outputs isProcedure) := by
  have kinds : (meanings.zip (outputs.map Value.isProcedure)).map Prod.snd =
      outputs.map Value.isProcedure :=
    List.map_snd_zip (by simp [length])
  have positions : outputs.findIdxs (·.isProcedure = isProcedure) =
      (meanings.zip (outputs.map Value.isProcedure)).findIdxs (·.2 = isProcedure) := by
    have ofKinds := congrArg (·.findIdxs (· = isProcedure)) kinds
    rw [List.findIdxs_map, List.findIdxs_map] at ofKinds
    exact ofKinds.symm
  rw [positions, meaningsOfKind, At, List.forall₂_map_right_iff]
  refine (at_findIdxs _ _).imp fun i pair atIndex => ?_
  exact (List.getElem?_zip_eq_some.mp atIndex).1

variable {tokens : List String} {categories : List String}

theorem made_product {ts ms cs : List Nat} {tokens' : List String} {meanings' : List Value}
    {categories' : List String} (first : At tokens ts tokens') (second : At meanings ms meanings')
    (third : At categories cs categories') :
    List.Forall₂ (Choice.Makes tokens meanings categories) (Choice.grid ts ms cs)
      (product tokens' meanings' categories') := by
  refine List.rel_flatMap first fun i token atToken => ?_
  refine List.rel_flatMap second fun j meaning atMeaning => ?_
  refine List.rel_map (fun k category atCategory => ?_) third
  exact ⟨token, atToken, meaning, atMeaning, category, atCategory, rfl⟩

namespace Choice

def IsOperator (categories : List String) (c : Choice) : Prop :=
  ∃ category ∈ categories[c.category]?, Category.isOperator category

/-- Choices of operator categories come first; of one kind, choices are in their order. -/
def Precedes (categories : List String) (c d : Choice) : Prop :=
  (c.IsOperator categories ∧ ¬ d.IsOperator categories) ∨
    ((c.IsOperator categories ↔ d.IsOperator categories) ∧ c.Before d)

def ofKind (tokens : List String) (outputs : List Value) (categories : List String)
    (isProcedure : Bool) : List Choice :=
  grid (List.range tokens.length) (outputs.findIdxs (·.isProcedure = isProcedure))
    (categories.findIdxs (Category.isOperator · = isProcedure))

variable {c d : Choice} {isProcedure : Bool}

theorem mem_findIdxs {α : Type} {list : List α} {p : α → Bool} {i : Nat} :
    i ∈ list.findIdxs p ↔ ∃ item ∈ list[i]?, p item := by
  rw [List.mem_findIdxs_iff_exists_getElem_pos]
  constructor
  · intro position
    obtain ⟨inList, holds⟩ := position
    exact ⟨list[i], List.getElem?_eq_getElem inList, holds⟩
  · intro position
    obtain ⟨item, found, holds⟩ := position
    obtain ⟨inList, rfl⟩ := List.getElem?_eq_some_iff.mp found
    exact ⟨inList, holds⟩

theorem mem_ofKind : c ∈ ofKind tokens outputs categories isProcedure ↔
    c.token < tokens.length ∧ (∃ output ∈ outputs[c.meaning]?, output.isProcedure = isProcedure) ∧
      ∃ category ∈ categories[c.category]?, Category.isOperator category = isProcedure := by
  simp only [ofKind, mem_grid, List.mem_range, mem_findIdxs, decide_eq_true_eq]

theorem isOperator_of_mem_ofKind (h : c ∈ ofKind tokens outputs categories isProcedure) :
    c.IsOperator categories ↔ isProcedure = true := by
  obtain ⟨-, -, category, chosen, rfl⟩ := mem_ofKind.mp h
  constructor
  · intro operator
    obtain ⟨other, chosen', isOperator⟩ := operator
    obtain rfl := Option.mem_unique chosen chosen'
    exact isOperator
  · intro isOperator
    exact ⟨category, chosen, isOperator⟩

theorem ofKind_sorted : (ofKind tokens outputs categories isProcedure).Pairwise
    (Precedes categories) := by
  refine (grid_sorted List.pairwise_lt_range List.pairwise_findIdxs
    List.pairwise_findIdxs).imp_of_mem fun first second before => .inr ⟨?_, before⟩
  rw [isOperator_of_mem_ofKind first, isOperator_of_mem_ofKind second]

theorem not_precedes_self (c : Choice) : ¬ c.Precedes categories c := by
  intro precedes
  have irreflexive : ¬ c.Before c := by simp [Before]
  cases precedes with
  | inl kinds => exact kinds.2 kinds.1
  | inr before => exact irreflexive before.2

def bothKinds (tokens : List String) (outputs : List Value) (categories : List String) :
    List Choice :=
  ofKind tokens outputs categories true ++ ofKind tokens outputs categories false

theorem mem_bothKinds : c ∈ bothKinds tokens outputs categories ↔
    c.token < tokens.length ∧ ∃ output ∈ outputs[c.meaning]?,
      ∃ category ∈ categories[c.category]?, output.isProcedure = Category.isOperator category := by
  rw [bothKinds, List.mem_append]
  constructor
  · intro member
    obtain ⟨isProcedure, ofThisKind⟩ :
        ∃ isProcedure, c ∈ ofKind tokens outputs categories isProcedure := by
      cases member with
      | inl operator => exact ⟨true, operator⟩
      | inr value => exact ⟨false, value⟩
    obtain ⟨inTokens, ⟨output, given, kind⟩, category, chosen, kind'⟩ := mem_ofKind.mp ofThisKind
    exact ⟨inTokens, output, given, category, chosen, kind.trans kind'.symm⟩
  · intro matched
    obtain ⟨inTokens, output, given, category, chosen, same⟩ := matched
    have member : c ∈ ofKind tokens outputs categories output.isProcedure :=
      mem_ofKind.mpr ⟨inTokens, ⟨output, given, rfl⟩, category, chosen, same.symm⟩
    cases kind : output.isProcedure with
    | true => exact .inl (kind ▸ member)
    | false => exact .inr (kind ▸ member)

theorem bothKinds_sorted :
    (bothKinds tokens outputs categories).Pairwise (Precedes categories) := by
  refine List.pairwise_append.mpr ⟨ofKind_sorted, ofKind_sorted, ?_⟩
  intro c first d second
  have operator : c.IsOperator categories := (isOperator_of_mem_ofKind first).mpr rfl
  have value : ¬ d.IsOperator categories := by
    rw [isOperator_of_mem_ofKind second]
    exact Bool.false_ne_true
  exact .inl ⟨operator, value⟩

theorem length_bothKinds : (bothKinds tokens outputs categories).length = tokens.length *
    (outputs.countP (·.isProcedure) * categories.countP Category.isOperator +
      outputs.countP (!·.isProcedure) * categories.countP (!Category.isOperator ·)) := by
  rw [bothKinds, List.length_append, ofKind, ofKind, length_grid, length_grid, List.length_range,
    Nat.mul_add]
  simp

end Choice

/-- The rules are those of the choices, one each and in their order. The choices are all those of
a meaning and a category of one kind; those of operator categories come first. -/
structure KindMatched (tokens : List String) (meanings outputs : List Value)
    (categories : List String) (choices : List Choice) (rules : List Rule) : Prop where
  made : List.Forall₂ (Choice.Makes tokens meanings categories) choices rules
  mem_iff : ∀ c, c ∈ choices ↔ c.token < tokens.length ∧ ∃ output ∈ outputs[c.meaning]?,
    ∃ category ∈ categories[c.category]?, output.isProcedure = Category.isOperator category
  distinct : choices.Nodup
  sorted : choices.Pairwise (Choice.Precedes categories)
  length : rules.length = tokens.length *
    (outputs.countP (·.isProcedure) * categories.countP Category.isOperator +
      outputs.countP (!·.isProcedure) * categories.countP (!Category.isOperator ·))

theorem kindMatched_synthesized (length : meanings.length = outputs.length)
    (tokens : List String) (categories : List String) :
    KindMatched tokens meanings outputs categories (Choice.bothKinds tokens outputs categories)
      (synthesized tokens meanings outputs categories) := by
  have made : List.Forall₂ (Choice.Makes tokens meanings categories)
      (Choice.bothKinds tokens outputs categories)
      (synthesized tokens meanings outputs categories) :=
    List.rel_append
      (made_product (at_range tokens) (at_meaningsOfKind length true) (at_findIdxs categories _))
      (made_product (at_range tokens) (at_meaningsOfKind length false) (at_findIdxs categories _))
  refine ⟨made, fun c => Choice.mem_bothKinds, ?_, Choice.bothKinds_sorted, ?_⟩
  · refine Choice.bothKinds_sorted.imp fun before same => ?_
    exact Choice.not_precedes_self _ (same ▸ before)
  · rw [← made.length_eq, Choice.length_bothKinds]

/-- Synthesis executes the meanings in their order. If one of them stops, synthesis stops with it,
and no later one is executed. Otherwise each of them has been executed once, and the rules are one
for each token, meaning and category, position by position, of which the meaning gave a procedure
just when the category is an operator category. -/
theorem synthesis_is_matched_product (executor : Executor σ) (tokens : List String)
    (meanings : List Value) (categories : List String) (state : σ) :
    (∃ outputs after, Executes executor state meanings outputs after ∧ ∃ choices rules,
      (synthesize executor tokens meanings categories).run.run state = (.ok rules, after) ∧
        KindMatched tokens meanings outputs categories choices rules) ∨
    ∃ stop after, StopsWith executor state meanings stop after ∧
      (synthesize executor tokens meanings categories).run.run state = (.error stop, after) := by
  rw [synthesize_eq, Action.run_map]
  obtain ⟨outputs, after, executes⟩ | ⟨stop, after, stops⟩ :=
    executes_or_stops executor meanings state
  · rw [executes.run_mapM]
    exact .inl ⟨outputs, after, executes, _, _, rfl,
      kindMatched_synthesized executes.length_eq tokens categories⟩
  · rw [stops.run_mapM]
    exact .inr ⟨stop, after, stops, rfl⟩

end SemanticParsing.Lexicon
