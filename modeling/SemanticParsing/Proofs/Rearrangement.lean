import Mathlib.Data.List.Perm.Basic
import SemanticParsing.Model
import SemanticParsing.Proofs.Action
import SemanticParsing.Random
/-!
Shuffling and sorting only rearrange. A ranking that is not stopped has a parse of every derivation,
and nothing else.
-/
namespace SemanticParsing

namespace Random.Generator

theorem swapIfInBounds_perm {α : Type} (xs : Array α) (i j : Nat) :
    (xs.swapIfInBounds i j).Perm xs := by
  rw [Array.swapIfInBounds_def]
  split
  · split
    · exact Array.swap_perm _ _
    · exact .refl xs
  · exact .refl xs

theorem shuffleFrom_perm {α : Type} (i : Nat) (xs : Array α) (g : Generator) :
    (shuffleFrom i xs g).1.Perm xs := by
  induction i generalizing xs g with
  | zero => exact .refl xs
  | succ i ih => exact (ih _ _).trans (swapIfInBounds_perm _ _ _)

theorem permutation_perm (g : Generator) (n : Nat) :
    (g.permutation n).1.Perm (List.range n) := by
  have shuffled := Array.perm_iff_toList_perm.mp (shuffleFrom_perm (n - 1) (Array.range n) g)
  simpa [permutation] using shuffled

end Random.Generator

namespace Ranking

variable {α : Type}

theorem insertFromEnd_perm (before : α → α → Bool) (x : α) (ys : List α) :
    (insertFromEnd before x ys).Perm (x :: ys) := by
  induction ys with
  | nil => exact .refl _
  | cons y ys ih =>
    rw [insertFromEnd]
    split
    · exact (ih.cons y).trans (.swap x y ys)
    · exact .refl _

theorem sort_perm (before : α → α → Bool) (xs : List α) : (sort before xs).Perm xs := by
  have inserted (sorted : List α) :
      (xs.foldl (fun sorted x => insertFromEnd before x sorted) sorted).Perm (xs ++ sorted) := by
    induction xs generalizing sorted with
    | nil => exact .refl _
    | cons x xs ih =>
      refine (ih _).trans ?_
      exact ((insertFromEnd_perm before x sorted).append_left xs).trans List.perm_middle
  rw [sort]
  exact (List.reverse_perm _).trans (by simpa using inserted [])

variable {β : Type} {R : α → β → Prop} {before : α → α → Bool} {before' : β → β → Bool}

theorem insertFromEnd_related {x : α} {y : β} {xs : List α} {ys : List β}
    (agree : ∀ x y x' y', R x y → R x' y' → before x x' = before' y y') (first : R x y)
    (h : List.Forall₂ R xs ys) :
    List.Forall₂ R (insertFromEnd before x xs) (insertFromEnd before' y ys) := by
  induction h with
  | nil => exact .cons first .nil
  | cons here rest ih =>
    rw [insertFromEnd, insertFromEnd, agree _ _ _ _ first here]
    split
    · exact .cons here ih
    · exact .cons first (.cons here rest)

theorem sort_related {xs : List α} {ys : List β}
    (agree : ∀ x y x' y', R x y → R x' y' → before x x' = before' y y')
    (h : List.Forall₂ R xs ys) : List.Forall₂ R (sort before xs) (sort before' ys) := by
  have inserted (sorted : List α) (sorted' : List β) (start : List.Forall₂ R sorted sorted') :
      List.Forall₂ R (xs.foldl (fun sorted x => insertFromEnd before x sorted) sorted)
        (ys.foldl (fun sorted y => insertFromEnd before' y sorted) sorted') := by
    induction h generalizing sorted sorted' with
    | nil => exact start
    | cons here _ ih => exact ih _ _ (insertFromEnd_related agree here start)
  rw [sort, sort, List.forall₂_reverse_iff]
  exact inserted [] [] .nil

end Ranking

namespace Model

variable {σ α : Type}

/-- The parse has the derivation, and the features that the derivation has in some state. -/
structure Scores (model : Model σ α) (d : Derivation) (parse : Parse α) : Prop where
  derivation : parse.derivation = d
  features : ∃ state, parse.features = model.features state d

variable [Scalar α] {model : Model σ α} {state after : σ}

theorem scores_of_scored {d : Derivation} {parse : Parse α}
    (h : (model.scored d).run.run state = (.ok parse, after)) : model.Scores d parse := by
  have read : (get : Action σ σ).run.run state = (.ok state, state) := rfl
  rw [scored, Action.run_bind, read] at h
  obtain ⟨output, later, -, h⟩ := Action.of_run_bind_ok h
  rw [Action.run_pure] at h
  cases h
  exact ⟨rfl, state, rfl⟩

theorem scores_of_rank {sentence : String} {parses : List (Parse α)}
    (h : (model.rank sentence).run.run state = (.ok parses, after)) :
    (∀ d ∈ model.grammar.parse sentence, ∃ parse ∈ parses, model.Scores d parse) ∧
      ∀ parse ∈ parses, ∃ d ∈ model.grammar.parse sentence, model.Scores d parse := by
  obtain ⟨found, later, scored, h⟩ := Action.of_run_bind_ok h
  rw [Action.run_pure] at h
  cases h
  obtain ⟨onto, only⟩ := Action.mem_of_mapM scored
  have same {parse : Parse α} : parse ∈ Ranking.sort Parse.beats found ↔ parse ∈ found :=
    (Ranking.sort_perm _ _).mem_iff
  constructor
  · intro d member
    obtain ⟨parse, inside, _, _, given⟩ := onto d member
    exact ⟨parse, same.mpr inside, scores_of_scored given⟩
  · intro parse member
    obtain ⟨d, inside, _, _, given⟩ := only parse (same.mp member)
    exact ⟨d, inside, scores_of_scored given⟩

end Model

end SemanticParsing
