import SemanticParsing.Proofs.DoubleOrder
import SemanticParsing.Proofs.MirrorRun
import SemanticParsing.Proofs.Rearrangement
import SemanticParsing.Proofs.RuleIndex
/-! A ranking is the parses in the order of the parser, sorted stably from the highest score
down. -/
namespace SemanticParsing

namespace Ranking

variable {α κ : Type} [LinearOrder κ] {before : α → α → Bool} {key : α → κ} {x : α}
  {xs ys : List α}

theorem sort_concat (before : α → α → Bool) (xs : List α) (x : α) :
    sort before (xs ++ [x]) = (insertFromEnd before x (sort before xs).reverse).reverse := by
  simp [sort, List.foldl_append]

theorem insertFromEnd_ascending (byKey : ∀ y ∈ ys, before x y = true ↔ key y < key x)
    (ascending : ys.Pairwise fun y z => key y ≤ key z) :
    (insertFromEnd before x ys).Pairwise fun y z => key y ≤ key z := by
  induction ys with
  | nil => simp [insertFromEnd]
  | cons y ys ih =>
    rw [List.forall_mem_cons] at byKey
    obtain ⟨least, rest⟩ := List.pairwise_cons.mp ascending
    rw [insertFromEnd]
    split
    case isTrue passes =>
      refine List.pairwise_cons.mpr ⟨fun z member => ?_, ih byKey.2 rest⟩
      obtain rfl | member := List.mem_cons.mp ((insertFromEnd_perm before x ys).mem_iff.mp member)
      · exact (byKey.1.mp passes).le
      · exact least z member
    case isFalse stays =>
      have here : key x ≤ key y := not_lt.mp fun less => stays (byKey.1.mpr less)
      refine List.pairwise_cons.mpr ⟨fun z member => ?_, ascending⟩
      obtain rfl | member := List.mem_cons.mp member
      · exact here
      · exact here.trans (least z member)

theorem sort_descending (byKey : ∀ x ∈ xs, ∀ y ∈ xs, before x y = true ↔ key y < key x) :
    (sort before xs).Pairwise fun x y => key y ≤ key x := by
  induction xs using List.reverseRecOn with
  | nil => simp [sort]
  | append_singleton xs x ih =>
    have old : ∀ y ∈ xs, y ∈ xs ++ [x] := fun y => List.mem_append_left _
    have last : x ∈ xs ++ [x] := by simp
    rw [sort_concat, List.pairwise_reverse]
    refine insertFromEnd_ascending (fun y member => byKey x last y (old y ?_)) ?_
    · exact (sort_perm before xs).mem_iff.mp (List.mem_reverse.mp member)
    · exact List.pairwise_reverse.mpr (ih fun y hy z hz => byKey y (old y hy) z (old z hz))

end Ranking

variable {σ α : Type}

/-- The meanings of the derivations are executed one by one in their order, each in the state that
the one before it left, up to the first that stops. Each derivation with its output, its features
and their score makes a parse. -/
inductive Model.Executes [Scalar α] (model : Model σ α) :
    σ → List Derivation → Except Stop (List (Parse α)) → σ → Prop
  | done (state : σ) : Executes model state [] (.ok []) state
  | stopped {state after : σ} {d : Derivation} {rest : List Derivation} {stop : Stop}
      (stops : (model.execute d.meaning).run.run state = (.error stop, after)) :
      Executes model state (d :: rest) (.error stop) after
  | stoppedLater {state later after : σ} {d : Derivation} {rest : List Derivation}
      {output : Option Value} {stop : Stop}
      (first : (model.execute d.meaning).run.run state = (.ok output, later))
      (others : Executes model later rest (.error stop) after) :
      Executes model state (d :: rest) (.error stop) after
  | executed {state later after : σ} {d : Derivation} {rest : List Derivation}
      {output : Option Value} {parses : List (Parse α)}
      (first : (model.execute d.meaning).run.run state = (.ok output, later))
      (others : Executes model later rest (.ok parses) after) :
      Executes model state (d :: rest)
        (.ok (⟨d, output, (model.features state d).dot model.weights,
          model.features state d⟩ :: parses)) after

theorem Model.run_scored [Scalar α] (model : Model σ α) (d : Derivation) (state : σ) :
    (model.scored d).run.run state =
      (((model.execute d.meaning).run.run state).1.map fun output =>
        ⟨d, output, (model.features state d).dot model.weights, model.features state d⟩,
        ((model.execute d.meaning).run.run state).2) := by
  let features := model.features state d
  change (model.execute d.meaning >>= fun output =>
    pure (⟨d, output, features.dot model.weights, features⟩ : Parse α)).run.run state = _
  rw [Action.run_bind]
  obtain ⟨_ | _, _⟩ := (model.execute d.meaning).run.run state <;> rfl

namespace Model.Executes

variable [Scalar α] {model : Model σ α} {state after : σ} {ds : List Derivation}
  {found : Except Stop (List (Parse α))}

theorem run_mapM (h : model.Executes state ds found after) :
    (ds.mapM model.scored).run.run state = (found, after) := by
  induction h with
  | done => rfl
  | stopped stops => rw [List.mapM_cons, Action.run_bind, run_scored, stops]; rfl
  | stoppedLater first _ ih =>
    rw [List.mapM_cons, Action.run_bind, run_scored, first]
    change ((List.mapM model.scored _ >>= _).run.run _) = _
    rw [Action.run_bind, ih]
  | executed first _ ih =>
    rw [List.mapM_cons, Action.run_bind, run_scored, first]
    change ((List.mapM model.scored _ >>= _).run.run _) = _
    rw [Action.run_bind, ih]
    rfl

theorem exists_found (model : Model σ α) (ds : List Derivation) (state : σ) :
    ∃ found after, model.Executes state ds found after := by
  induction ds generalizing state with
  | nil => exact ⟨_, _, .done state⟩
  | cons d rest ih =>
    match first : (model.execute d.meaning).run.run state with
    | (.error stop, after) => exact ⟨_, _, .stopped first⟩
    | (.ok output, later) =>
      obtain ⟨_ | parses, after, others⟩ := ih later
      · exact ⟨_, _, .stoppedLater first others⟩
      · exact ⟨_, _, .executed first others⟩

theorem without_executor (none : model.executor = none)
    (h : model.Executes state ds found after) :
    after = state ∧ ∃ parses, found = .ok parses ∧ ∀ parse ∈ parses, parse.output = .none := by
  have executes (v : Value) (state : σ) :
      (model.execute v).run.run state = (.ok .none, state) := by
    rw [execute, none]
    rfl
  induction h with
  | done => exact ⟨rfl, [], rfl, by simp⟩
  | stopped stops => rw [executes] at stops; cases stops
  | stoppedLater first _ ih =>
    obtain ⟨-, parses, ended, -⟩ := ih
    cases ended
  | executed first _ ih =>
    rw [executes] at first
    cases first
    obtain ⟨same, parses, ended, outputs⟩ := ih
    cases ended
    exact ⟨same, _, rfl, List.forall_mem_cons.mpr ⟨rfl, outputs⟩⟩

end Model.Executes

/-- The parses of these derivations, from the highest score down; parses with equal scores are in
the order of the derivations. -/
structure Parse.Ranked (ds : List Derivation) (inOrder ranked : List (Parse Float)) : Prop where
  derivations : inOrder.map Parse.derivation = ds
  perm : ranked.Perm inOrder
  descending : (∀ parse ∈ inOrder, parse.score.isNaN = false) →
    ranked.Pairwise fun p q => q.score ≤ p.score
  stable : (∀ parse ∈ inOrder, parse.score.isNaN = false) →
    ∀ score : Float, ranked.filter (·.score == score) = inOrder.filter (·.score == score)

end SemanticParsing
