import Mathlib.Data.List.Basic
import SemanticParsing.Evaluator.Form
/-!
How actions run one after the other, what a walk over a list gives, and what an action keeps to,
whether it ends with a value or is stopped.
-/
namespace SemanticParsing

namespace Action

variable {σ α β γ : Type}

theorem run_pure (a : α) (state : σ) : (pure a : Action σ α).run.run state = (.ok a, state) := rfl

theorem run_bind (action : Action σ α) (next : α → Action σ β) (state : σ) :
    (action >>= next).run.run state =
      match action.run.run state with
      | (.ok a, later) => (next a).run.run later
      | (.error stop, later) => (.error stop, later) := by
  simp only [ExceptT.run_bind, StateT.run_bind]
  obtain ⟨_ | _, _⟩ := action.run.run state <;> rfl

theorem of_run_bind_ok {action : Action σ α} {next : α → Action σ β} {state after : σ} {b : β}
    (h : (action >>= next).run.run state = (.ok b, after)) :
    ∃ a later, action.run.run state = (.ok a, later) ∧
      (next a).run.run later = (.ok b, after) := by
  rw [run_bind] at h
  generalize action.run.run state = first at h ⊢
  obtain ⟨stop | a, later⟩ := first
  · cases h
  · exact ⟨a, later, rfl, h⟩

theorem of_run_bind_error {action : Action σ α} {next : α → Action σ β} {state after : σ}
    {stop : Stop} (h : (action >>= next).run.run state = (.error stop, after)) :
    action.run.run state = (.error stop, after) ∨ ∃ a later,
      action.run.run state = (.ok a, later) ∧ (next a).run.run later = (.error stop, after) := by
  rw [run_bind] at h
  generalize action.run.run state = first at h ⊢
  obtain ⟨stop | a, later⟩ := first
  · cases h
    exact .inl rfl
  · exact .inr ⟨a, later, rfl, h⟩

theorem run_map (f : α → β) (action : Action σ α) (state : σ) :
    (f <$> action).run.run state =
      ((action.run.run state).1.map f, (action.run.run state).2) := by
  rw [map_eq_pure_bind, run_bind]
  obtain ⟨_ | _, _⟩ := action.run.run state <;> rfl

theorem map_mapM (f : α → β) (each : γ → Action σ α) (items : List γ) :
    List.map f <$> items.mapM each = items.mapM fun item => f <$> each item := by
  induction items with
  | nil => simp
  | cons item items ih =>
    rw [List.mapM_cons, List.mapM_cons, ← ih]
    simp

theorem mem_of_mapM {each : γ → Action σ α} {items : List γ} {state after : σ} {as : List α}
    (h : (items.mapM each).run.run state = (.ok as, after)) :
    (∀ item ∈ items, ∃ a ∈ as, ∃ before later, (each item).run.run before = (.ok a, later)) ∧
      ∀ a ∈ as, ∃ item ∈ items, ∃ before later, (each item).run.run before = (.ok a, later) := by
  induction items generalizing state as with
  | nil =>
    rw [List.mapM_nil, run_pure] at h
    cases h
    simp
  | cons item items ih =>
    rw [List.mapM_cons] at h
    obtain ⟨a, later, first, h⟩ := of_run_bind_ok h
    obtain ⟨rest, last, others, h⟩ := of_run_bind_ok h
    rw [run_pure] at h
    cases h
    obtain ⟨onto, only⟩ := ih others
    have here : ∃ before later, (each item).run.run before = (.ok a, later) := ⟨state, later, first⟩
    constructor
    · rintro other (_ | ⟨_, member⟩)
      · exact ⟨a, List.mem_cons_self, here⟩
      · obtain ⟨b, inside, given⟩ := onto other member
        exact ⟨b, List.mem_cons_of_mem a inside, given⟩
    · rintro b (_ | ⟨_, member⟩)
      · exact ⟨item, List.mem_cons_self, here⟩
      · obtain ⟨other, inside, given⟩ := only b member
        exact ⟨other, List.mem_cons_of_mem item inside, given⟩

end Action

/-- An invariant of the state, a way in which the state may change, and the reasons for which an
action may stop. -/
structure Discipline (σ : Type) where
  Inv : σ → Prop
  Step : σ → σ → Prop
  Stops : Stop → Prop
  refl : ∀ state, Step state state
  trans : ∀ {first second third}, Step first second → Step second third → Step first third

variable {σ α β γ : Type} {d : Discipline σ} {state : σ}

/-- Run from the state, the action keeps to the discipline, and a value that it gives satisfies the
condition in the state that it leaves. -/
structure Action.Keeps (d : Discipline σ) (state : σ) (action : Action σ α)
    (post : σ → α → Prop) : Prop where
  inv : d.Inv (action.run.run state).2
  step : d.Step state (action.run.run state).2
  stops : ∀ stop, (action.run.run state).1 = .error stop → d.Stops stop
  post : ∀ a, (action.run.run state).1 = .ok a → post (action.run.run state).2 a

namespace Action

theorem keeps_of_run {action : Action σ α} {post : σ → α → Prop} {a : α} {after : σ}
    (h : action.run.run state = (.ok a, after)) (inv : d.Inv after) (step : d.Step state after)
    (holds : post after a) : Keeps d state action post := by
  constructor <;> rw [h]
  · exact inv
  · exact step
  · exact fun _ same => nomatch same
  · exact fun _ same => Except.ok.inj same ▸ holds

theorem keeps_of_stop {action : Action σ α} {post : σ → α → Prop} {stop : Stop}
    (h : action.run.run state = (.error stop, state)) (inv : d.Inv state) (stops : d.Stops stop) :
    Keeps d state action post := by
  constructor <;> rw [h]
  · exact inv
  · exact d.refl state
  · exact fun _ same => Except.error.inj same ▸ stops
  · exact fun _ same => nomatch same

theorem keeps_pure {a : α} {post : σ → α → Prop} (inv : d.Inv state) (h : post state a) :
    Keeps d state (pure a) post :=
  keeps_of_run (run_pure a state) inv (d.refl state) h

theorem keeps_throw {stop : Stop} {post : σ → α → Prop} (inv : d.Inv state) (h : d.Stops stop) :
    Keeps d state (throw stop) post :=
  keeps_of_stop rfl inv h

theorem Keeps.bind {action : Action σ α} {next : α → Action σ β} {middle : σ → α → Prop}
    {post : σ → β → Prop} (first : Keeps d state action middle)
    (second : ∀ later a, d.Inv later → d.Step state later → middle later a →
      Keeps d later (next a) post) : Keeps d state (action >>= next) post := by
  obtain ⟨inv, step, stops, gives⟩ := first
  constructor <;> rw [run_bind]
  all_goals
    generalize action.run.run state = result at inv step stops gives ⊢
    obtain ⟨stop | a, later⟩ := result
  · exact inv
  · exact (second later a inv step (gives a rfl)).inv
  · exact step
  · exact d.trans step (second later a inv step (gives a rfl)).step
  · exact fun _ same => Except.error.inj same ▸ stops stop rfl
  · exact (second later a inv step (gives a rfl)).stops
  · exact fun _ same => nomatch same
  · exact (second later a inv step (gives a rfl)).post

theorem Keeps.imp {action : Action σ α} {post weaker : σ → α → Prop}
    (h : Keeps d state action post)
    (implies : ∀ after a, d.Step state after → post after a → weaker after a) :
    Keeps d state action weaker where
  inv := h.inv
  step := h.step
  stops := h.stops
  post a gives := implies _ a h.step (h.post a gives)

/-- A walk whose items keep to the discipline in every later state, with a condition on their
results that lasts. -/
theorem keeps_mapM {each : γ → Action σ α} {post : σ → α → Prop} {items : List γ}
    (inv : d.Inv state)
    (lasts : ∀ first second a, d.Inv second → d.Step first second → post first a → post second a)
    (h : ∀ later, d.Inv later → d.Step state later →
      ∀ item ∈ items, Keeps d later (each item) post) :
    Keeps d state (items.mapM each) fun after as => ∀ a ∈ as, post after a := by
  induction items generalizing state with
  | nil => exact keeps_pure inv (by simp)
  | cons item items ih =>
    rw [List.mapM_cons]
    have once := h state inv (d.refl state) item List.mem_cons_self
    refine once.bind fun middle a inv step here => ?_
    have others : Keeps d middle (items.mapM each) fun after as => ∀ a ∈ as, post after a :=
      ih inv fun later inv' step' other member =>
        h later inv' (d.trans step step') other (List.mem_cons_of_mem item member)
    refine others.bind fun after as inv' step' rest => keeps_pure inv' ?_
    rintro b (_ | ⟨_, member⟩)
    · exact lasts middle after a inv' step' here
    · exact rest b member

theorem keeps_foldlM {each : γ → Action σ α} {first : α} {post : σ → α → Prop} {items : List γ}
    (inv : d.Inv state) (start : post state first)
    (h : ∀ later, d.Inv later → d.Step state later →
      ∀ item ∈ items, Keeps d later (each item) post) :
    Keeps d state (items.foldlM (fun _ item => each item) first) post := by
  induction items generalizing state first with
  | nil => exact keeps_pure inv start
  | cons item items ih =>
    rw [List.foldlM_cons]
    have once := h state inv (d.refl state) item List.mem_cons_self
    refine once.bind fun middle a inv step here => ?_
    exact ih inv here fun later inv' step' other member =>
      h later inv' (d.trans step step') other (List.mem_cons_of_mem item member)

end Action

end SemanticParsing
