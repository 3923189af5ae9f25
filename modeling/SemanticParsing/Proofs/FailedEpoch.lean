import SemanticParsing.Proofs.EpochRankings
import SemanticParsing.Proofs.RuleIndex
import SemanticParsing.Proofs.TwinModels
/-! An epoch that fails changes no weight and is the last one. So learning that fails leaves the
weights that the epochs before it make. -/
namespace SemanticParsing.Learner

variable {σ τ α : Type} [Scalar α] {learner : Learner σ α} {state : σ} {e : LearnError}

/-- The call is answered with the error, leaves the model as it was, and no later call does
anything. -/
structure Step.Failed (step : Step σ α) (before : Learner σ α) (e : LearnError) : Prop where
  answer : step.answer = some (.error e)
  model : step.learner.model = before.model
  later : ∀ n state, (step.learner.nexts n).run state =
    (List.replicate n ⟨step.learner, none, []⟩, state)

theorem next_of_finished (finished : learner.finished = true) :
    learner.next.run state = (⟨learner, none, []⟩, state) := by
  rw [next_eq, if_pos finished]

theorem nexts_of_finished (finished : learner.finished = true) (n : Nat) :
    (learner.nexts n).run state = (List.replicate n ⟨learner, none, []⟩, state) := by
  induction n with
  | zero => rfl
  | succ n ih =>
    rw [nexts_succ, next_of_finished finished]
    simp only [ih]
    rfl

theorem next_of_failure (unfinished : learner.finished = false)
    (fails : learner.failure? state = some e) :
    ∃ q after, learner.next.run state =
      (⟨{ learner.withProgress q with failed := true }, some (.error e),
        [.learningStopped learner.epoch e]⟩, after) := by
  obtain ⟨q, after, epoch⟩ := runEpoch_of_failure fails
  refine ⟨q, after, ?_⟩
  rw [next_eq, if_neg (by simp [unfinished]), epoch]
  rfl

theorem failed_of_failure (unfinished : learner.finished = false)
    (fails : learner.failure? state = some e) : (learner.next.run state).1.Failed learner e := by
  obtain ⟨q, after, step⟩ := next_of_failure unfinished fails
  rw [step]
  refine ⟨rfl, rfl, fun n state => nexts_of_finished ?_ n⟩
  simp [finished]

theorem exists_report_of_success (unfinished : learner.finished = false)
    (succeeds : learner.failure? state = none) :
    ∃ report, (learner.next.run state).1.answer = some (.ok report) := by
  obtain ⟨rankings, after, -, epoch⟩ := runEpoch_of_success succeeds
  rw [next_eq, if_neg (by simp [unfinished]), epoch]
  exact ⟨_, rfl⟩

theorem answer_error_iff (unfinished : learner.finished = false) :
    (learner.next.run state).1.answer = some (.error e) ↔ learner.failure? state = some e := by
  refine ⟨fun answer => ?_, fun fails => (failed_of_failure unfinished fails).answer⟩
  cases fails : learner.failure? state with
  | none =>
    obtain ⟨report, done⟩ := exists_report_of_success unfinished fails
    rw [done] at answer
    cases answer
  | some other =>
    rw [(failed_of_failure unfinished fails).answer] at answer
    cases answer
    rfl

theorem of_report {report : EpochReport}
    (done : (learner.next.run state).1.answer = some (.ok report)) :
    (learner.next.run state).1.learner.epoch = learner.epoch + 1 ∧
      (learner.next.run state).1.learner.failed = learner.failed := by
  cases finished : learner.finished with
  | true =>
    rw [next_of_finished finished] at done
    cases done
  | false =>
    cases fails : learner.failure? state with
    | some e =>
      rw [(failed_of_failure finished fails).answer] at done
      cases done
    | none =>
      obtain ⟨rankings, after, -, epoch⟩ := runEpoch_of_success fails
      rw [next_eq, if_neg (by simp [finished]), epoch]
      exact ⟨rfl, rfl⟩

theorem error_of_map {f : List EpochReport → List EpochReport}
    {outcome : Except LearnError (List EpochReport)} (h : outcome.map f = .error e) :
    outcome = .error e := by
  cases outcome with
  | ok => cases h
  | error => exact h

/-- What is left of learning that fails: the reports of the epochs before, and the weights that
learning on any twin leaves that is to run just these epochs. -/
theorem runFor_of_error {n : Nat}
    (left : learner.config.epochs = learner.epoch + n) (going : learner.failed = false)
    (outcome : ((runFor n learner).run state).1.outcome = .error e) :
    ∃ reports : List EpochReport,
      ((learner.nexts (reports.length + 1)).run state).1.map Step.answer =
        reports.map (some ∘ .ok) ++ [some (.error e)] ∧
      ∀ (sentences : List String) (R : σ → τ → Prop) (other : Learner τ α) (state' : τ),
        learner.Twins sentences R Eq other → R state state' →
        other.config.epochs = other.epoch + reports.length →
          ((runFor reports.length other).run state').1.outcome = .ok reports ∧
          ((runFor reports.length other).run state').1.learner.model.weights =
            ((runFor n learner).run state).1.learner.model.weights := by
  induction n generalizing learner state with
  | zero => cases outcome
  | succ n ih =>
    have unfinished : learner.finished = false := by simp [finished, going, left]
    rw [runFor_succ] at outcome
    rw [runFor_succ n]
    cases fails : learner.failure? state with
    | some e' =>
      have failed := failed_of_failure unfinished fails
      rw [failed.answer] at outcome ⊢
      cases outcome
      refine ⟨[], ?_, fun _ _ other state' twins _ _ => ⟨rfl, ?_⟩⟩
      · exact congrArg (· :: []) failed.answer
      · exact twins.model.weights.symm.trans (congrArg Model.weights failed.model).symm
    | none =>
      obtain ⟨report, done⟩ := exists_report_of_success unfinished fails
      obtain ⟨epoch, stillGoing⟩ := of_report done
      rw [done] at outcome ⊢
      have outcome' : ((runFor n (learner.next.run state).1.learner).run
          (learner.next.run state).2).1.outcome = .error e := error_of_map outcome
      obtain ⟨reports, answers, twin⟩ := ih (by rw [config_next, epoch, left]; omega)
        (stillGoing.trans going) outcome'
      refine ⟨report :: reports, ?_, fun _ R other state' twins related left' => ?_⟩
      · rw [List.length_cons, nexts_succ]
        simp only [Prod.map_fst, List.map_cons, done, answers]
        rfl
      · have unfinished' : other.finished = false := by
          simp [finished, twins.failed, going, left']
        obtain ⟨sameAnswer, twins', related'⟩ :=
          twins.next (unfinished'.trans unfinished.symm) related
        have done' := sameAnswer.symm.trans done
        obtain ⟨epoch', -⟩ := of_report done'
        obtain ⟨outcome, weights⟩ := twin _ R _ _ twins' related' (by
          rw [config_next, epoch', left', List.length_cons]
          omega)
        rw [List.length_cons, runFor_succ, done']
        exact ⟨congrArg (Except.map (report :: ·)) outcome, weights⟩

/-- A call for an epoch is answered with an error just when nothing makes the outputs to be compared
or an example cannot be ranked. It then leaves the model as it was at the start of the epoch, and
later calls do nothing. So learning that fails leaves the weights that the epochs before make: those
of learning that is to run just these epochs, on any model that acts alike. -/
theorem failed_epoch_is_undone (model : Model σ α) (examples : List Example)
    (config : LearningConfig α) (state : σ) :
    (∀ (learner : Learner σ α) (now : σ) (e : LearnError), learner.finished = false →
      ((learner.next.run now).1.answer = some (.error e) ↔ learner.failure? now = some e) ∧
        (learner.failure? now = some e → (learner.next.run now).1.Failed learner e)) ∧
    ∀ e : LearnError, ((start model examples config).runAll.run state).1.outcome = .error e →
      ∃ reports : List EpochReport,
        (((start model examples config).nexts (reports.length + 1)).run state).1.map Step.answer =
          reports.map (some ∘ .ok) ++ [some (.error e)] ∧
        ∀ (R : σ → τ → Prop) (other : Model τ α) (state' : τ),
          model.ActsLike R other → other.weights = model.weights → R state state' →
            let limited := (start other examples { config with epochs := reports.length }).runAll
            (limited.run state').1.outcome = .ok reports ∧
              (limited.run state').1.learner.model.weights =
                ((start model examples config).runAll.run state).1.learner.model.weights := by
  constructor
  · intro learner now e unfinished
    exact ⟨answer_error_iff unfinished, failed_of_failure unfinished⟩
  · intro e outcome
    obtain ⟨reports, answers, twin⟩ := runFor_of_error (by simp [start]) rfl outcome
    refine ⟨reports, answers, fun R other state' acts weights related => ?_⟩
    have twins : model.Twins (examples.map Example.input) R Eq other := acts.twins weights
    refine twin _ R _ state' (twins_start twins ?_ config _) related (by simp [start])
    exact fun e member => List.mem_map_of_mem member

def twice : Executor Nat := fun v => do
  let count ← get
  set (count + 1)
  if count = 2 then throw (.error .divisionByZero) else return v

def exhausted : Model Nat Float where
  grammar := Grammar.ambiguous
  features := Feature.rules
  executor := some twice

def exhaustedExamples : List Example := [{ input := "x", meaning := some (.int 2) }]

def exhaustedLearner : Learner Nat Float :=
  start exhausted exhaustedExamples LearningConfig.standard

theorem exhausted_actsLike : exhausted.ActsLike Eq exhausted where
  grammar := rfl
  hasExecutor := rfl
  features _ _ same _ := by rw [same]
  execute s _ same v := by
    subst same
    exact .intro _ rfl

theorem exhausted_epoch_is_undone :
    let e : LearnError := .stopped (.error .divisionByZero)
    exhaustedLearner.finished = false ∧ exhaustedLearner.failure? 2 = some e ∧
      (exhaustedLearner.next.run 2).1.Failed exhaustedLearner e ∧
      (exhaustedLearner.runAll.run 0).1.outcome = .error e ∧ exhausted.ActsLike Eq exhausted ∧
      ∃ reports : List EpochReport,
        ((exhaustedLearner.nexts (reports.length + 1)).run 0).1.map Step.answer =
          reports.map (some ∘ .ok) ++ [some (.error e)] ∧
        let limited := (start exhausted exhaustedExamples
          { LearningConfig.standard with epochs := reports.length }).runAll
        (limited.run 0).1.outcome = .ok reports ∧
          (limited.run 0).1.learner.model.weights =
            (exhaustedLearner.runAll.run 0).1.learner.model.weights := by
  intro e
  have unfinished : exhaustedLearner.finished = false := by decide +kernel
  have fails : exhaustedLearner.failure? 2 = some e := by decide +kernel
  have outcome : (exhaustedLearner.runAll.run 0).1.outcome = .error e := by decide +kernel
  unfold exhaustedLearner at *
  obtain ⟨now, all⟩ := failed_epoch_is_undone (τ := Nat) exhausted exhaustedExamples
    LearningConfig.standard 0
  obtain ⟨reports, answers, same⟩ := all e outcome
  exact ⟨unfinished, fails, (now _ 2 e unfinished).2 fails, outcome, exhausted_actsLike,
    reports, answers, same Eq exhausted 0 exhausted_actsLike rfl rfl⟩

end SemanticParsing.Learner
