import SemanticParsing.Proofs.BatchStep
import SemanticParsing.Proofs.ContestedExamples
import SemanticParsing.Proofs.DoubleOrder
import SemanticParsing.Proofs.FailedEpoch
/-! A learner is asked for one epoch after the other. It answers with reports of the epochs in turn,
until all are done or one fails, and from then on it does nothing. -/
namespace SemanticParsing

variable {σ α : Type}

namespace Learner

/-- The examples that have a matching parse, if those of the next epoch are ranked like this. -/
def matched (learner : Learner σ α) (rankings : List (List (Parse α))) : Nat :=
  (learner.visited.zip rankings).countP fun (e, parses) =>
    parses.any (learner.config.metric.accepts · e)

theorem matched_le (learner : Learner σ α) (rankings : List (List (Parse α))) :
    learner.matched rankings ≤ learner.examples.size := by
  have visited : learner.visited.length = learner.examples.size := by
    simpa using learner.visited_perm.length_eq
  rw [matched, ← visited]
  refine Nat.le_trans List.countP_le_length ?_
  rw [List.length_zip]
  exact Nat.min_le_left _ _

variable [Scalar α] {learner : Learner σ α} {state : σ}

/-- The learner after so many calls for the next epoch. Each call finds a state of its own, as the
session may change its state between calls. -/
def after (learner : Learner σ α) (states : Nat → σ) : Nat → Learner σ α
  | 0 => learner
  | n + 1 => ((learner.after states n).next.run (states n)).1.learner

def call (learner : Learner σ α) (states : Nat → σ) (n : Nat) : Step σ α :=
  ((learner.after states n).next.run (states n)).1

theorem after_succ_eq (learner : Learner σ α) (states : Nat → σ) (n : Nat) :
    learner.after states (n + 1) =
      (learner.call states 0).learner.after (fun i => states (i + 1)) n := by
  induction n with
  | zero => rfl
  | succ n ih => rw [after, ih]; rfl

theorem call_succ_eq (learner : Learner σ α) (states : Nat → σ) (n : Nat) :
    learner.call states (n + 1) =
      (learner.call states 0).learner.call (fun i => states (i + 1)) n := by
  rw [call, after_succ_eq]
  rfl

namespace Step

/-- The call gives the report. The session is told of it, and after the last epoch also of the
weights. -/
structure Reports (step : Step σ α) (epochs : Nat) (report : EpochReport) : Prop where
  answer : step.answer = some (.ok report)
  events : step.events = .epochDone report ::
    if report.epoch + 1 = epochs then [.learned step.learner.model.sortedWeights] else []

structure Stops (step : Step σ α) (epoch : Nat) (e : LearnError) : Prop where
  answer : step.answer = some (.error e)
  events : step.events = [.learningStopped epoch e]

structure Idles (step : Step σ α) : Prop where
  answer : step.answer = none
  events : step.events = []

end Step

/-- The reports of so many epochs, from the next one on. -/
def ReportsFor (learner : Learner σ α) (states : Nat → σ) (n : Nat) : Prop :=
  ∀ i < n, ∃ report, (learner.call states i).Reports learner.config.epochs report ∧
    report.epoch = learner.epoch + i

/-- What a call for the next epoch can come to. -/
inductive Takes (learner : Learner σ α) (state : σ) : Step σ α → Prop
  | idle (finished : learner.finished = true) : Takes learner state ⟨learner, none, []⟩
  | stop (unfinished : learner.finished = false) (p : Learning.Progress α) (e : LearnError) :
      Takes learner state ⟨{ learner.withProgress p with failed := true }, some (.error e),
        [.learningStopped learner.epoch e]⟩
  | report (unfinished : learner.finished = false) {rankings : List (List (Parse α))}
      (ranked : (learner.rankings.run.run state).1 = .ok rankings) :
      Takes learner state (.ofEpoch (learner.conclude (learner.progress rankings, none)))

theorem takes_next (learner : Learner σ α) (state : σ) :
    learner.Takes state (learner.next.run state).1 := by
  cases finished : learner.finished with
  | true =>
    rw [next_of_finished finished]
    exact .idle finished
  | false =>
    cases fails : learner.failure? state with
    | some e =>
      obtain ⟨p, last, next⟩ := next_of_failure finished fails
      rw [next]
      exact .stop finished p e
    | none =>
      obtain ⟨report, done⟩ := exists_report_of_success finished fails
      obtain ⟨rankings, last, ranked, next⟩ := next_of_done done
      rw [next]
      exact .report finished (congrArg Prod.fst ranked)

theorem after_of_finished (finished : learner.finished = true) (states : Nat → σ) (n : Nat) :
    learner.after states n = learner := by
  induction n with
  | zero => rfl
  | succ n ih => rw [after, ih, next_of_finished finished]

theorem idles_of_finished (finished : learner.finished = true) (states : Nat → σ) (n : Nat) :
    (learner.call states n).Idles := by
  rw [call, after_of_finished finished, next_of_finished finished]
  exact ⟨rfl, rfl⟩

/-- A call before the end either fails for good or leads to the next epoch. -/
theorem next_cases (unfinished : learner.finished = false) (state : σ) :
    let step := (learner.next.run state).1
    (∃ e, step.Stops learner.epoch e ∧ step.learner.epoch = learner.epoch ∧
        step.learner.failed = true) ∨
      ∃ report, step.Reports learner.config.epochs report ∧ report.epoch = learner.epoch ∧
        step.learner.epoch = learner.epoch + 1 ∧ step.learner.failed = learner.failed := by
  have takes := learner.takes_next state
  generalize (learner.next.run state).1 = step at takes
  cases takes with
  | idle finished => cases finished.symm.trans unfinished
  | stop _ p e => exact .inl ⟨e, ⟨rfl, rfl⟩, rfl, rfl⟩
  | report _ ranked => exact .inr ⟨_, ⟨rfl, rfl⟩, rfl, rfl, rfl⟩

theorem config_after (learner : Learner σ α) (states : Nat → σ) (n : Nat) :
    (learner.after states n).config = learner.config := by
  induction n with
  | zero => rfl
  | succ n ih => rw [after, config_next, ih]

theorem examples_next (learner : Learner σ α) (state : σ) :
    (learner.next.run state).1.learner.examples = learner.examples := by
  have takes := learner.takes_next state
  generalize (learner.next.run state).1 = step at takes
  cases takes <;> rfl

theorem examples_after (learner : Learner σ α) (states : Nat → σ) (n : Nat) :
    (learner.after states n).examples = learner.examples := by
  induction n with
  | zero => rfl
  | succ n ih => rw [after, examples_next, ih]

theorem ReportsFor.cons {states : Nat → σ} {n : Nat} {report : EpochReport}
    (first : (learner.call states 0).Reports learner.config.epochs report)
    (epoch : report.epoch = learner.epoch)
    (next : (learner.call states 0).learner.epoch = learner.epoch + 1)
    (rest : (learner.call states 0).learner.ReportsFor (fun i => states (i + 1)) n) :
    learner.ReportsFor states (n + 1) := by
  rintro (_ | i) inside
  · exact ⟨report, first, epoch⟩
  · obtain ⟨later, reports, number⟩ := rest i (Nat.lt_of_succ_lt_succ inside)
    have config : (learner.call states 0).learner.config = learner.config :=
      learner.config_after states 1
    rw [config] at reports
    exact ⟨later, by rwa [call_succ_eq], by omega⟩

/-- The answers of a learner that is going: reports of all epochs that are left and then nothing, or
fewer reports, one error and then nothing. -/
theorem answers_of_going {left : Nat} (remaining : learner.epoch + left = learner.config.epochs)
    (going : learner.failed = false) (states : Nat → σ) :
    (learner.ReportsFor states left ∧ ∀ i, left ≤ i → (learner.call states i).Idles) ∨
      ∃ k < left, ∃ e, learner.ReportsFor states k ∧
        (learner.call states k).Stops (learner.epoch + k) e ∧
        ∀ i, k < i → (learner.call states i).Idles := by
  induction left generalizing learner states with
  | zero =>
    have finished : learner.finished = true := by simp [finished, ← remaining]
    exact .inl ⟨fun i inside => absurd inside (Nat.not_lt_zero i),
      fun i _ => idles_of_finished finished states i⟩
  | succ left ih =>
    have unfinished : learner.finished = false := by simp [finished, going, ← remaining]
    obtain ⟨e, stops, -, failed⟩ | ⟨report, reports, epoch, next, same⟩ :=
      next_cases unfinished (states 0)
    · refine .inr ⟨0, Nat.succ_pos left, e, fun i inside => absurd inside (Nat.not_lt_zero i),
        stops, ?_⟩
      rintro (_ | i) later
      · cases later
      · rw [call_succ_eq]
        exact idles_of_finished (by simp [finished, call, after, failed]) _ i
    · have config : (learner.call states 0).learner.config = learner.config :=
        learner.config_after states 1
      have number : (learner.call states 0).learner.epoch = learner.epoch + 1 := next
      have goesOn : (learner.call states 0).learner.failed = false := same.trans going
      have left' : (learner.call states 0).learner.epoch + left =
          (learner.call states 0).learner.config.epochs := by
        rw [config, number, ← remaining]
        omega
      obtain ⟨all, idle⟩ | ⟨k, early, e, some, stops, idle⟩ :=
        ih left' goesOn fun i => states (i + 1)
      · refine .inl ⟨.cons reports epoch next all, ?_⟩
        rintro (_ | i) later
        · cases later
        · rw [call_succ_eq]
          exact idle i (Nat.le_of_succ_le_succ later)
      · refine .inr ⟨k + 1, Nat.succ_lt_succ early, e, .cons reports epoch next some, ?_, ?_⟩
        · rw [number, Nat.add_assoc, Nat.add_comm 1 k] at stops
          rwa [call_succ_eq]
        · rintro (_ | i) later
          · cases later
          · rw [call_succ_eq]
            exact idle i (Nat.lt_of_succ_lt_succ later)

theorem report_of_done {report : EpochReport}
    (done : (learner.next.run state).1.answer = some (.ok report)) :
    ∃ rankings, (learner.rankings.run.run state).1 = .ok rankings ∧
      report.correct = (learner.progress rankings).correct ∧
      report.updates = Learning.contests learner.config.metric (learner.visited.zip rankings) := by
  obtain ⟨rankings, last, ranked, next⟩ := next_of_done done
  rw [next] at done
  cases done
  refine ⟨rankings, congrArg Prod.fst ranked, rfl, ?_⟩
  exact (Learning.length_pending_visitEach _ _).trans (Nat.zero_add _)

theorem contests_le_matched (learner : Learner σ α) (rankings : List (List (Parse α))) :
    Learning.contests learner.config.metric (learner.visited.zip rankings) ≤
      learner.matched rankings := by
  refine List.countP_mono_left fun (e, parses) _ contested => ?_
  refine Decoding.isSome_targetOf.symm.trans ?_
  exact (Bool.and_eq_true_iff.mp contested).1

theorem contests_eq_matched {learner : Learner σ Float} {rankings : List (List (Parse Float))}
    (numbers : ∀ parses ∈ rankings, ∀ parse ∈ parses, parse.score.isNaN = false) :
    Learning.contests learner.config.metric (learner.visited.zip rankings) =
      learner.matched rankings := by
  refine List.countP_congr fun (e, parses) member => ?_
  simp only [Learning.contested, Decoding.isSome_targetOf, Bool.and_eq_true, Bool.not_eq_true',
    and_iff_left_iff_imp]
  intro accepted
  obtain ⟨parse, inside, accepts⟩ := List.any_eq_true.mp accepted
  have number := numbers parses (List.of_mem_zip member).2 parse inside
  have competitors : Decoding.competitorsOf parses e learner.config.metric ≠ [] := by
    refine Decoding.competitorsOf_ne_nil_iff.mpr ⟨parse, inside, ?_⟩
    rw [accepts]
    exact decide_eq_true (Decimal.le_refl number)
  simpa using competitors

def withEpochs (learner : Learner σ α) (epochs : Nat) : Learner σ α :=
  { learner with config := { learner.config with epochs } }

theorem runEpoch_withEpochs (learner : Learner σ α) (epochs : Nat) (state : σ) :
    (learner.withEpochs epochs).runEpoch.run state =
      Prod.map (Prod.map (·.withEpochs epochs) id) id (learner.runEpoch.run state) := by
  have lacks : (learner.withEpochs epochs).lacksExecutor = learner.lacksExecutor := rfl
  have visits : (learner.withEpochs epochs).visits = learner.visits := rfl
  rw [runEpoch_eq, runEpoch_eq, lacks, visits]
  split
  · rfl
  · obtain ⟨⟨p, _ | stop⟩, last⟩ := learner.visits.run state <;> rfl

theorem next_withEpochs {epochs : Nat} (below : learner.epoch < learner.config.epochs)
    (below' : learner.epoch < epochs) (state : σ) :
    ((learner.withEpochs epochs).next.run state).1.learner =
        (learner.next.run state).1.learner.withEpochs epochs ∧
      ((learner.withEpochs epochs).next.run state).1.answer = (learner.next.run state).1.answer ∧
      ((learner.withEpochs epochs).next.run state).2 = (learner.next.run state).2 := by
  have finished : (learner.withEpochs epochs).finished = learner.finished := by
    simp only [finished, withEpochs, Nat.not_le.mpr below, Nat.not_le.mpr below']
  rw [next_eq, next_eq, finished, runEpoch_withEpochs]
  split
  · exact ⟨rfl, rfl, rfl⟩
  · obtain ⟨⟨later, _ | report⟩, last⟩ := learner.runEpoch.run state <;> exact ⟨rfl, rfl, rfl⟩

theorem epoch_next_le (learner : Learner σ α) (state : σ) :
    (learner.next.run state).1.learner.epoch ≤ learner.epoch + 1 := by
  have takes := learner.takes_next state
  generalize (learner.next.run state).1 = step at takes
  cases takes with
  | idle | stop => exact Nat.le_succ _
  | report => exact Nat.le_refl _

theorem epoch_after_le (learner : Learner σ α) (states : Nat → σ) (n : Nat) :
    (learner.after states n).epoch ≤ learner.epoch + n := by
  induction n with
  | zero => exact Nat.le_refl _
  | succ n ih =>
    have step := epoch_next_le (learner.after states n) (states n)
    rw [after]
    omega

theorem after_withEpochs {epochs n : Nat} (within : learner.epoch + n ≤ learner.config.epochs)
    (within' : learner.epoch + n ≤ epochs) (states : Nat → σ) :
    (learner.withEpochs epochs).after states n = (learner.after states n).withEpochs epochs := by
  induction n with
  | zero => rfl
  | succ n ih =>
    have epoch := epoch_after_le learner states n
    rw [after, after, ih (by omega) (by omega)]
    refine (next_withEpochs ?_ ?_ (states n)).1
    · rw [config_after]
      omega
    · omega

/-- A new learner answers with reports of all epochs in turn and then with nothing, or with fewer
reports, one error and then nothing. The session is told of each report, of the weights after the
last epoch, and of the error. A report counts no more correct draws than updates, and no more
updates than visited examples with a matching parse; just as many where no parse has NaN for a
score. Up to so many epochs, a limit that is no lower changes nothing. -/
theorem epochs_are_answered_in_turn (model : Model σ Float) (examples : List Example)
    (config : LearningConfig Float) (states : Nat → σ) :
    let learner := start model examples config
    let reports (n : Nat) := ∀ i < n, ∃ report,
      (learner.call states i).Reports config.epochs report ∧ report.epoch = i
    (reports config.epochs ∧ (∀ i, config.epochs ≤ i → (learner.call states i).Idles) ∨
      ∃ k < config.epochs, ∃ e, reports k ∧ (learner.call states k).Stops k e ∧
        ∀ i, k < i → (learner.call states i).Idles) ∧
    (∀ i report, (learner.call states i).answer = some (.ok report) →
      ∃ rankings, ((learner.after states i).rankings.run.run (states i)).1 = .ok rankings ∧
        report.correct ≤ report.updates ∧
        report.updates ≤ (learner.after states i).matched rankings ∧
        (learner.after states i).matched rankings ≤ examples.length ∧
        ((∀ parses ∈ rankings, ∀ parse ∈ parses, parse.score.isNaN = false) →
          report.updates = (learner.after states i).matched rankings)) ∧
    ∀ limit n, n ≤ config.epochs → n ≤ limit →
      let other := start model examples { config with epochs := limit }
      other.after states n = (learner.after states n).withEpochs limit ∧
        ∀ i < n, (other.call states i).answer = (learner.call states i).answer ∧
          ((other.after states i).next.run (states i)).2 =
            ((learner.after states i).next.run (states i)).2 := by
  intro learner reports
  refine ⟨?answers, fun i report done => ?counts, fun limit n within within' => ?limits⟩
  case answers =>
    have remaining : learner.epoch + config.epochs = learner.config.epochs := Nat.zero_add _
    have going : learner.failed = false := rfl
    have answers := answers_of_going remaining going states
    simpa only [reports, ReportsFor, learner, start, Nat.zero_add] using answers
  case counts =>
    obtain ⟨rankings, ranked, correct, updates⟩ := report_of_done done
    have size : (learner.after states i).examples.size = examples.length := by
      rw [examples_after]
      exact List.size_toArray
    refine ⟨rankings, ranked, ?_, ?_, size ▸ matched_le _ rankings, fun numbers => ?_⟩
    · rw [correct, updates]
      exact (Learning.correct_visitEach_le _ _).trans_eq (Nat.zero_add _)
    · exact updates ▸ contests_le_matched _ rankings
    · exact updates.trans (contests_eq_matched numbers)
  case limits =>
    intro other
    have fresh : learner.epoch = 0 := rfl
    have same (m : Nat) (inside : m ≤ n) :
        other.after states m = (learner.after states m).withEpochs limit := by
      have below : learner.epoch + m ≤ config.epochs := by omega
      have below' : learner.epoch + m ≤ limit := by omega
      exact after_withEpochs below below' states
    refine ⟨same n le_rfl, fun i inside => ?_⟩
    have epoch := epoch_after_le learner states i
    have epochs : (learner.after states i).config.epochs = config.epochs :=
      congrArg LearningConfig.epochs (config_after learner states i)
    rw [call, call, same i (Nat.le_of_lt inside)]
    exact (next_withEpochs (by omega) (by omega) (states i)).2

theorem undecided_is_answered_in_turn :
    let states : Nat → Unit := fun _ => ()
    let config : LearningConfig Float := { LearningConfig.standard with epochs := 3 }
    let other := start undecided.model [{ input := "x", meaning := some (.int 2) }] config
    (undecided.call states 0).answer = some (.ok ⟨0, 0, 1, 1⟩) ∧
      (∃ rankings, ((undecided.after states 0).rankings.run.run (states 0)).1 = .ok rankings ∧
        (∀ parses ∈ rankings, ∀ parse ∈ parses, parse.score.isNaN = false) ∧
        1 = (undecided.after states 0).matched rankings) ∧
      2 ≤ undecided.config.epochs ∧ 2 ≤ config.epochs ∧
      other.after states 2 = (undecided.after states 2).withEpochs 3 := by
  intro states config other
  have done : (undecided.call states 0).answer = some (.ok ⟨0, 0, 1, 1⟩) := by decide +kernel
  have numbers : (match (undecided.rankings.run.run ()).1 with
      | .ok rankings => rankings.all (·.all (!·.score.isNaN))
      | .error _ => false) = true := by decide +kernel
  obtain ⟨-, counts, limits⟩ := epochs_are_answered_in_turn undecided.model
    [{ input := "x", meaning := some (.int 2) }] LearningConfig.standard states
  obtain ⟨rankings, ranked, -, -, -, exact⟩ := counts 0 _ done
  have found : (undecided.rankings.run.run ()).1 = .ok rankings := ranked
  rw [found] at numbers
  have areNumbers : ∀ parses ∈ rankings, ∀ parse ∈ parses, parse.score.isNaN = false := by
    simpa using numbers
  exact ⟨done, ⟨rankings, ranked, areNumbers, exact areNumbers⟩, by decide, by decide,
    (limits 3 2 (by decide) (by decide)).1⟩

end Learner

end SemanticParsing
