import SemanticParsing.Proofs.MirrorRun
import SemanticParsing.Proofs.Rearrangement
import SemanticParsing.Proofs.RuleIndex
/-! What an evaluation finds anywhere among the parses is up to the grammar and the executor.
Weights and features only choose the order of the parses, and meanings are executed before that. -/
namespace SemanticParsing

variable {σ α β : Type}

/-- A derivation with what executing its meaning gave. -/
abbrev Reading := Derivation × Option Value

def Parse.reading (parse : Parse α) : Reading := (parse.derivation, parse.output)

/-- What an evaluation of an example says of its parses as a whole. -/
structure Reach where
  input : String
  parses : Nat
  meaningOracle : Bool
  outputOracle : Bool
  deriving DecidableEq, Repr

namespace Reach

def ofReadings (e : Example) (readings : List Reading) : Reach where
  input := e.input
  parses := readings.length
  meaningOracle := readings.any fun reading => Metric.agree (some reading.1.meaning) e.meaning
  outputOracle := readings.any fun reading => Metric.agree reading.2 e.output

theorem ofReadings_perm (e : Example) {readings others : List Reading}
    (h : readings.Perm others) : ofReadings e readings = ofReadings e others := by
  simp only [ofReadings, h.length_eq, h.any_eq]

end Reach

/-- Executes the meanings of a sentence in the order of the parser. -/
def Grammar.readings (grammar : Grammar) (execute : Value → Action σ (Option Value))
    (sentence : String) : Action σ (List Reading) :=
  (grammar.parse sentence).mapM fun d => (d, ·) <$> execute d.meaning

/-- An evaluation that never scores a parse. -/
def Grammar.reaches (grammar : Grammar) (execute : Value → Action σ (Option Value))
    (examples : List Example) : Action σ (List Reach) :=
  examples.mapM fun e => Reach.ofReadings e <$> grammar.readings execute e.input

namespace ExampleEvaluation

def reach (judged : ExampleEvaluation) : Reach :=
  ⟨judged.input, judged.parses, judged.meaningOracle, judged.outputOracle⟩

structure WithinOracle (judged : ExampleEvaluation) : Prop where
  meaning : judged.meaningAccuracy → judged.meaningOracle
  output : judged.outputAccuracy → judged.outputOracle

end ExampleEvaluation

theorem Action.ends_of_map_eq {γ δ : Type} {action : Action σ γ} {other : Action σ δ} {f : γ → α}
    {g : δ → α} (h : f <$> action = g <$> other) (state : σ) :
    Ends (fun c d => f c = g d) (action.run.run state).1 (other.run.run state).1 ∧
      (action.run.run state).2 = (other.run.run state).2 := by
  have runs : (f <$> action).run.run state = (g <$> other).run.run state := by rw [h]
  rw [run_map, run_map, Prod.mk.injEq] at runs
  obtain ⟨results, states⟩ := runs
  refine ⟨?_, states⟩
  generalize (action.run.run state).1 = result, (other.run.run state).1 = result' at results
  cases result with
  | error stop =>
    cases result' with
    | error stop' =>
      obtain rfl := Except.error.inj results
      exact .error stop
    | ok d => cases results
  | ok c =>
    cases result' with
    | error stop' => cases results
    | ok d => exact .ok (Except.ok.inj results)

namespace Model

theorem contains_true_map {γ : Type} (mark : γ → Bool) (items : List γ) :
    (items.map mark).contains true = items.any mark := by
  induction items with
  | nil => rfl
  | cons item items ih =>
    rw [List.map_cons, List.contains_cons, ih, List.any_cons]
    cases mark item <;> rfl

theorem reach_judge (e : Example) (parses : List (Parse α)) :
    (judge e parses).reach = Reach.ofReadings e (parses.map Parse.reading) := by
  simp only [judge, ExampleEvaluation.reach, Reach.ofReadings, contains_true_map, List.any_map,
    List.length_map]
  rfl

theorem head_le_contains (marks : List Bool) (h : marks.head?.getD false) :
    marks.contains true := by
  cases marks with
  | nil => cases h
  | cons first rest =>
    obtain rfl : first = true := h
    rfl

theorem withinOracle_judge (e : Example) (parses : List (Parse α)) :
    (judge e parses).WithinOracle where
  meaning := head_le_contains _
  output := head_le_contains _

variable [Scalar α] {model : Model σ α} {examples : List Example} {state after : σ}

theorem reading_scored (model : Model σ α) (d : Derivation) :
    Parse.reading <$> model.scored d = (d, ·) <$> model.execute d.meaning := by
  have unscored : Parse.reading <$> model.scored d =
      (get >>= fun _ => (d, ·) <$> model.execute d.meaning) := by
    simp only [scored, map_bind, map_pure, Parse.reading]
    rfl
  rw [unscored]
  rfl

/-- Ranking an example reaches what executing the meanings in the order of the parser does. -/
theorem reach_rank (model : Model σ α) (e : Example) :
    (fun parses => (judge e parses).reach) <$> model.rank e.input =
      Reach.ofReadings e <$> model.grammar.readings model.execute e.input := by
  have sorted (found : List (Parse α)) : (judge e (Ranking.sort Parse.beats found)).reach =
      Reach.ofReadings e (found.map Parse.reading) := by
    rw [reach_judge]
    exact Reach.ofReadings_perm e ((Ranking.sort_perm _ _).map _)
  have each : model.grammar.readings model.execute e.input =
      List.map Parse.reading <$> (model.grammar.parse e.input).mapM model.scored := by
    simp only [Action.map_mapM, reading_scored, Grammar.readings]
  rw [each, rank, map_bind]
  simp only [map_pure, sorted, bind_pure_comp, Functor.map_map]

theorem reach_evaluate (model : Model σ α) (examples : List Example) :
    (fun e : Evaluation => e.examples.map ExampleEvaluation.reach) <$> model.evaluate examples =
      model.grammar.reaches model.execute examples := by
  have each (e : Example) : ExampleEvaluation.reach <$> judge e <$> model.rank e.input =
      Reach.ofReadings e <$> model.grammar.readings model.execute e.input := by
    rw [Functor.map_map, reach_rank]
  have walk : List.map ExampleEvaluation.reach <$>
      (examples.mapM fun e => judge e <$> model.rank e.input) =
        model.grammar.reaches model.execute examples := by
    simp only [Action.map_mapM, each, Grammar.reaches]
  rw [evaluate, bind_pure_comp, Functor.map_map, ← walk]

theorem withinOracle_of_evaluate {e : Evaluation}
    (h : (model.evaluate examples).run.run state = (.ok e, after)) :
    ∀ judged ∈ e.examples, judged.WithinOracle := by
  obtain ⟨found, later, judges, h⟩ := Action.of_run_bind_ok h
  rw [Action.run_pure] at h
  cases h
  intro judged member
  obtain ⟨e, -, before, last, given⟩ := (Action.mem_of_mapM judges).2 judged member
  rw [map_eq_pure_bind] at given
  obtain ⟨parses, middle, -, given⟩ := Action.of_run_bind_ok given
  rw [Action.run_pure] at given
  cases given
  exact withinOracle_judge e parses

end Model

/-- The evaluations agree on everything that weights and features cannot change. -/
structure Evaluation.ReachesAlike (found other : Evaluation) : Prop where
  examples : found.examples.map ExampleEvaluation.reach =
    other.examples.map ExampleEvaluation.reach
  meaningOracleAccuracy : found.meaningOracleAccuracy = other.meaningOracleAccuracy
  outputOracleAccuracy : found.outputOracleAccuracy = other.outputOracleAccuracy
  meanParses : found.meanParses = other.meanParses

theorem Evaluation.reachesAlike_of_examples {found other : Evaluation}
    (h : found.examples.map ExampleEvaluation.reach =
      other.examples.map ExampleEvaluation.reach) : found.ReachesAlike other := by
  have count : found.examples.length = other.examples.length := by
    simpa using congrArg List.length h
  have share (mark : Reach → Bool) : found.examples.countP (mark ·.reach) =
      other.examples.countP (mark ·.reach) := by
    simpa [List.countP_map, Function.comp_def] using congrArg (List.countP mark) h
  have total : found.parses = other.parses := by
    have sums := congrArg (List.foldl (fun total (reach : Reach) => total + reach.parses) 0) h
    rw [List.foldl_map, List.foldl_map] at sums
    exact sums
  refine ⟨h, ?_, ?_, ?_⟩
  · exact congrArg₂ proportion (share Reach.meaningOracle) count
  · exact congrArg₂ proportion (share Reach.outputOracle) count
  · exact congrArg₂ proportion total count

namespace Model

variable [Scalar α] [Scalar β]

/-- Two models with one grammar and one executor, whatever their features and weights, evaluate
examples from the same state with the same stop, or find the same numbers of parses and of right
readings; and they leave the same state. In each a best parse is right only where some parse is. -/
theorem weights_keep_reach (model : Model σ α) (other : Model σ β)
    (grammar : other.grammar = model.grammar) (executor : other.executor = model.executor)
    (examples : List Example) (state : σ) :
    let found := (model.evaluate examples).run.run state
    let found' := (other.evaluate examples).run.run state
    Ends Evaluation.ReachesAlike found.1 found'.1 ∧ found.2 = found'.2 ∧
      (∀ e, found.1 = .ok e → ∀ judged ∈ e.examples, judged.WithinOracle) ∧
      ∀ e, found'.1 = .ok e → ∀ judged ∈ e.examples, judged.WithinOracle := by
  have executes : other.execute = model.execute := by
    funext v
    rw [execute, execute, executor]
  have reaches := reach_evaluate other examples
  rw [grammar, executes, ← reach_evaluate model examples] at reaches
  obtain ⟨ends, states⟩ := Action.ends_of_map_eq reaches.symm state
  refine ⟨ends.imp fun _ _ => Evaluation.reachesAlike_of_examples, states, ?_, ?_⟩
  · exact fun e given => withinOracle_of_evaluate (Prod.ext given rfl)
  · exact fun e given => withinOracle_of_evaluate (Prod.ext given rfl)

def counting : Executor Nat := fun _ => modifyGet fun count => (.int (Int64.ofNat count), count + 1)

def unbiased : Model Nat Float where
  grammar := Grammar.ambiguous
  features := Feature.rules
  executor := some counting

def biased : Model Nat Float :=
  { unbiased with weights := Table.addAt ∅ "Rule($E, x, 2)" 1.0 }

def secondReading : Example where
  input := "x"
  meaning := some (.int 2)
  output := some (.int 1)

theorem weights_keep_reach_biased :
    let found := (unbiased.evaluate [secondReading]).run.run 0
    let found' := (biased.evaluate [secondReading]).run.run 0
    biased.grammar = unbiased.grammar ∧ biased.executor = unbiased.executor ∧
      found.1 = .ok ⟨[⟨"x", 2, false, true, false, true⟩]⟩ ∧
      found'.1 = .ok ⟨[⟨"x", 2, true, true, true, true⟩]⟩ ∧
      Ends Evaluation.ReachesAlike found.1 found'.1 ∧ found.2 = found'.2 := by
  intro found found'
  have reached := weights_keep_reach unbiased biased rfl rfl [secondReading] 0
  exact ⟨rfl, rfl, by decide +kernel, by decide +kernel, reached.1, reached.2.1⟩

end Model

end SemanticParsing
