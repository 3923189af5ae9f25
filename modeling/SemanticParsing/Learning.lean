import Std.Data.ExtTreeSet
import SemanticParsing.Model
import SemanticParsing.Random
/-!
The structured perceptron. An epoch visits every example once, in random order, and contrasts the
best matching parse with one drawn from its competitors. Differences are collected under the same
weights and applied at the end; an epoch that cannot rank an example changes no weight.
-/
namespace SemanticParsing

structure Decoding where
  target : Option Nat
  competitors : List Nat
  deriving DecidableEq, Repr

namespace Decoding

variable {α : Type} [Scalar α]

def augmented (isMatch : Bool) (score : α) : α :=
  if isMatch then score else score + Scalar.one

structure Leaders (α : Type) where
  best : Option α := none
  positions : List Nat := []

/-- Points that cannot even be compared with themselves are passed over. -/
def Leaders.consider (leaders : Leaders α) (position : Nat) (points : α) : Leaders α :=
  match leaders.best with
  | none => if Scalar.lessOrEqual points points then ⟨some points, [position]⟩ else leaders
  | some best =>
    if Scalar.less best points then ⟨some points, [position]⟩
    else if Scalar.lessOrEqual best points then
      { leaders with positions := leaders.positions ++ [position] }
    else leaders

def leaders (points : List α) : Leaders α :=
  points.zipIdx.foldl (fun leaders (points, position) => leaders.consider position points) {}

def ofScores (parses : List (Bool × α)) : Decoding where
  target := parses.findIdx? (·.1)
  competitors := (leaders (parses.map fun (isMatch, score) => augmented isMatch score)).positions

def ofParses (parses : List (Parse α)) (e : Example) (metric : Metric) : Decoding :=
  ofScores (parses.map fun parse => (metric.accepts parse e, parse.score))

end Decoding

/-- Which names the weights are updated for. -/
inductive VocabularyPolicy where
  | frozenAfterFirstEpoch
  | growing
  deriving DecidableEq, Repr

structure LearningConfig (α : Type) where
  metric : Metric := .meaning
  eta : α
  epochs : Nat := 20
  seed : UInt64 := 60
  vocabulary : VocabularyPolicy := .frozenAfterFirstEpoch

def LearningConfig.standard : LearningConfig Float := { eta := 0.1 }

structure EpochReport where
  epoch : Nat
  correct : Nat
  /-- Examples with a matching parse and a competitor. -/
  updates : Nat
  examples : Nat
  deriving DecidableEq, Repr

def EpochReport.accuracy (report : EpochReport) : Float :=
  proportion report.correct report.examples

inductive LearnError where
  | missingExecutor
  | stopped (s : Stop)
  deriving DecidableEq, Repr

def LearnError.message : LearnError → String
  | missingExecutor => "Learning against outputs requires the model to have an executor"
  | stopped s => s.message

inductive Event (α : Type) where
  | epochDone (report : EpochReport)
  | learned (weights : List (String × α))
  | learningStopped (epoch : Nat) (e : LearnError)
  | evaluated (evaluation : Evaluation)

/-- The features of the target and of the drawn competitor of one example. -/
structure Contrast (α : Type) where
  target : Table α
  chosen : Table α

abbrev Vocabulary := Std.ExtTreeSet String

namespace Learning

variable {σ α : Type} [Scalar α]

structure Progress (α : Type) where
  generator : Random.Generator
  vocabulary : Vocabulary
  correct : Nat := 0
  pending : List (Contrast α) := []

def record (vocabulary : Vocabulary) (parses : List (Parse α)) : Vocabulary :=
  parses.foldl (fun names parse => names.insertMany parse.features.keys) vocabulary

namespace Progress

/-- Draws a competitor and notes how it compares with the target. Without a target nothing is
drawn. -/
def draw (p : Progress α) (metric : Metric) (e : Example) (parses : List (Parse α)) :
    Progress α :=
  let decoding := Decoding.ofParses parses e metric
  match decoding.target.bind (parses[·]?) with
  | none => p
  | some target =>
    let (choice, generator) := p.generator.choose? decoding.competitors
    match choice.bind (parses[·]?) with
    | none => { p with generator }
    | some chosen =>
      { p with
        generator
        correct := if metric.accepts chosen e then p.correct + 1 else p.correct
        pending := p.pending ++ [⟨target.features, chosen.features⟩] }

def visit (p : Progress α) (metric : Metric) (records : Bool) (e : Example)
    (parses : List (Parse α)) : Progress α :=
  let p := if records then { p with vocabulary := record p.vocabulary parses } else p
  p.draw metric e parses

end Progress

/-- Ranks examples in turn. When a ranking stops, what was collected before it is kept. -/
def visitAll (model : Model σ α) (metric : Metric) (records : Bool) :
    List Example → Progress α → StateM σ (Progress α × Option Stop)
  | [], p => return (p, none)
  | e :: rest, p => do
    match ← (model.rank e.input).run with
    | .ok parses => visitAll model metric records rest (p.visit metric records e parses)
    | .error stop => return (p, some stop)

/-- Moves the weight of one name by `eta` times the difference of its counts. A name whose counts
do not differ is left alone, so that it gets no entry. -/
def updateName (eta : α) (pair : Contrast α) (weights : Table α) (name : String) :
    Table α :=
  let difference := pair.target.number name - pair.chosen.number name
  if difference == Scalar.zero then weights else weights.addAt name (eta * difference)

def update (eta : α) (names : List String) (weights : Table α) (pair : Contrast α) :
    Table α :=
  names.foldl (updateName eta pair) weights

def applyAll (eta : α) (names : List String) (pending : List (Contrast α))
    (weights : Table α) : Table α :=
  pending.foldl (update eta names) weights

end Learning

structure Learner (σ α : Type) where
  model : Model σ α
  examples : Array Example
  config : LearningConfig α
  generator : Random.Generator
  vocabulary : Vocabulary := ∅
  epoch : Nat := 0
  failed : Bool := false

namespace Learner

variable {σ α : Type} [Scalar α]

def start (model : Model σ α) (examples : List Example) (config : LearningConfig α) :
    Learner σ α :=
  { model, examples := examples.toArray, config, generator := .ofSeed config.seed }

def recordsVocabulary (learner : Learner σ α) : Bool :=
  learner.epoch = 0 || learner.config.vocabulary = .growing

def withProgress (learner : Learner σ α) (p : Learning.Progress α) : Learner σ α :=
  { learner with generator := p.generator, vocabulary := p.vocabulary }

def runEpoch (learner : Learner σ α) :
    StateM σ (Learner σ α × Except LearnError EpochReport) := do
  if learner.config.metric = .output && !learner.model.hasExecutor then
    return (learner, .error .missingExecutor)
  let (order, generator) := learner.generator.permutation learner.examples.size
  let (p, stopped) ← Learning.visitAll learner.model learner.config.metric
    learner.recordsVocabulary (order.filterMap (learner.examples[·]?))
    { generator, vocabulary := learner.vocabulary }
  let learner := learner.withProgress p
  match stopped with
  | some stop => return (learner, .error (.stopped stop))
  | none =>
    let weights := Learning.applyAll learner.config.eta learner.vocabulary.toList p.pending
      learner.model.weights
    return ({ learner with model := { learner.model with weights } },
      .ok ⟨learner.epoch, p.correct, p.pending.length, learner.examples.size⟩)

/-- The answer to a call for the next epoch, with what the session is told about it. -/
structure Step (σ α : Type) where
  learner : Learner σ α
  answer : Option (Except LearnError EpochReport)
  events : List (Event α)

def next (learner : Learner σ α) : StateM σ (Step σ α) := do
  if learner.failed || learner.config.epochs ≤ learner.epoch then
    return ⟨learner, none, []⟩
  match ← learner.runEpoch with
  | (learner, .ok report) =>
    let learner := { learner with epoch := learner.epoch + 1 }
    let closing := if learner.epoch = learner.config.epochs then
      [.learned learner.model.sortedWeights] else []
    return ⟨learner, some (.ok report), .epochDone report :: closing⟩
  | (learner, .error e) =>
    return ⟨{ learner with failed := true }, some (.error e), [.learningStopped learner.epoch e]⟩

structure Run (σ α : Type) where
  learner : Learner σ α
  outcome : Except LearnError (List EpochReport)
  events : List (Event α)

def runFor : Nat → Learner σ α → StateM σ (Run σ α)
  | 0, learner => return ⟨learner, .ok [], []⟩
  | n + 1, learner => do
    let step ← learner.next
    match step.answer with
    | none => return ⟨step.learner, .ok [], step.events⟩
    | some (.error e) => return ⟨step.learner, .error e, step.events⟩
    | some (.ok report) =>
      let rest ← runFor n step.learner
      return { rest with
        outcome := rest.outcome.map (report :: ·)
        events := step.events ++ rest.events }

def runAll (learner : Learner σ α) : StateM σ (Run σ α) :=
  runFor learner.config.epochs learner

end Learner

inductive Level where
  | info | error
  deriving DecidableEq, Repr

def Level.text : Level → String
  | info => "INFO"
  | error => "ERROR"

namespace Event

def level {α : Type} : Event α → Level
  | learningStopped .. => .error
  | _ => .info

def weightText : String × Float → String
  | (name, weight) =>
    "(" ++ Text.quoted name ++ ", " ++ Decimal.Layout.annotated.text weight ++ ")"

def message : Event Float → String
  | epochDone report => "Epoch #" ++ toString report.epoch ++ " - Train Accuracy: " ++
    Decimal.fixedText 3 report.accuracy
  | learned weights =>
    "Feature weights: [" ++ ", ".intercalate (weights.map weightText) ++ "]"
  | learningStopped epoch e => "Learning stopped at epoch " ++ toString epoch ++ ": " ++ e.message
  | evaluated evaluation => "Evaluated " ++ toString evaluation.examples.length ++ " example(s)"

def fields {α : Type} : Event α → List (String × String)
  | epochDone report =>
    [("updates", toString report.updates), ("correct", toString report.correct)]
  | evaluated e =>
    [("meaning_accuracy", Decimal.Layout.plain.text e.meaningAccuracy),
      ("meaning_oracle_accuracy", Decimal.Layout.plain.text e.meaningOracleAccuracy),
      ("output_accuracy", Decimal.Layout.plain.text e.outputAccuracy),
      ("output_oracle_accuracy", Decimal.Layout.plain.text e.outputOracleAccuracy),
      ("mean_parses", Decimal.Layout.plain.text e.meanParses)]
  | _ => []

end Event

end SemanticParsing
