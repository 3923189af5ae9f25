import SemanticParsing.Evaluator.Basic
import SemanticParsing.Grammar.Parse
import SemanticParsing.Score
/-!
Models: a grammar with a linear score, and possibly an executor that turns meanings into outputs.
Executing a meaning may change the state of the session, so the meanings of a sentence are executed
in the order of the parser, before the parses are sorted by score.
-/
namespace SemanticParsing

structure Parse (α : Type) where
  derivation : Derivation
  /-- What executing the meaning gave, in a model with an executor. -/
  output : Option Value
  score : α
  features : Table α

namespace Parse

def meaning {α : Type} (parse : Parse α) : Value := parse.derivation.meaning

def beats {α : Type} [Scalar α] (left right : Parse α) : Bool :=
  Scalar.less right.score left.score

end Parse

structure Model (σ α : Type) where
  grammar : Grammar
  features : FeatureFunction σ α
  weights : Table α := ∅
  executor : Option (Executor σ) := none

namespace Model

variable {σ α : Type} [Scalar α]

def hasExecutor (model : Model σ α) : Bool := model.executor.isSome

def execute (model : Model σ α) (meaning : Value) : Action σ (Option Value) :=
  match model.executor with
  | some executor => some <$> executor meaning
  | none => return none

/-- Looks at the features of a derivation first and then executes its meaning. -/
def scored (model : Model σ α) (derivation : Derivation) : Action σ (Parse α) := do
  let features := model.features (← get) derivation
  let output ← model.execute derivation.meaning
  return ⟨derivation, output, features.dot model.weights, features⟩

/-- Every parse of a sentence, the highest score first; equal scores keep the order of the
parser. The first meaning that cannot be executed ends the ranking. -/
def rank (model : Model σ α) (sentence : String) : Action σ (List (Parse α)) := do
  return Ranking.sort Parse.beats (← (model.grammar.parse sentence).mapM model.scored)

/-- Heavier weights come first, and weights that neither is heavier than the other by name. -/
def heavier (left right : String × α) : Bool :=
  Scalar.less right.2 left.2 || (!Scalar.less left.2 right.2 && left.1 < right.1)

def sortedWeights (model : Model σ α) : List (String × α) :=
  Ranking.sort heavier model.weights.toList

end Model

structure Example where
  input : String
  meaning : Option Value := none
  output : Option Value := none

def Example.tokens (e : Example) : List String := Text.words e.input

inductive Metric where
  | meaning | output
  deriving DecidableEq, Repr

structure UnknownMetric where
  name : String
  deriving DecidableEq, Repr

def UnknownMetric.message (e : UnknownMetric) : String :=
  "Unknown metric `" ++ e.name ++ "`, expected `meaning` or `output`"

namespace Metric

def text : Metric → String
  | meaning => "meaning"
  | output => "output"

def ofName (name : String) : Except UnknownMetric Metric :=
  if name = "meaning" ∨ name = "semantics" then .ok meaning
  else if name = "output" ∨ name = "denotation" then .ok output
  else .error ⟨name⟩

def agree : Option Value → Option Value → Bool
  | some found, some wanted => found.same wanted
  | _, _ => false

def accepts {α : Type} (metric : Metric) (parse : Parse α) (e : Example) : Bool :=
  match metric with
  | meaning => agree (some parse.meaning) e.meaning
  | output => agree parse.output e.output

end Metric

def proportion (part whole : Nat) : Float :=
  if whole = 0 then 0.0 else Decimal.ofInteger part / Decimal.ofInteger whole

structure ExampleEvaluation where
  input : String
  parses : Nat
  meaningAccuracy : Bool
  meaningOracle : Bool
  outputAccuracy : Bool
  outputOracle : Bool
  deriving DecidableEq, Repr

structure Evaluation where
  examples : List ExampleEvaluation
  deriving DecidableEq, Repr

namespace Evaluation

def share (e : Evaluation) (mark : ExampleEvaluation → Bool) : Float :=
  proportion (e.examples.countP mark) e.examples.length

def meaningAccuracy (e : Evaluation) : Float := e.share ExampleEvaluation.meaningAccuracy

def meaningOracleAccuracy (e : Evaluation) : Float := e.share ExampleEvaluation.meaningOracle

def outputAccuracy (e : Evaluation) : Float := e.share ExampleEvaluation.outputAccuracy

def outputOracleAccuracy (e : Evaluation) : Float := e.share ExampleEvaluation.outputOracle

def parses (e : Evaluation) : Nat :=
  e.examples.foldl (fun total judged => total + judged.parses) 0

def meanParses (e : Evaluation) : Float :=
  proportion e.parses e.examples.length

end Evaluation

namespace Model

variable {σ α : Type} [Scalar α]

def judge (e : Example) (parses : List (Parse α)) : ExampleEvaluation :=
  let meanings := parses.map (Metric.meaning.accepts · e)
  let outputs := parses.map (Metric.output.accepts · e)
  { input := e.input
    parses := parses.length
    meaningAccuracy := meanings.head?.getD false
    meaningOracle := meanings.contains true
    outputAccuracy := outputs.head?.getD false
    outputOracle := outputs.contains true }

def evaluate (model : Model σ α) (examples : List Example) : Action σ Evaluation := do
  return ⟨← examples.mapM fun e => judge e <$> model.rank e.input⟩

end Model

end SemanticParsing
