import SemanticParsing.Evaluator.Operation
import SemanticParsing.Scope
import SemanticParsing.Value.Reader
/-!
The evaluator. A procedure made by `lambda` runs its body in a new scope inside the one it was made
in. Evaluation need not end, so it is given fuel, the depth to which evaluations and calls may nest.
-/
namespace SemanticParsing

namespace Scope

def lookup (s : ScopeId) (name : String) : Action Heap Value := do
  match (← get).lookup? s name with
  | some value => return value
  | none => throw (.error (.unbound name))

def define (s : ScopeId) (name : String) (value : Value) : Action Heap Unit :=
  modify fun heap => heap.define s name value

def assign (s : ScopeId) (name : String) (value : Value) : Action Heap Unit := do
  match (← get).binder? s name with
  | some t => define t name value
  | none => throw (.error (.unbound name))

def push (bindings : Std.ExtTreeMap String Value) (outer : Option ScopeId) :
    Action Heap ScopeId :=
  modifyGet fun heap => heap.push bindings outer

end Scope

namespace Evaluator

def makeLambda (parameters : List String) (body : List Value) (s : ScopeId) :
    Action Heap Value := do
  let identity ← modifyGet Heap.freshIdentity
  return .lambda parameters body s identity

/-- Gives each parameter its argument; of equal parameters the last counts. -/
def bind (parameters : List String) (arguments : List Value) : Std.ExtTreeMap String Value :=
  (parameters.zip arguments).foldl (fun map (name, value) => map.insert name value) ∅

def check {α : Type} (result : Checked α) : Action Heap α :=
  match result with
  | .ok a => return a
  | .error e => throw (.error e)

/-- What is called and the list it is called on, for the procedure of the given name. -/
def callee (name : String) (arguments : List Value) : Checked (Value × List Value) := do
  let (procedure, items) ← Arguments.two name arguments
  return (← Arguments.procedure name procedure, ← Arguments.list name items)

/-- Evaluates expressions in order and gives the value of the last. -/
def inOrder (evaluate : Value → Action Heap Value) (expressions : List Value) :
    Action Heap Value :=
  expressions.foldlM (fun _ expression => evaluate expression) .nil

mutual

def eval : Nat → Value → ScopeId → Action Heap Value
  | 0, _, _ => throw .outOfFuel
  | _ + 1, .symbol name, s => Scope.lookup s name
  | fuel + 1, .list items, s =>
    match Form.ofItems items with
    | .empty => return .list []
    | .quote datum => return datum
    | .conditional test consequence alternative => do
      if (← eval fuel test s).isTruthy then eval fuel consequence s else eval fuel alternative s
    | .define name expression => do
      Scope.define s name (← eval fuel expression s)
      return .nil
    | .assign name expression => do
      Scope.assign s name (← eval fuel expression s)
      return .nil
    | .lambda parameters body => makeLambda parameters body s
    | .application operator operands => do
      let procedure ← eval fuel operator s
      call fuel procedure (← operands.mapM fun operand => eval fuel operand s)
    | .malformed keyword => throw (.error (.malformed keyword (Value.list items).text))
  | _ + 1, v, _ => return v

def call : Nat → Value → List Value → Action Heap Value
  | 0, _, _ => throw .outOfFuel
  | _ + 1, .primitive (.operation op), arguments => check (op.call arguments)
  | fuel + 1, .primitive .apply, arguments => do
    let (procedure, items) ← check (callee Primitive.apply.name arguments)
    call fuel procedure items
  | fuel + 1, .primitive .map, arguments => do
    let (procedure, items) ← check (callee Primitive.map.name arguments)
    return .list (← items.mapM fun item => call fuel procedure [item])
  | fuel + 1, .lambda parameters body outer _, arguments => do
    if parameters.length ≠ arguments.length then
      throw (.error (.argumentCount (Value.lambdaText parameters) .asParameters arguments.length))
    let s ← Scope.push (bind parameters arguments) (some outer)
    inOrder (fun expression => eval fuel expression s) body
  | _ + 1, v, _ => throw (.error (.notAProcedure v.text))

end

def evalSequence (fuel : Nat) (expressions : List Value) (s : ScopeId) : Action Heap Value :=
  inOrder (fun expression => eval fuel expression s) expressions

end Evaluator

inductive RunError where
  | unreadable (e : ReadError)
  | stopped (s : Stop)
  deriving DecidableEq, Repr

def RunError.message : RunError → String
  | unreadable e => e.message
  | stopped s => s.message

/-- Turns meanings into outputs, with a state of its own that lasts from one meaning to the
next. -/
abbrev Executor (σ : Type) := Value → Action σ Value

namespace Evaluator

def run (fuel : Nat) (program : String) (s : ScopeId) : ExceptT RunError (StateM Heap) Value :=
  match Value.read program with
  | .ok expression => (eval fuel expression s).adapt .stopped
  | .error e => throw (.unreadable e)

def executor (fuel : Nat) (s : ScopeId) : Executor Heap :=
  fun meaning => eval fuel meaning s

end Evaluator

end SemanticParsing
