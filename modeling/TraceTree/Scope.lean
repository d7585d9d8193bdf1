import TraceTree.LineIndex
import TraceTree.SourceLocation
import TraceTree.Trace
import TraceTree.Variable

/-!
The parts of a call tree: scopes, which are stretches of steps that one activation runs, the
functions that they activate, the gas of source lines, and the location of each step.
-/
namespace TraceTree

/-- What opened a scope: the transaction, a message call, a contract creation, an internal function
or a constructor's body. -/
inductive ScopeKind where
  | root
  | externalCall
  | creation
  | internalFunction
  | constructor
  deriving DecidableEq, Inhabited

/-- A stretch of steps that one activation runs. It has no last step while it is open. Its gas is
that of the steps that were charged to it. -/
structure Scope where
  id : ScopeId
  kind : ScopeKind
  code : CodeAddress
  firstStep : Nat
  lastStep : Option Nat := none
  gasCost : Nat := 0
  locals : SortedMap String VariableRecord := ∅
  deriving DecidableEq

/-- A function that is entered where a scope starts. -/
structure FunctionActivation where
  functionId : Nat
  name : String
  inputs : List String
  outputs : List String
  scope : ScopeId
  entryStep : Nat
  isConstructor : Bool
  deriving DecidableEq

/-- The gas spent on one source line and the steps that spent it. -/
structure LineGas where
  gasCost : Nat := 0
  steps : Array Nat := #[]
  deriving DecidableEq

/-- The location of one step: straight from the source map, and as it is shown. -/
structure StepLocation where
  code : CodeAddress
  opcode : Opcode
  raw : SourceLocation
  valid : SourceLocation
  lineColumn : Option LineColumnRange
  deriving DecidableEq

namespace ScopeKind

/-- Whether the scope is a call frame, which a decrease of the call depth closes. -/
def isFrame : ScopeKind → Bool
  | root | externalCall | creation => true
  | internalFunction | constructor => false

def name : ScopeKind → String
  | root => "Root"
  | externalCall => "ExternalCall"
  | creation => "Creation"
  | internalFunction => "InternalFunction"
  | constructor => "Constructor"

def ofName? : String → Option ScopeKind
  | "Root" => some root
  | "ExternalCall" => some externalCall
  | "Creation" => some creation
  | "InternalFunction" => some internalFunction
  | "Constructor" => some constructor
  | _ => none

def toJson (k : ScopeKind) : Json := .string k.name

def ofJson? (j : Json) : Option ScopeKind := (Json.readTag j).bind ofName?

end ScopeKind

namespace Scope

/-- Whether a step lies in the scope; an open scope has no end. -/
def contains (s : Scope) (step : Nat) : Bool :=
  s.firstStep ≤ step && s.lastStep.all (step ≤ ·)

/-- Whether the scope runs creation code. -/
def isCreation (s : Scope) : Bool := s.code.isCreation

/-- Puts a variable under its name, over the one that was there. -/
def addLocal (s : Scope) (r : VariableRecord) : Scope :=
  { s with locals := s.locals.insert r.name r }

def toJson (s : Scope) : Json :=
  .object [("id", s.id.toJson), ("kind", s.kind.toJson), ("code", s.code.toJson),
    ("first_step", .nat s.firstStep), ("last_step", Json.option Json.nat s.lastStep),
    ("gas_cost", .nat s.gasCost),
    ("locals", Json.ofMap (fun name => name) VariableRecord.toJson s.locals)]

def ofJson? (j : Json) : Option Scope := do
  let fs ← j.fields? ["id", "kind", "code", "first_step", "last_step", "gas_cost", "locals"]
  let id ← fs.required "id" ScopeId.ofJson?
  let kind ← fs.required "kind" ScopeKind.ofJson?
  let code ← fs.required "code" CodeAddress.ofJson?
  let firstStep ← fs.required "first_step" Json.readNat64
  let lastStep ← fs.optional "last_step" Json.readNat64
  let gasCost ← fs.required "gas_cost" Json.readNat64
  let locals ← fs.required "locals" (Json.readMap some VariableRecord.ofJson?)
  return { id, kind, code, firstStep, lastStep, gasCost, locals }

end Scope

namespace FunctionActivation

def toJson (a : FunctionActivation) : Json :=
  .object [("function_id", .nat a.functionId), ("name", .string a.name),
    ("inputs", Json.list .string a.inputs), ("outputs", Json.list .string a.outputs),
    ("scope", a.scope.toJson), ("entry_step", .nat a.entryStep),
    ("is_constructor", .bool a.isConstructor)]

def ofJson? (j : Json) : Option FunctionActivation := do
  let fs ← j.fields? ["function_id", "name", "inputs", "outputs", "scope", "entry_step",
    "is_constructor"]
  let functionId ← fs.required "function_id" Json.readNat64
  let name ← fs.required "name" Json.readString
  let inputs ← fs.required "inputs" (Json.readList Json.readString)
  let outputs ← fs.required "outputs" (Json.readList Json.readString)
  let scope ← fs.required "scope" ScopeId.ofJson?
  let entryStep ← fs.required "entry_step" Json.readNat64
  let isConstructor ← fs.required "is_constructor" Json.readBool
  return { functionId, name, inputs, outputs, scope, entryStep, isConstructor }

end FunctionActivation

namespace LineGas

/-- Adds the gas of one more step. -/
def add (g : LineGas) (step gas : Nat) : LineGas :=
  { gasCost := Gas.add g.gasCost gas, steps := g.steps.push step }

def toJson (g : LineGas) : Json :=
  .object [("gas_cost", .nat g.gasCost), ("steps", Json.list Json.nat g.steps.toList)]

def ofJson? (j : Json) : Option LineGas := do
  let fs ← j.fields? ["gas_cost", "steps"]
  let gasCost ← fs.required "gas_cost" Json.readNat64
  let steps ← fs.required "steps" (Json.readList Json.readNat64)
  return { gasCost, steps := steps.toArray }

end LineGas

namespace StepLocation

def toJson (l : StepLocation) : Json :=
  .object [("code", l.code.toJson), ("opcode", .nat l.opcode.toNat), ("raw", l.raw.toJson),
    ("valid", l.valid.toJson),
    ("line_column", Json.option LineColumnRange.toJson l.lineColumn)]

def ofJson? (j : Json) : Option StepLocation := do
  let fs ← j.fields? ["code", "opcode", "raw", "valid", "line_column"]
  let code ← fs.required "code" CodeAddress.ofJson?
  let opcode ← fs.required "opcode" Json.readByte
  let raw ← fs.required "raw" SourceLocation.ofJson?
  let valid ← fs.required "valid" SourceLocation.ofJson?
  let lineColumn ← fs.optional "line_column" LineColumnRange.ofJson?
  return { code, opcode, raw, valid, lineColumn }

end StepLocation

end TraceTree
