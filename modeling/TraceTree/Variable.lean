import TraceTree.Declaration
import TraceTree.ScopeId
import TraceTree.VariableType

/-!
Variables in scope: what is recorded of one, the places of a function's parameters on the stack when
it is entered, and the records of declarations that come into being. Every output has a record, and
the inputs have theirs when the stack is deep enough for all of them, else none has
(`inputRecords_of_lt`).
-/
namespace TraceTree

/-- A parameter or a local variable of a scope. -/
structure VariableRecord where
  astId : Option Nat
  name : String
  type : VariableType
  stackDepth : Nat
  sourceRange : SourceRange
  isParameter : Bool
  declaredAt : Nat
  scope : ScopeId
  deriving DecidableEq

/-- The parameters of one activation: their names in order and the records to keep. -/
structure ParameterRegistration where
  inputs : List String
  outputs : List String
  records : List VariableRecord
  deriving DecidableEq

namespace VariableDeclaration

/-- The name of a parameter; one without a name is called by its position among all parameters. -/
def parameterName (v : VariableDeclaration) (position : Nat) : String :=
  if v.name.isEmpty then "$" ++ toString position else v.name

/-- The type of a variable, in `default` unless a location is declared or spelled. -/
def type (v : VariableDeclaration) (default : DataLocation) : VariableType :=
  .ofText v.typeString v.storageLocation default

/-- The record of a parameter. -/
def parameterRecord (v : VariableDeclaration) (name : String) (stackDepth step : Nat)
    (scope : ScopeId) : VariableRecord :=
  { astId := some v.id, name, type := v.type .memory, stackDepth, sourceRange := v.src,
    isParameter := true, declaredAt := step, scope }

/-- The record of a local variable, whose slot is the next one on the stack. -/
def localRecord (v : VariableDeclaration) (stackDepth step : Nat) (scope : ScopeId) :
    VariableRecord :=
  { astId := some v.id, name := v.name, type := v.type .storage, stackDepth, sourceRange := v.src,
    isParameter := false, declaredAt := step, scope }

end VariableDeclaration

/-! ### Parameters -/

namespace FunctionDefinition

/-- The names of the inputs. -/
def inputNames (f : FunctionDefinition) : List String :=
  f.parameters.mapIdx fun i v => v.parameterName i

/-- The names of the outputs, whose positions count on after the inputs. -/
def outputNames (f : FunctionDefinition) : List String :=
  f.returnParameters.mapIdx fun j v => v.parameterName (f.parameters.length + j)

/-- The records of the inputs, which are on top of the stack when the function is entered. A stack
with fewer items holds none of them. -/
def inputRecords (f : FunctionDefinition) (stackLength step : Nat) (scope : ScopeId) :
    List VariableRecord :=
  let n := f.parameters.length
  if stackLength < n then []
  else f.parameters.mapIdx fun i v =>
    v.parameterRecord (v.parameterName i) (stackLength - n + i) step scope

/-- The records of the outputs, which are pushed after the function is entered. -/
def outputRecords (f : FunctionDefinition) (stackLength step : Nat) (scope : ScopeId) :
    List VariableRecord :=
  f.returnParameters.mapIdx fun j v =>
    v.parameterRecord (v.parameterName (f.parameters.length + j)) (stackLength + j + 1) step scope

/-- The parameters of an activation that starts at `step` with a stack of that length. -/
def registerParameters (f : FunctionDefinition) (stackLength step : Nat) (scope : ScopeId) :
    ParameterRegistration :=
  { inputs := f.inputNames
    outputs := f.outputNames
    records := f.inputRecords stackLength step scope ++ f.outputRecords stackLength step scope }

end FunctionDefinition

/-! ### Local variables -/

/-- The records of declarations that come into being at `step`. Those without a name, and those
whose name `isKnown`, are left out. -/
def VariableDeclaration.localRecords (declarations : List VariableDeclaration)
    (isKnown : String → Bool) (stackLength step : Nat) (scope : ScopeId) : List VariableRecord :=
  (declarations.filter fun v => !v.name.isEmpty && !isKnown v.name).map fun v =>
    v.localRecord stackLength step scope

/-! ### Data -/

namespace VariableRecord

def toJson (r : VariableRecord) : Json :=
  .object [("ast_id", Json.option Json.nat r.astId), ("name", .string r.name),
    ("ty", r.type.toJson), ("stack_depth", .nat r.stackDepth),
    ("source_range", r.sourceRange.toJson), ("is_parameter", .bool r.isParameter),
    ("declared_at", .nat r.declaredAt), ("scope", r.scope.toJson)]

def ofJson? (j : Json) : Option VariableRecord := do
  let fs ← j.fields? ["ast_id", "name", "ty", "stack_depth", "source_range", "is_parameter",
    "declared_at", "scope"]
  let astId ← fs.optional "ast_id" Json.readNat64
  let name ← fs.required "name" Json.readString
  let type ← fs.required "ty" VariableType.ofJson?
  let stackDepth ← fs.required "stack_depth" Json.readNat64
  let sourceRange ← fs.required "source_range" SourceRange.ofJson?
  let isParameter ← fs.required "is_parameter" Json.readBool
  let declaredAt ← fs.required "declared_at" Json.readNat64
  let scope ← fs.required "scope" ScopeId.ofJson?
  return { astId, name, type, stackDepth, sourceRange, isParameter, declaredAt, scope }

end VariableRecord

/-! ### Laws -/

theorem FunctionDefinition.inputRecords_of_lt {f : FunctionDefinition} {n : Nat} (step : Nat)
    (scope : ScopeId) (h : n < f.parameters.length) : f.inputRecords n step scope = [] := by
  simp [inputRecords, h]

end TraceTree
