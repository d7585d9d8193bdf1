import TraceTree.Instructions
import TraceTree.Json.Record
import TraceTree.LineIndex
import TraceTree.SourceMap

/-!
Bytecode with the debug information that the compiler gives for it: the source map, the entry
points of functions and the sources that the compiler wrote itself. What is looked up often stands
in tables beside the data, which their type ties to it (`Derived`).
-/
namespace TraceTree

/-- What `f` makes of `a`, at hand. -/
structure Derived {α β : Type} (f : α → β) (a : α) where
  value : β
  value_eq : value = f a

namespace Derived

variable {α β : Type}

def of (f : α → β) (a : α) : Derived f a := ⟨f a, rfl⟩

instance {f : α → β} {a : α} : Inhabited (Derived f a) := ⟨of f a⟩

end Derived

/-! ### Debug information -/

/-- What the compiler tells of one function of the bytecode. -/
structure FunctionDebug where
  entryPoint : Option Nat
  id : Option Nat
  parameterSlots : Option Nat
  returnSlots : Option Nat
  deriving DecidableEq, Inhabited

/-- A source that the compiler generated. -/
structure GeneratedSource where
  ast : Json
  contents : String
  id : Nat
  language : String
  name : String
  deriving Inhabited

/-- Where a function starts. Functions that come from no definition have no id. -/
structure FunctionEntry where
  entryPoint : Nat
  id : Option Nat
  name : String
  deriving DecidableEq, Inhabited

/-- Why a program counter has no source location. -/
inductive LocationError where
  | sourceMap (error : SourceMap.Error)
  | invalidPc (pc : Nat)
  | instructionOutOfRange (instruction entries : Nat)
  deriving DecidableEq

namespace LocationError

/-- The name of the cause. -/
def name : LocationError → String
  | sourceMap _ => "SourceMap"
  | invalidPc _ => "InvalidPc"
  | instructionOutOfRange _ _ => "InstructionOutOfRange"

def message : LocationError → String
  | sourceMap error => "malformed source map: " ++ error.message
  | invalidPc pc => "pc " ++ toString pc ++ " is not an instruction boundary"
  | instructionOutOfRange instruction entries =>
    "instruction " ++ toString instruction ++ " is beyond the source map (" ++ toString entries
      ++ " entries)"

end LocationError

/-! ### Tables -/

/-- The functions that have an entry point, by ascending entry point and then by name. -/
def FunctionEntry.table (functions : SortedMap String FunctionDebug) : List FunctionEntry :=
  let rows := functions.entries.filterMap fun (name, debug) =>
    debug.entryPoint.map fun entryPoint => { entryPoint, id := debug.id, name }
  rows.mergeSort fun a b => a.entryPoint ≤ b.entryPoint

/-- The line indices of generated sources by id; of two with one id the later counts. -/
def GeneratedSource.lines (sources : List GeneratedSource) : SortedMap Nat LineIndex :=
  .ofList (sources.map fun s => (s.id, LineIndex.ofText s.contents))

/-- The entries of a source map for access by number. -/
def SourceMap.table (text : String) : Except SourceMap.Error (Array SourceMap.Entry) :=
  (SourceMap.ofText? text).map List.toArray

/-- Creation or runtime bytecode with its debug information. -/
structure Bytecode where
  object : List UInt8 := []
  sourceMap : String := ""
  functions : SortedMap String FunctionDebug := ∅
  generated : List GeneratedSource := []
  instructions : Derived Instructions.ofCode object := .of _ _
  entries : Derived SourceMap.table sourceMap := .of _ _
  functionEntries : Derived FunctionEntry.table functions := .of _ _
  generatedLines : Derived GeneratedSource.lines generated := .of _ _

namespace Bytecode

instance : Inhabited Bytecode := ⟨{}⟩

/-! ### Lookup -/

/-- The source location of the instruction at `pc`. A counter that starts no instruction is refused
before the source map is looked at. -/
def locate (b : Bytecode) (pc : Nat) : Except LocationError SourceLocation :=
  match b.instructions.value.find? pc with
  | none => .error (.invalidPc pc)
  | some k =>
    match b.entries.value with
    | .error error => .error (.sourceMap error)
    | .ok entries =>
      match entries[k]? with
      | none => .error (.instructionOutOfRange k entries.size)
      | some e => .ok e.location

/-- The last entry whose entry point is not after `pc`. -/
def functionAt? (b : Bytecode) (pc : Nat) : Option FunctionEntry :=
  (b.functionEntries.value.takeWhile fun e => e.entryPoint ≤ pc).getLast?

/-- The function at `pc`, when it comes from a definition. -/
def userFunctionAt? (b : Bytecode) (pc : Nat) : Option FunctionEntry :=
  (b.functionAt? pc).filter fun e => e.id.isSome

/-- The first generated source of that id. -/
def generatedSource? (b : Bytecode) (file : Nat) : Option GeneratedSource :=
  b.generated.find? fun s => s.id == file

/-- The line index of the last generated source of that id. -/
def generatedLineIndex? (b : Bytecode) (file : Nat) : Option LineIndex :=
  b.generatedLines.value.find? file

end Bytecode

/-! ### Data -/

namespace FunctionDebug

def toJson (d : FunctionDebug) : Json :=
  .object [("entryPoint", Json.option Json.nat d.entryPoint), ("id", Json.option Json.nat d.id),
    ("parameterSlots", Json.option Json.nat d.parameterSlots),
    ("returnSlots", Json.option Json.nat d.returnSlots)]

def ofJson? (j : Json) : Option FunctionDebug := do
  let fs ← j.fields? ["entryPoint", "id", "parameterSlots", "returnSlots"]
  let entryPoint ← fs.optional "entryPoint" Json.readNat32
  let id ← fs.optional "id" Json.readNat32
  let parameterSlots ← fs.optional "parameterSlots" Json.readNat32
  let returnSlots ← fs.optional "returnSlots" Json.readNat32
  return { entryPoint, id, parameterSlots, returnSlots }

end FunctionDebug

namespace GeneratedSource

def toJson (s : GeneratedSource) : Json :=
  .object [("ast", s.ast), ("contents", .string s.contents), ("id", .nat s.id),
    ("language", .string s.language), ("name", .string s.name)]

def ofJson? (j : Json) : Option GeneratedSource := do
  let fs ← j.fields? ["ast", "contents", "id", "language", "name"]
  let ast ← fs.required "ast" Json.readAny
  let contents ← fs.required "contents" Json.readString
  let id ← fs.required "id" Json.readNat32
  let language ← fs.required "language" Json.readString
  let name ← fs.required "name" Json.readString
  return { ast, contents, id, language, name }

end GeneratedSource

namespace Bytecode

def toJson (b : Bytecode) : Json :=
  .object [("object", .string (String.ofList (Text.hex b.object))),
    ("sourceMap", .string b.sourceMap),
    ("functionDebugData", Json.ofMap id FunctionDebug.toJson b.functions),
    ("generatedSources", Json.list GeneratedSource.toJson b.generated)]

/-- Reads bytecode; every field has a default. -/
def ofJson? (j : Json) : Option Bytecode := do
  let fs ← j.fields? ["object", "sourceMap", "functionDebugData", "generatedSources"]
  let object ← fs.withDefault "object" Json.readBytes []
  let sourceMap ← fs.withDefault "sourceMap" Json.readString ""
  let functions ← fs.withDefault "functionDebugData" (Json.readMap some FunctionDebug.ofJson?) ∅
  let generated ← fs.withDefault "generatedSources" (Json.readList GeneratedSource.ofJson?) []
  return { object, sourceMap, functions, generated }

end Bytecode

end TraceTree
