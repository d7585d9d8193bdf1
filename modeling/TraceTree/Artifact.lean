import TraceTree.Bytecode
import TraceTree.Declaration

/-!
What the compiler gives for one contract: the sources with their syntax trees, and the bytecode for
creation and for running. It answers which locations can be shown, which function is around a range,
and where an offset lies in its file.
-/
namespace TraceTree

/-- A source file of a compilation. -/
structure SourceFile where
  id : Nat
  path : String
  content : String := ""
  ast : Json := .null
  declarations : Derived Declarations.ofTree ast := .of _ _
  lines : Derived LineIndex.ofText content := .of _ _
  deriving Inhabited

/-- The compiler's output for one contract. -/
structure Artifact where
  contractName : String
  abi : List Json := []
  sources : SortedMap Nat SourceFile := ∅
  creation : Bytecode := {}
  deployed : Bytecode := {}
  deriving Inhabited

namespace Artifact

/-- The bytecode for creation or for running. -/
def bytecode (a : Artifact) (isCreation : Bool) : Bytecode :=
  if isCreation then a.creation else a.deployed

/-- How many sources there are. -/
def sourceCount (a : Artifact) : Nat := a.sources.size

/-- The source under that number. -/
def source? (a : Artifact) (file : Nat) : Option SourceFile := a.sources.find? file

/-- Whether a location can be shown: its file is below the number of sources, or it is a generated
source and those are wanted. -/
def isValidLocation (a : Artifact) (location : SourceLocation) (bytecode : Bytecode)
    (includeGenerated : Bool) : Bool :=
  match location.file with
  | none => false
  | some file =>
    file < a.sourceCount || (includeGenerated && (bytecode.generatedSource? file).isSome)

/-- The function definition of that id, from the first source that has one. -/
def functionDefinition? (a : Artifact) (id : Nat) : Option FunctionDefinition :=
  a.sources.values.findSome? fun s => s.declarations.value.function? id

/-- The shortest function around a range. -/
def functionContaining? (a : Artifact) (range : SourceRange) : Option FunctionDefinition :=
  (a.source? range.file).bind fun s => s.declarations.value.functionContaining? range

/-- The variables that come into being at exactly that range. -/
def localsAt (a : Artifact) (range : SourceRange) : List VariableDeclaration :=
  match a.source? range.file with
  | some s => s.declarations.value.localsAt range
  | none => []

/-- The lines of a file: of a source, else of a generated source. -/
def lineIndex? (a : Artifact) (bytecode : Bytecode) (file : Nat) : Option LineIndex :=
  match a.source? file with
  | some s => some s.lines.value
  | none => bytecode.generatedLineIndex? file

/-- The lines and columns of a location. -/
def lineColumn? (a : Artifact) (bytecode : Bytecode) (location : SourceLocation) :
    Option LineColumnRange := do
  let file ← location.file
  let index ← a.lineIndex? bytecode file
  return index.range location.start location.length

end Artifact

/-! ### Data -/

namespace SourceFile

def toJson (s : SourceFile) : Json :=
  .object [("id", .nat s.id), ("path", .string s.path), ("content", .string s.content),
    ("ast", s.ast)]

def ofJson? (j : Json) : Option SourceFile := do
  let fs ← j.fields? ["id", "path", "content", "ast"]
  let id ← fs.required "id" Json.readNat32
  let path ← fs.required "path" Json.readString
  let content ← fs.withDefault "content" Json.readString ""
  let ast ← fs.withDefault "ast" Json.readAny .null
  return { id, path, content, ast }

end SourceFile

namespace Artifact

/-- The key of a source in data. -/
def fileKey (file : Nat) : String := String.ofList (Text.digits file)

def toJson (a : Artifact) : Json :=
  .object [("contractName", .string a.contractName), ("abi", .array a.abi),
    ("sources", Json.ofMap fileKey SourceFile.toJson a.sources),
    ("creation", a.creation.toJson), ("deployed", a.deployed.toJson)]

def ofJson? (j : Json) : Option Artifact := do
  let fs ← j.fields? ["contractName", "abi", "sources", "creation", "deployed"]
  let contractName ← fs.required "contractName" Json.readString
  let abi ← fs.withDefault "abi" Json.asArray? []
  let sources ← fs.required "sources" (Json.readMap (Json.readNatKey Text.bound32) SourceFile.ofJson?)
  let creation ← fs.required "creation" Bytecode.ofJson?
  let deployed ← fs.required "deployed" Bytecode.ofJson?
  return { contractName, abi, sources, creation, deployed }

end Artifact

end TraceTree
