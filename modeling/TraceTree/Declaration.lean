import TraceTree.SourceRange

/-!
Declarations of functions and variables, read from the nodes of a syntax tree in JSON, and their
index by id and by source range. The index is one fold over the visited nodes, which are all nodes
outside of inline assembly, each before the nodes inside it.
-/
namespace TraceTree

/-- A variable declaration. A parameter may have no name. -/
structure VariableDeclaration where
  id : Nat
  name : String
  src : SourceRange
  typeString : String
  storageLocation : Option String
  deriving DecidableEq, Inhabited

inductive FunctionKind where
  | function
  | constructor
  | fallback
  | receive
  deriving DecidableEq, Inhabited

/-- A function definition with its parameter lists. -/
structure FunctionDefinition where
  id : Nat
  name : String
  kind : FunctionKind
  src : SourceRange
  parameters : List VariableDeclaration
  returnParameters : List VariableDeclaration
  deriving DecidableEq, Inhabited

/-! ### Nodes -/

namespace SyntaxNode

/-- The type of a node. -/
def type? (node : Json) : Option String := (node.get "nodeType").asString?

/-- Inline assembly, whose inside declares nothing for the source language. -/
def isAssembly (node : Json) : Bool :=
  match type? node with
  | some t => t == "InlineAssembly" || "Yul".isPrefixOf t
  | none => false

theorem isAssembly_iff {node : Json} :
    isAssembly node ↔
      ∃ t, type? node = some t ∧ (t = "InlineAssembly" ∨ "Yul".toList <+: t.toList) := by
  rw [isAssembly]
  cases type? node with
  | none => simp
  | some t => simp [String.isPrefixOf, String.startsWith_string_iff]

mutual

/-- The objects of a tree in the order in which they are visited: each before what is inside it,
items and members in their order, and nothing of inline assembly. -/
def visited : Json → List Json
  | .array xs => visitedItems xs
  | .object ms => if isAssembly (.object ms) then [] else .object ms :: visitedMembers ms
  | _ => []

def visitedItems : List Json → List Json
  | [] => []
  | x :: xs => visited x ++ visitedItems xs

def visitedMembers : List (String × Json) → List Json
  | [] => []
  | (_, x) :: ms => visited x ++ visitedMembers ms

end

def id? (node : Json) : Option Nat := (node.get "id").asNat? Text.bound64

def src? (node : Json) : Option SourceRange :=
  (node.get "src").asString?.bind fun s => SourceRange.ofText? s.toList

/-- A text member, empty when it is missing. -/
def textOf (name : String) (node : Json) : String := ((node.get name).asString?).getD ""

end SyntaxNode

namespace FunctionKind

/-- The kind that a node names; whatever is no special function is a plain one. -/
def ofNode (node : Json) : FunctionKind :=
  match SyntaxNode.textOf "kind" node with
  | "constructor" => constructor
  | "fallback" => fallback
  | "receive" => receive
  | _ => function

def name : FunctionKind → String
  | function => "function"
  | constructor => "constructor"
  | fallback => "fallback"
  | receive => "receive"

def ofName? : String → Option FunctionKind
  | "function" => some function
  | "constructor" => some constructor
  | "fallback" => some fallback
  | "receive" => some receive
  | _ => none

end FunctionKind

namespace VariableDeclaration

/-- Reads a declaration; it needs an id and a source range. -/
def ofNode? (node : Json) : Option VariableDeclaration := do
  let id ← SyntaxNode.id? node
  let src ← SyntaxNode.src? node
  let typeString :=
    ((node.get "typeDescriptions").get "typeString").asString? <|>
      (((node.get "typeName").get "typeDescriptions").get "typeString").asString?
  let storageLocation := (node.get "storageLocation").asString?.filter (· != "default")
  return { id, name := SyntaxNode.textOf "name" node, src, typeString := typeString.getD "",
           storageLocation }

end VariableDeclaration

namespace FunctionDefinition

/-- The readable declarations of a parameter list. -/
def parametersOf (list : String) (node : Json) : List VariableDeclaration :=
  (((node.get list).get "parameters").asArray?.getD []).filterMap VariableDeclaration.ofNode?

/-- Reads a definition; it needs an id and a source range. -/
def ofNode? (node : Json) : Option FunctionDefinition := do
  let id ← SyntaxNode.id? node
  let src ← SyntaxNode.src? node
  return { id, name := SyntaxNode.textOf "name" node, kind := .ofNode node, src,
           parameters := parametersOf "parameters" node,
           returnParameters := parametersOf "returnParameters" node }

/-- The ids of all parameters. -/
def parameterIds (f : FunctionDefinition) : List Nat :=
  (f.parameters ++ f.returnParameters).map (·.id)

def isConstructor (f : FunctionDefinition) : Bool := f.kind == .constructor

/-- The name to show. -/
def displayName (f : FunctionDefinition) : String :=
  match f.kind with
  | .function => f.name
  | kind => kind.name

end FunctionDefinition

/-! ### The index -/

/-- The declarations of one source: functions by id, and local variables by the source ranges at
which they come into being. -/
structure Declarations where
  functions : SortedMap Nat FunctionDefinition := ∅
  locals : SortedMap SourceRange (List VariableDeclaration) := ∅
  deriving DecidableEq

namespace Declarations

instance : Inhabited Declarations := ⟨{}⟩

/-- The index over the nodes visited so far, and the ids of the parameters met in them. -/
structure Survey where
  index : Declarations := {}
  parameters : List Nat := []

namespace Survey

/-- Adds a function, over the one of the same id. -/
def addFunction (s : Survey) (f : FunctionDefinition) : Survey :=
  { index := { s.index with functions := s.index.functions.insert f.id f },
    parameters := s.parameters ++ f.parameterIds }

/-- Adds a variable at a range, unless one of the same id is there. -/
def addAt (s : Survey) (range : SourceRange) (v : VariableDeclaration) : Survey :=
  let there := (s.index.locals.find? range).getD []
  if there.any (·.id == v.id) then s
  else { s with index := { s.index with locals := s.index.locals.insert range (there ++ [v]) } }

/-- Adds the local variable that a node declares, at its own range or at a given one. State
variables and parameters are no locals. -/
def addLocal (range : Option SourceRange) (s : Survey) (node : Json) : Survey :=
  if Json.readBool (node.get "stateVariable") = some true then s
  else match VariableDeclaration.ofNode? node with
    | none => s
    | some v =>
      if s.parameters.contains v.id then s else s.addAt (range.getD v.src) v

/-- Takes in one visited node. The variables of a statement come into being where its initial value
stands. -/
def visit (s : Survey) (node : Json) : Survey :=
  match SyntaxNode.type? node with
  | some "FunctionDefinition" =>
    match FunctionDefinition.ofNode? node with
    | some f => s.addFunction f
    | none => s
  | some "VariableDeclaration" => s.addLocal none node
  | some "VariableDeclarationStatement" =>
    match SyntaxNode.src? (node.get "initialValue") with
    | some range =>
      ((node.get "declarations").asArray?.getD []).foldl (addLocal (some range)) s
    | none => s
  | _ => s

end Survey

/-- The declarations of a syntax tree. -/
def ofTree (tree : Json) : Declarations :=
  ((SyntaxNode.visited tree).foldl Survey.visit {}).index

def function? (d : Declarations) (id : Nat) : Option FunctionDefinition := d.functions.find? id

/-- The shortest function around a range; of two the one with the smaller id. -/
def functionContaining? (d : Declarations) (range : SourceRange) : Option FunctionDefinition :=
  (d.functions.values.filter fun f => f.src.contains range).minOn? fun f => f.src.length

/-- The variables that come into being at exactly that range. -/
def localsAt (d : Declarations) (range : SourceRange) : List VariableDeclaration :=
  (d.locals.find? range).getD []

end Declarations

/-! ### Data -/

namespace VariableDeclaration

def toJson (v : VariableDeclaration) : Json :=
  .object [("id", .nat v.id), ("name", .string v.name), ("src", v.src.toJson),
    ("type_string", .string v.typeString),
    ("storage_location", Json.option .string v.storageLocation)]

def ofJson? (j : Json) : Option VariableDeclaration := do
  let fs ← j.fields? ["id", "name", "src", "type_string", "storage_location"]
  let id ← fs.required "id" Json.readNat64
  let name ← fs.required "name" Json.readString
  let src ← fs.required "src" SourceRange.ofJson?
  let typeString ← fs.required "type_string" Json.readString
  let storageLocation ← fs.optional "storage_location" Json.readString
  return { id, name, src, typeString, storageLocation }

end VariableDeclaration

namespace FunctionDefinition

def toJson (f : FunctionDefinition) : Json :=
  .object [("id", .nat f.id), ("name", .string f.name), ("kind", .string f.kind.name),
    ("src", f.src.toJson), ("parameters", Json.list VariableDeclaration.toJson f.parameters),
    ("return_parameters", Json.list VariableDeclaration.toJson f.returnParameters)]

def ofJson? (j : Json) : Option FunctionDefinition := do
  let fs ← j.fields? ["id", "name", "kind", "src", "parameters", "return_parameters"]
  let id ← fs.required "id" Json.readNat64
  let name ← fs.required "name" Json.readString
  let kind ← fs.required "kind" fun j => (Json.readTag j).bind FunctionKind.ofName?
  let src ← fs.required "src" SourceRange.ofJson?
  let parameters ← fs.required "parameters" (Json.readList VariableDeclaration.ofJson?)
  let returnParameters ← fs.required "return_parameters" (Json.readList VariableDeclaration.ofJson?)
  return { id, name, kind, src, parameters, returnParameters }

end FunctionDefinition

end TraceTree
