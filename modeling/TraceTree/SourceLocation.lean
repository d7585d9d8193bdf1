import TraceTree.SourceRange

/-!
Source locations of instructions. A raw location comes straight from the source map; where it is
not valid the last valid one stands in for it.
-/
namespace TraceTree

/-- What a jump instruction does, as far as the compiler tells. -/
inductive JumpKind where
  | into
  | out
  | other
  deriving DecidableEq, Inhabited

/-- The source location of one instruction; without a file it belongs to no source. -/
structure SourceLocation where
  file : Option Nat
  start : Nat
  length : Nat
  jump : JumpKind
  deriving DecidableEq, Inhabited

namespace JumpKind

def name : JumpKind → String
  | into => "In"
  | out => "Out"
  | other => "Other"

def ofName? : String → Option JumpKind
  | "In" => some into
  | "Out" => some out
  | "Other" => some other
  | _ => none

def toJson (k : JumpKind) : Json := .string k.name

def ofJson? (j : Json) : Option JumpKind := (Json.readTag j).bind ofName?

end JumpKind

namespace SourceLocation

/-- The offset right after the location, a number of 64 bits. -/
def stop (l : SourceLocation) : Nat := (l.start + l.length) % Text.bound64

/-- The range that the location covers, when it has a file. -/
def range? (l : SourceLocation) : Option SourceRange :=
  l.file.map fun file => { file, start := l.start, length := l.length }

/-- Whether `other` lies within this location. No file counts as a file of its own. -/
def includes (l other : SourceLocation) : Bool :=
  l.file == other.file && l.start ≤ other.start && other.stop ≤ l.stop

theorem includes_iff {l other : SourceLocation} :
    l.includes other ↔ l.file = other.file ∧ l.start ≤ other.start ∧ other.stop ≤ l.stop := by
  simp [includes, and_assoc]

/-- The location to show: `raw` when it is valid, else the last valid one, and `raw` again when
there was none. -/
def orLastValid (raw : SourceLocation) (isValid : Bool) (lastValid : Option SourceLocation) :
    SourceLocation :=
  if isValid then raw else lastValid.getD raw

def toJson (l : SourceLocation) : Json :=
  .object [("file", Json.option Json.nat l.file), ("start", .nat l.start),
    ("length", .nat l.length), ("jump", l.jump.toJson)]

def ofJson? (j : Json) : Option SourceLocation := do
  let fs ← j.fields? ["file", "start", "length", "jump"]
  let file ← fs.optional "file" Json.readNat32
  let start ← fs.required "start" Json.readNat64
  let length ← fs.required "length" Json.readNat64
  let jump ← fs.required "jump" JumpKind.ofJson?
  return { file, start, length, jump }

end SourceLocation

end TraceTree
