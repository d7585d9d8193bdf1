import TraceTree.Json.Record
import TraceTree.Text

/-!
Byte ranges of source files, written `start:length:file`. The reserved file number stands for no
file and is written `-1`; any negative file number reads as it.
-/
namespace TraceTree

/-- A byte range in a source file. -/
structure SourceRange where
  file : Nat
  start : Nat
  length : Nat
  deriving DecidableEq, Inhabited

namespace SourceRange

/-- The number that stands for no file. -/
def noFile : Nat := Text.bound32 - 1

/-- The empty range of no file. -/
def nonExistent : SourceRange := ⟨noFile, 0, 0⟩

/-- Whether the range points into a file. -/
def isExistent (r : SourceRange) : Bool := r.file != noFile

/-- The offset right after the last byte, a number of 64 bits. -/
def stop (r : SourceRange) : Nat := (r.start + r.length) % Text.bound64

/-- Whether `other` lies inside this range of the same file. -/
def contains (r other : SourceRange) : Bool :=
  r.file == other.file && r.start ≤ other.start && other.stop ≤ r.stop

/-- The text of the range, when it is in bounds and starts and ends between characters. -/
def sliceOf? (r : SourceRange) (text : String) : Option String :=
  (Text.slice r.start r.length text.toList).map String.ofList

/-! ### Order -/

/-- The key that ranges are ordered by: file, then start, then length. -/
def key (r : SourceRange) : List Nat := [r.file, r.start, r.length]

instance : Ord SourceRange := ⟨fun a b => compare a.key b.key⟩

instance : Std.TransOrd SourceRange := inferInstanceAs (Std.TransCmp (compareOn key))

theorem key_injective {a b : SourceRange} (h : a.key = b.key) : a = b := by
  cases a; cases b; simp_all [key]

instance : Std.LawfulEqOrd SourceRange where
  eq_of_compare {a b} h :=
    key_injective (Std.LawfulEqCmp.eq_of_compare (show compare a.key b.key = .eq from h))

/-! ### Text -/

/-- The written form. -/
def render (r : SourceRange) : List Char :=
  let file := if r.isExistent then Text.digits r.file else ['-', '1']
  [':'].intercalate [Text.digits r.start, Text.digits r.length, file]

/-- The file that a number in a range's text means. -/
def fileOfNumber? : Int → Option Nat
  | .ofNat n => if n < Text.bound32 then some n else none
  | .negSucc _ => some noFile

/-- Reads a range; white space around it is allowed. -/
def ofText? (cs : List Char) : Option SourceRange :=
  match (Text.trim cs).splitOn ':' with
  | [start, length, file] => do
    let start ← Text.unsigned? Text.bound64 start
    let length ← Text.unsigned? Text.bound64 length
    let file ← (Text.signed? Text.bound63 file).bind fileOfNumber?
    return { file, start, length }
  | _ => none

/-- The message for a text that is no range. -/
def refusal (text : String) : String := "invalid source range \x60" ++ text ++ "\x60"

/-! ### Data -/

def toJson (r : SourceRange) : Json :=
  .object [("file", .nat r.file), ("start", .nat r.start), ("length", .nat r.length)]

def ofJson? (j : Json) : Option SourceRange := do
  let fs ← j.fields? ["file", "start", "length"]
  let file ← fs.required "file" Json.readNat32
  let start ← fs.required "start" Json.readNat64
  let length ← fs.required "length" Json.readNat64
  return { file, start, length }

end SourceRange

end TraceTree
