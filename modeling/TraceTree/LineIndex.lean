import TraceTree.Json.Record

/-!
Lines and columns of byte offsets, both counted from zero. The line of an offset is the number of
line breaks before it, and offsets past the end stay on the last line.
-/
namespace TraceTree

/-- A line and a byte column in it. -/
structure LineColumn where
  line : Nat
  column : Nat
  deriving DecidableEq, Inhabited

/-- Where a stretch of text starts and where it has ended. -/
structure LineColumnRange where
  start : LineColumn
  stop : LineColumn
  deriving DecidableEq, Inhabited

/-- The offsets at which the lines after the first start, in ascending order. -/
structure LineIndex where
  laterStarts : List Nat
  deriving DecidableEq, Inhabited

namespace LineIndex

/-- The offsets right after the line breaks of a text that itself starts at `offset`. -/
def breaksFrom (offset : Nat) : List Char → List Nat
  | [] => []
  | c :: cs =>
    let next := offset + c.utf8Size
    if c = '\n' then next :: breaksFrom next cs else breaksFrom next cs

def ofText (text : String) : LineIndex := ⟨breaksFrom 0 text.toList⟩

def lineCount (index : LineIndex) : Nat := index.laterStarts.length + 1

/-- The line and column of a byte offset. -/
def lineColumn (index : LineIndex) (offset : Nat) : LineColumn :=
  let passed := index.laterStarts.takeWhile (· ≤ offset)
  { line := passed.length, column := offset - passed.getLastD 0 }

/-- The lines and columns of a stretch of text, whose end is an offset of 64 bits. -/
def range (index : LineIndex) (start length : Nat) : LineColumnRange :=
  { start := index.lineColumn start, stop := index.lineColumn ((start + length) % Text.bound64) }

end LineIndex

namespace LineColumn

def toJson (p : LineColumn) : Json :=
  .object [("line", .nat p.line), ("column", .nat p.column)]

def ofJson? (j : Json) : Option LineColumn := do
  let fs ← j.fields? ["line", "column"]
  let line ← fs.required "line" Json.readNat64
  let column ← fs.required "column" Json.readNat64
  return { line, column }

end LineColumn

namespace LineColumnRange

def toJson (r : LineColumnRange) : Json :=
  .object [("start", r.start.toJson), ("end", r.stop.toJson)]

def ofJson? (j : Json) : Option LineColumnRange := do
  let fs ← j.fields? ["start", "end"]
  let start ← fs.required "start" LineColumn.ofJson?
  let stop ← fs.required "end" LineColumn.ofJson?
  return { start, stop }

end LineColumnRange

end TraceTree
