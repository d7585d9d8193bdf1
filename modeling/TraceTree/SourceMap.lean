import TraceTree.SourceLocation

/-!
Compressed source maps. Entries end at semicolons and have up to five fields between colons:
offset, length, file index, jump mark and modifier depth. A field that an entry leaves out keeps
the value of the entry before.
-/
namespace TraceTree.SourceMap

/-- What a source map says of one instruction. -/
structure Entry where
  offset : Nat
  length : Nat
  index : Option Nat
  jump : JumpKind
  depth : Nat
  deriving DecidableEq, Inhabited

/-- What the first entry's fields fall back to. -/
def Entry.first : Entry := { offset := 0, length := 0, index := none, jump := .into, depth := 0 }

/-! ### Tokens -/

inductive Token where
  | endEntry
  | nextField
  | jump (kind : JumpKind)
  | number (isNegative : Bool) (magnitude : Nat)
  | stray (c : Char)
  deriving DecidableEq

/-- The token of a single character that starts no number. -/
def Token.ofChar (c : Char) : Token :=
  if c = ';' then .endEntry
  else if c = ':' then .nextField
  else if c = 'i' then .jump .into
  else if c = 'o' then .jump .out
  else if c = '-' then .jump .other
  else .stray c

/-- The tokens of a text that starts at byte `pos`, each with its own position. A minus sign right
before a digit belongs to the number. -/
def tokens (pos : Nat) : List Char → List (Nat × Token)
  | [] => []
  | c :: cs =>
    let ds := cs.takeWhile Char.isDigit
    let rest := cs.dropWhile Char.isDigit
    if c.isDigit then
      (pos, .number false (Text.valueOfDigits (c :: ds))) :: tokens (pos + 1 + ds.length) rest
    else if c = '-' ∧ ¬ ds.isEmpty then
      (pos, .number true (Text.valueOfDigits ds)) :: tokens (pos + 1 + ds.length) rest
    else (pos, .ofChar c) :: tokens (pos + c.utf8Size) cs
termination_by cs => cs.length
decreasing_by
  all_goals simp only [List.length_cons]
  · have := (List.dropWhile_suffix (l := cs) Char.isDigit).length_le; omega
  · have := (List.dropWhile_suffix (l := cs) Char.isDigit).length_le; omega
  · omega

/-! ### Faults -/

inductive Field where
  | offset
  | length
  | index
  | jump
  | depth
  deriving DecidableEq, Inhabited

namespace Field

def name : Field → String
  | offset => "offset"
  | length => "length"
  | index => "index"
  | jump => "jump"
  | depth => "modifier depth"

/-- The field after the next colon. -/
def next? : Field → Option Field
  | offset => some length
  | length => some index
  | index => some jump
  | jump => some depth
  | depth => none

end Field

/-- What can be wrong at a token. -/
inductive Fault where
  | unexpectedCharacter (c : Char)
  | numberForJump
  | aboveWord
  | belowWord
  | negative
  | tooLarge
  | alreadySet (field : Field)
  | unexpectedColon
  deriving DecidableEq

def Fault.message : Fault → String
  | .unexpectedCharacter c => "unexpected character: " ++ String.singleton c
  | .numberForJump => "expected jump, found number"
  | .aboveWord => "number too large to fit in target type"
  | .belowWord => "number too small to fit in target type"
  | .negative => "unexpected negative number"
  | .tooLarge => "number too large"
  | .alreadySet field => field.name ++ " already set"
  | .unexpectedColon => "unexpected colon"

/-- Why a source map is refused: a fault at a byte position, or an entry whose modifier depth is
too great. -/
inductive Error where
  | atToken (pos : Nat) (fault : Fault)
  | depthOverflow
  deriving DecidableEq

def Error.message : Error → String
  | .atToken pos fault =>
    "failed to parse source map: [" ++ toString pos ++ "] " ++ fault.message
  | .depthOverflow => "failed to parse source map: modifier depth overflow"

/-! ### Entries -/

/-- An entry while it is read: the field in turn and what has been set. -/
structure Draft where
  field : Field := .offset
  offset : Option Nat := none
  length : Option Nat := none
  index : Option (Option Nat) := none
  jump : Option JumpKind := none
  depth : Option Nat := none

/-- The greatest modifier depth of an entry. -/
def maxDepth : Nat := 1073741823

/-- The value of a number token: minus one, or up to 32 bits. -/
def numberOf (isNegative : Bool) (magnitude : Nat) : Except Fault Int :=
  if isNegative then
    if Text.bound63 < magnitude then .error .belowWord
    else if 1 < magnitude then .error .negative
    else .ok (-(magnitude : Int))
  else if Text.bound63 ≤ magnitude then .error .aboveWord
  else if Text.bound32 ≤ magnitude then .error .tooLarge
  else .ok magnitude

/-- A file index; minus one and the reserved number mean no file. -/
def indexOf (n : Int) : Option Nat :=
  if n < 0 ∨ n.toNat = SourceRange.noFile then none else some n.toNat

namespace Draft

/-- Sets the field in turn; minus one is zero for all but the index. -/
def setNumber (d : Draft) (n : Int) : Except Fault Draft :=
  match d.field with
  | .offset =>
    if d.offset.isSome then .error (.alreadySet .offset)
    else .ok { d with offset := some n.toNat }
  | .length =>
    if d.length.isSome then .error (.alreadySet .length)
    else .ok { d with length := some n.toNat }
  | .index =>
    if d.index.isSome then .error (.alreadySet .index)
    else .ok { d with index := some (indexOf n) }
  | .jump => .error .numberForJump
  | .depth =>
    if d.depth.isSome then .error (.alreadySet .depth)
    else .ok { d with depth := some n.toNat }

/-- Takes a token inside an entry. A jump mark may stand at any field. -/
def accept (d : Draft) : Token → Except Fault Draft
  | .endEntry => .ok d
  | .nextField =>
    match d.field.next? with
    | some field => .ok { d with field }
    | none => .error .unexpectedColon
  | .jump kind =>
    if d.jump.isSome then .error (.alreadySet .jump) else .ok { d with jump := some kind }
  | .number isNegative magnitude =>
    if d.field = .jump then .error .numberForJump
    else match numberOf isNegative magnitude with
      | .ok n => d.setNumber n
      | .error fault => .error fault
  | .stray c => .error (.unexpectedCharacter c)

/-- The entry, with the fields of the one before where none were set. -/
def toEntry (d : Draft) (last : Entry) : Entry :=
  { offset := d.offset.getD last.offset
    length := d.length.getD last.length
    index := d.index.getD last.index
    jump := d.jump.getD last.jump
    depth := d.depth.getD last.depth }

def finish (d : Draft) (last : Entry) : Except Error Entry :=
  let e := d.toEntry last
  if maxDepth < e.depth then .error .depthOverflow else .ok e

end Draft

/-- The entries that the tokens make up, after the entry `last` and a begun one. The first fault
counts. -/
def entriesFrom (last : Entry) (d : Draft) : List (Nat × Token) → Except Error (List Entry)
  | [] => (d.finish last).map fun e => [e]
  | (_, .endEntry) :: rest =>
    match d.finish last with
    | .error err => .error err
    | .ok e => (entriesFrom e {} rest).map (e :: ·)
  | (pos, t) :: rest =>
    match d.accept t with
    | .error fault => .error (.atToken pos fault)
    | .ok d => entriesFrom last d rest

/-- The entries of a source map; the empty text has none. -/
def ofText? (text : String) : Except Error (List Entry) :=
  if text.isEmpty then .ok [] else entriesFrom .first {} (tokens 0 text.toList)

namespace Entry

/-- The source location that an entry gives. -/
def location (e : Entry) : SourceLocation :=
  { file := e.index, start := e.offset, length := e.length, jump := e.jump }

/-- The jump mark as it is written. -/
def jumpMark (e : Entry) : String :=
  match e.jump with
  | .into => "i"
  | .out => "o"
  | .other => "-"

/-- The index as a signed number of 32 bits. -/
def signedIndex (e : Entry) : Int :=
  match e.index with
  | none => -1
  | some n => if n < Text.bound31 then n else n - Text.bound32

/-- The entry with all its fields. -/
def render (e : Entry) : String :=
  ":".intercalate
    [toString e.offset, toString e.length, toString e.signedIndex, e.jumpMark, toString e.depth]

end Entry

end TraceTree.SourceMap
