import TraceTree.Toml.Basic
import TraceTree.Toml.Moment
import TraceTree.Toml.Number
import TraceTree.Toml.Quoted

/-!
Reading TOML documents, in which lines give values to dotted names or open tables. A line is read by
itself; what it does to the tables so far is decided afterwards, so a document is a fold over its
lines.
-/
namespace TraceTree.Toml

/-! ### Between values -/

def skipSpace (cs : List Char) : List Char := cs.dropWhile isSpace

/-- The text after blanks, line ends and comments. -/
def skipGap (inComment : Bool) : List Char → List Char
  | [] => []
  | '\r' :: '\n' :: rest => skipGap false rest
  | c :: rest =>
    if c == '\n' then skipGap false rest
    else if inComment && isPlain c then skipGap true rest
    else if !inComment && c == '#' then skipGap true rest
    else if !inComment && isSpace c then skipGap false rest
    else c :: rest

/-- What follows a line of which nothing but blanks and a comment is left. -/
def lineEnd? (cs : List Char) : Option (List Char) :=
  let cs := match skipSpace cs with
    | '#' :: rest => rest.dropWhile isPlain
    | cs => cs
  if cs.isEmpty then some [] else Quoted.newline? cs

/-! ### Names -/

/-- The characters of a name without quotes. -/
def isNameChar (c : Char) : Bool := c.isAlphanum || c == '_' || c == '-'

/-- One part of a name. -/
def namePart? (cs : List Char) : Option (String × List Char) :=
  match cs with
  | '"' :: rest => (Quoted.basic? [] rest).map fun (s, rest) => (String.ofList s, rest)
  | '\x27' :: rest => (Quoted.literal? rest).map fun (s, rest) => (String.ofList s, rest)
  | cs =>
    match cs.span isNameChar with
    | ([], _) => none
    | (s, rest) => some (String.ofList s, rest)

/-- How many parts a name may have. -/
def maxParts : Nat := 80

/-- At most `room` parts of a name with dots between them, and the text after the blanks that follow
it. -/
def nameParts? : Nat → List Char → Option (List String × List Char)
  | 0, _ => none
  | room + 1, cs =>
    match namePart? (skipSpace cs) with
    | none => none
    | some (part, rest) =>
      match skipSpace rest with
      | '.' :: rest => (nameParts? room rest).map fun (parts, rest) => (part :: parts, rest)
      | rest => some ([part], rest)

/-- A dotted name. -/
def name? (cs : List Char) : Option (List String × List Char) := nameParts? maxParts cs

/-! ### Values -/

/-- The characters of truth values, numbers, dates and times. -/
def isScalarChar (c : Char) : Bool :=
  c.isAlphanum || c == '_' || c == '-' || c == '+' || c == '.' || c == ':'

/-- The text of a value without quotes and brackets. One space may stand between a date and a
time. -/
def scalarText (cs : List Char) : List Char × List Char :=
  match cs.span isScalarChar with
  | (date, ' ' :: d :: rest) =>
    if d.isDigit && Moment.isDate date then
      let (time, rest) := (d :: rest).span isScalarChar
      (date ++ ' ' :: time, rest)
    else (date, ' ' :: d :: rest)
  | split => split

/-- The value of a text without quotes and brackets. -/
def scalar? (cs : List Char) : Option Toml :=
  if cs = ['t', 'r', 'u', 'e'] then some (.bool true)
  else if cs = ['f', 'a', 'l', 's', 'e'] then some (.bool false)
  else match Number.integer? cs with
    | some n => some (.integer n)
    | none =>
      if Number.isFloat cs then some (.float (String.ofList cs))
      else if Moment.isMoment cs then some (.moment (String.ofList cs))
      else none

/-- How deep arrays and tables in braces may lie within each other. -/
def maxNesting : Nat := 80

mutual

/-- A value at the head of the text, with `room` for that many brackets within each other. -/
def value? : Nat → Nat → List Char → Option (Toml × List Char)
  | 0, _, _ => none
  | fuel + 1, room, cs =>
    match cs, room with
    | '[' :: rest, room + 1 =>
      (items? fuel room (skipGap false rest)).map fun (xs, rest) => (.array xs, rest)
    | '{' :: rest, room + 1 =>
      (entries? fuel room [] (skipGap false rest)).map fun (es, rest) => (.table .braces es, rest)
    | cs, _ =>
      match Quoted.string? cs with
      | some (s, rest) => some (.string (String.ofList s), rest)
      | none =>
        let (text, rest) := scalarText cs
        (scalar? text).map fun v => (v, rest)

/-- The items of an array up to its closing bracket. -/
def items? : Nat → Nat → List Char → Option (List Toml × List Char)
  | 0, _, _ => none
  | _ + 1, _, ']' :: rest => some ([], rest)
  | fuel + 1, room, cs =>
    match value? fuel room cs with
    | none => none
    | some (v, rest) =>
      match skipGap false rest with
      | ',' :: rest =>
        (items? fuel room (skipGap false rest)).map fun (vs, rest) => (v :: vs, rest)
      | ']' :: rest => some ([v], rest)
      | _ => none

/-- The entries of a table in braces, after those already there. Lines may end on both sides of the
equals sign, but not within a name. -/
def entries? : Nat → Nat → Entries → List Char → Option (Entries × List Char)
  | 0, _, _, _ => none
  | _ + 1, _, es, '}' :: rest => some (es, rest)
  | fuel + 1, room, es, cs =>
    match name? cs with
    | none => none
    | some (name, rest) =>
      match skipGap false rest with
      | '=' :: rest =>
        match value? fuel room (skipGap false rest) with
        | none => none
        | some (v, rest) =>
          match Entries.put v true name es, skipGap false rest with
          | some es, ',' :: rest => entries? fuel room es (skipGap false rest)
          | some es, '}' :: rest => some (es, rest)
          | _, _ => none
      | _ => none

end

/-! ### Lines -/

/-- What a line says: the value of a name in the open table, or the name of the table, or of the
next table of an array, that it opens. -/
inductive Line where
  | entry (name : List String) (value : Toml)
  | header (name : List String)
  | next (name : List String)

/-- A line at the head of the text, which starts with neither blank nor line end. -/
def line? (cs : List Char) : Option (Line × List Char) :=
  match cs with
  | '[' :: '[' :: rest =>
    match name? rest with
    | some (name, ']' :: ']' :: rest) => some (.next name, rest)
    | _ => none
  | '[' :: rest =>
    match name? rest with
    | some (name, ']' :: rest) => some (.header name, rest)
    | _ => none
  | cs =>
    match name? cs with
    | some (name, '=' :: rest) =>
      (value? (2 * rest.length + 2) maxNesting (skipSpace rest)).map fun (v, rest) =>
        (.entry name v, rest)
    | _ => none

/-- The lines of a text, at most `fuel` of them. -/
def lines? : Nat → List Char → Option (List Line)
  | 0, cs => if (skipGap false cs).isEmpty then some [] else none
  | fuel + 1, cs =>
    match skipGap false cs with
    | [] => some []
    | cs => do
      let (line, rest) ← line? cs
      let rest ← lineEnd? rest
      return line :: (← lines? fuel rest)

/-! ### Documents -/

/-- A document while it is read: its tables so far, and the name of the open one. -/
structure Draft where
  entries : Entries := []
  opened : List String := []

namespace Draft

/-- Takes a line up. -/
def add (d : Draft) : Line → Option Draft
  | .entry name v => do
    return { d with entries := ← Entries.within (Entries.put v true name) d.opened d.entries }
  | .header name => do
    let open? := Entries.openTable (← name.getLast?)
    return { entries := ← Entries.within open? name.dropLast d.entries, opened := name }
  | .next name => do
    let open? := Entries.openNext (← name.getLast?)
    return { entries := ← Entries.within open? name.dropLast d.entries, opened := name }

end Draft

/-- The entries of a TOML document. Each line takes at least one character, and a mark of byte order
in front is passed over. -/
def ofText? (text : String) : Option Entries := do
  let cs := match text.toList with
    | '\uFEFF' :: rest => rest
    | cs => cs
  let lines ← lines? cs.length cs
  let d ← lines.foldlM Draft.add {}
  return d.entries

end TraceTree.Toml
