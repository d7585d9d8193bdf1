import TraceTree.Json.Basic
import TraceTree.Text

/-!
Reading JSON texts. The grammar is the strict one: no comments, no trailing commas, no leading
zeros, no control characters in strings, and nothing but blanks after the value.
-/
namespace TraceTree.Json

/-- The blanks between tokens. -/
def isSpace (c : Char) : Bool := c == ' ' || c == '\t' || c == '\n' || c == '\r'

def skipSpace (cs : List Char) : List Char := cs.dropWhile isSpace

/-! ### Numbers -/

/-- Splits off a non-empty run of digits. -/
def digitRun? (cs : List Char) : Option (List Char × List Char) :=
  match cs.span Char.isDigit with
  | ([], _) => none
  | (ds, rest) => some (ds, rest)

/-- The integer part of a number: a zero stands alone. -/
def integerPart? (cs : List Char) : Option (List Char × List Char) := do
  let (ds, rest) ← digitRun? cs
  guard (ds.head? ≠ some '0' ∨ ds.length = 1)
  return (ds, rest)

/-- An optional fraction. -/
def fraction? : List Char → Option (List Char × List Char)
  | '.' :: cs => (digitRun? cs).map fun (ds, rest) => ('.' :: ds, rest)
  | cs => some ([], cs)

/-- An optional exponent. -/
def exponent? : List Char → Option (List Char × List Char)
  | [] => some ([], [])
  | e :: cs =>
    if e = 'e' ∨ e = 'E' then
      let (sign, body) := match cs with
        | '+' :: r => (['+'], r)
        | '-' :: r => (['-'], r)
        | r => ([], r)
      (digitRun? body).map fun (ds, rest) => (e :: sign ++ ds, rest)
    else some ([], e :: cs)

/-- A number. Minus zero is kept as written, for it is no integer. -/
def number? (cs : List Char) : Option (Json × List Char) := do
  let (minus, body) := match cs with
    | '-' :: r => (true, r)
    | r => (false, r)
  let (whole, rest) ← integerPart? body
  let (frac, rest) ← fraction? rest
  let (expo, rest) ← exponent? rest
  let n := Text.valueOfDigits whole
  if frac.isEmpty && expo.isEmpty && !(minus && n == 0) then
    return (.integer (if minus then -(n : Int) else n), rest)
  else
    let sign := if minus then ['-'] else []
    return (.decimal (String.ofList (sign ++ whole ++ frac ++ expo)), rest)

/-! ### Strings -/

/-- The character that a short escape stands for. -/
def shortEscape? : Char → Option Char
  | '"' => some '"'
  | '\\' => some '\\'
  | '/' => some '/'
  | 'b' => some '\x08'
  | 'f' => some '\x0c'
  | 'n' => some '\n'
  | 'r' => some '\r'
  | 't' => some '\t'
  | _ => none

/-- The code unit of four hexadecimal digits. -/
def codeUnit? (a b c d : Char) : Option Nat := do
  let a ← Text.hexValue? a
  let b ← Text.hexValue? b
  let c ← Text.hexValue? c
  let d ← Text.hexValue? d
  return ((a * 16 + b) * 16 + c) * 16 + d

/-- A string while it is read: its characters so far, last first, the first half of a surrogate pair
when the second has yet to come, and whether some half stood alone. -/
structure Draft where
  chars : List Char := []
  half : Option Nat := none
  broken : Bool := false

namespace Draft

/-- Gives up a first half whose second did not come. -/
def settle (d : Draft) : Draft :=
  { d with half := none, broken := d.broken || d.half.isSome }

def push (d : Draft) (c : Char) : Draft :=
  let d := d.settle
  { d with chars := c :: d.chars }

/-- Adds a code unit: a character of its own, or one half of a pair. -/
def pushUnit (d : Draft) (u : Nat) : Draft :=
  if 0xDC00 ≤ u ∧ u < 0xE000 then
    match d.half with
    | some h =>
      let c := Char.ofNat (0x10000 + (h - 0xD800) * 0x400 + (u - 0xDC00))
      { d with chars := c :: d.chars, half := none }
    | none => { d with broken := true }
  else if 0xD800 ≤ u ∧ u < 0xDC00 then { d.settle with half := some u }
  else d.push (Char.ofNat u)

/-- The text read, none when half a surrogate pair stood alone in it. -/
def text? (d : Draft) : Option String :=
  let d := d.settle
  if d.broken then none else some (String.ofList d.chars.reverse)

def toJson (d : Draft) : Json :=
  match d.text? with
  | some s => .string s
  | none => .unreadable

end Draft

/-- The rest of a string after its opening quote. -/
def stringBody? (d : Draft) : List Char → Option (Draft × List Char)
  | '"' :: rest => some (d, rest)
  | '\\' :: 'u' :: a :: b :: c :: e :: rest =>
    match codeUnit? a b c e with
    | some u => stringBody? (d.pushUnit u) rest
    | none => none
  | '\\' :: e :: rest =>
    match shortEscape? e with
    | some c => stringBody? (d.push c) rest
    | none => none
  | c :: rest => if c.toNat < 0x20 ∨ c = '\\' then none else stringBody? (d.push c) rest
  | [] => none

/-! ### Values -/

/-- Puts a member in front of those of an object. -/
def addMember (rest : Json) (name : Option String) (v : Json) : Json :=
  match name, rest with
  | some s, .object ms => .object ((s, v) :: ms)
  | _, _ => .unreadable

mutual

/-- A value at the head of the text, which starts with no blank. -/
def value? : Nat → List Char → Option (Json × List Char)
  | 0, _ => none
  | fuel + 1, cs =>
    match cs with
    | 'n' :: 'u' :: 'l' :: 'l' :: rest => some (.null, rest)
    | 't' :: 'r' :: 'u' :: 'e' :: rest => some (.bool true, rest)
    | 'f' :: 'a' :: 'l' :: 's' :: 'e' :: rest => some (.bool false, rest)
    | '"' :: rest => (stringBody? {} rest).map fun (d, rest) => (d.toJson, rest)
    | '[' :: rest =>
      match skipSpace rest with
      | ']' :: rest => some (.array [], rest)
      | rest => (items? fuel rest).map fun (xs, rest) => (.array xs, rest)
    | '{' :: rest =>
      match skipSpace rest with
      | '}' :: rest => some (.object [], rest)
      | rest => members? fuel rest
    | cs => number? cs

/-- The items of an array up to its closing bracket. -/
def items? : Nat → List Char → Option (List Json × List Char)
  | 0, _ => none
  | fuel + 1, cs =>
    match value? fuel cs with
    | none => none
    | some (v, rest) =>
      match skipSpace rest with
      | ',' :: rest => (items? fuel (skipSpace rest)).map fun (vs, rest) => (v :: vs, rest)
      | ']' :: rest => some ([v], rest)
      | _ => none

/-- An object from its first member on. -/
def members? : Nat → List Char → Option (Json × List Char)
  | 0, _ => none
  | fuel + 1, cs =>
    match cs with
    | '"' :: rest =>
      match stringBody? {} rest with
      | none => none
      | some (name, rest) =>
        match skipSpace rest with
        | ':' :: rest =>
          match value? fuel (skipSpace rest) with
          | none => none
          | some (v, rest) =>
            match skipSpace rest with
            | ',' :: rest =>
              (members? fuel (skipSpace rest)).map fun (j, rest) => (j.addMember name.text? v, rest)
            | '}' :: rest => some ((object []).addMember name.text? v, rest)
            | _ => none
        | _ => none
    | _ => none

end

/-- The value of a JSON text. Each value and each list of parts takes at least one character, so
twice the length bounds the depth of the descent. -/
def ofText? (text : String) : Option Json :=
  let cs := text.toList
  match value? (2 * cs.length + 2) (skipSpace cs) with
  | some (v, rest) => if (skipSpace rest).isEmpty then some v else none
  | none => none

end TraceTree.Json
