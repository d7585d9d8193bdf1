import TraceTree.Text

/-!
Strings as TOML writes them: on one line or on many, with escapes between double quotes and without
between single quotes. No control character but the tab stands for itself.
-/
namespace TraceTree.Toml

/-- The blanks within a line. -/
def isSpace (c : Char) : Bool := c == ' ' || c == '\t'

/-- The characters that stand for themselves in comments and strings. -/
def isPlain (c : Char) : Bool := c == '\t' || (0x20 ≤ c.toNat && c.toNat != 0x7F)

namespace Quoted

/-- The quote of a string without escapes. -/
def single : Char := '\x27'

/-- The number of the next `n` characters, which must be hexadecimal digits. -/
def hexNumber? (n : Nat) (cs : List Char) : Option Nat := do
  let ds ← (cs.take n).mapM Text.hexValue?
  guard (ds.length = n)
  return ds.foldl (fun v d => 16 * v + d) 0

/-- The character with that number; half a surrogate pair is none. -/
def charOf? (n : Nat) : Option Char := if n.isValidChar then some (Char.ofNat n) else none

/-- The character that an escape with one letter stands for. -/
def shortEscape? : Char → Option Char
  | '"' => some '"'
  | '\\' => some '\\'
  | 'b' => some '\x08'
  | 'e' => some '\x1b'
  | 'f' => some '\x0c'
  | 'n' => some '\n'
  | 'r' => some '\r'
  | 't' => some '\t'
  | _ => none

/-- How many digits the number of an escape has. -/
def escapeWidth : Char → Nat
  | 'x' => 2
  | 'u' => 4
  | 'U' => 8
  | _ => 0

/-- The character of an escape from the letter `e` and what follows it, and how many characters the
escape takes up after the letter. -/
def escape? (e : Char) (cs : List Char) : Option (Char × Nat) :=
  match escapeWidth e with
  | 0 => (shortEscape? e).map fun c => (c, 0)
  | n => ((hexNumber? n cs).bind charOf?).map fun c => (c, n)

/-! ### On one line -/

/-- The rest of a string in double quotes after the characters `done`, which stand last first. -/
def basic? (done : List Char) : List Char → Option (List Char × List Char)
  | [] => none
  | '"' :: rest => some (done.reverse, rest)
  | '\\' :: e :: rest =>
    match escape? e rest with
    | some (c, n) => basic? (c :: done) (rest.drop n)
    | none => none
  | c :: rest => if isPlain c && c != '\\' then basic? (c :: done) rest else none
termination_by cs => cs.length
decreasing_by
  · simp only [List.length_cons, List.length_drop]; omega
  · simp only [List.length_cons]; omega

/-- The rest of a string in single quotes. -/
def literal? (cs : List Char) : Option (List Char × List Char) :=
  match cs.span fun c => isPlain c && c != single with
  | (text, c :: rest) => if c = single then some (text, rest) else none
  | (_, []) => none

/-! ### On many lines -/

/-- The text without a line end at its head. -/
def newline? : List Char → Option (List Char)
  | '\n' :: rest => some rest
  | '\r' :: '\n' :: rest => some rest
  | _ => none

/-- The text without blanks and line ends at its head. -/
def skipLines : List Char → List Char
  | '\r' :: '\n' :: rest => skipLines rest
  | c :: rest => if isSpace c || c == '\n' then skipLines rest else c :: rest
  | [] => []

theorem length_skipLines_le (cs : List Char) : (skipLines cs).length ≤ cs.length := by
  fun_induction skipLines cs <;> simp_all <;> omega

/-- Whether a line ends at the head of the text, but for blanks. -/
def endsLine (cs : List Char) : Bool := (newline? (cs.dropWhile isSpace)).isSome

/-- How many of the quote `q` end a string on many lines at its head: three, with up to two before
them that belong to the string. -/
def closing? (q : Char) (cs : List Char) : Option Nat :=
  let n := (cs.takeWhile (· == q)).length
  if n < 3 then none else some (min n 5)

/-- The rest of a string in three double quotes. A backslash at the end of a line takes the blanks
and line ends after it away. -/
def longBasic? (done : List Char) (cs : List Char) : Option (List Char × List Char) :=
  match closing? '"' cs with
  | some n => some (done.reverse ++ List.replicate (n - 3) '"', cs.drop n)
  | none =>
    match cs with
    | [] => none
    | '\r' :: '\n' :: rest => longBasic? ('\n' :: done) rest
    | '\\' :: e :: rest =>
      if endsLine (e :: rest) then longBasic? done (skipLines (e :: rest))
      else match escape? e rest with
        | some (c, n) => longBasic? (c :: done) (rest.drop n)
        | none => none
    | c :: rest =>
      if c != '\\' && (isPlain c || c == '\n') then longBasic? (c :: done) rest else none
termination_by cs.length
decreasing_by
  · simp only [List.length_cons]; omega
  · exact Nat.lt_succ_of_le (length_skipLines_le _)
  · simp only [List.length_cons, List.length_drop]; omega
  · simp only [List.length_cons]; omega

/-- The rest of a string in three single quotes. -/
def longLiteral? (done : List Char) (cs : List Char) : Option (List Char × List Char) :=
  match closing? single cs with
  | some n => some (done.reverse ++ List.replicate (n - 3) single, cs.drop n)
  | none =>
    match cs with
    | [] => none
    | '\r' :: '\n' :: rest => longLiteral? ('\n' :: done) rest
    | c :: rest => if isPlain c || c == '\n' then longLiteral? (c :: done) rest else none

/-- A string at the head of a text; a line end right after three quotes is no part of it. -/
def string? (cs : List Char) : Option (List Char × List Char) :=
  let afterBreak (cs : List Char) : List Char := (newline? cs).getD cs
  match cs with
  | '"' :: '"' :: '"' :: rest => longBasic? [] (afterBreak rest)
  | '"' :: rest => basic? [] rest
  | '\x27' :: '\x27' :: '\x27' :: rest => longLiteral? [] (afterBreak rest)
  | '\x27' :: rest => literal? rest
  | _ => none

end Quoted

end TraceTree.Toml
