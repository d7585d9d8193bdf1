import TraceTree.Json.Basic
import TraceTree.Text

/-!
Writing JSON texts without blanks between tokens.
-/
namespace TraceTree.Json

/-- A character inside a string: quotes, backslashes and control characters are escaped. -/
def escape (c : Char) : String :=
  if c = '"' then "\\\""
  else if c = '\\' then "\\\\"
  else if c = '\n' then "\\n"
  else if c = '\r' then "\\r"
  else if c = '\t' then "\\t"
  else if c.toNat < 0x20 then
    "\\u00" ++ String.ofList [Text.hexDigit (c.toNat / 16), Text.hexDigit (c.toNat % 16)]
  else String.singleton c

/-- Appends a quoted text. -/
def appendString (out : String) (s : String) : String :=
  (s.toList.foldl (fun out c => out ++ escape c) (out.push '"')).push '"'

mutual

/-- Appends the text of a value, `null` for one that nobody can read. -/
def append (out : String) : Json → String
  | .null | .unreadable => out ++ "null"
  | .bool true => out ++ "true"
  | .bool false => out ++ "false"
  | .integer n => out ++ toString n
  | .decimal t => out ++ t
  | .string s => appendString out s
  | .array [] => out ++ "[]"
  | .array (x :: xs) => (appendItems (append (out.push '[') x) xs).push ']'
  | .object [] => out ++ "\x7b\x7d"
  | .object ((k, v) :: ms) =>
    (appendMembers (append ((appendString (out.push '\x7b') k).push ':') v) ms).push '\x7d'

def appendItems (out : String) : List Json → String
  | [] => out
  | x :: xs => appendItems (append (out.push ',') x) xs

def appendMembers (out : String) : List (String × Json) → String
  | [] => out
  | (k, v) :: ms =>
    appendMembers (append ((appendString (out.push ',') k).push ':') v) ms

end

/-- The text of a value. -/
def render (j : Json) : String := append "" j

end TraceTree.Json
