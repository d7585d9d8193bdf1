import TraceTree.Text

/-!
Types of the contract interface, their text and its canonical form. In text a name may be qualified
by a dot, blanks may stand after an opening parenthesis and after commas, and the word `tuple` may
stand before a parenthesis.
-/
namespace TraceTree

inductive AbiType where
  | address
  | bool
  | string
  | bytes
  | function
  | uint (bits : Nat)
  | int (bits : Nat)
  | fixedBytes (size : Nat)
  | array (item : AbiType)
  | fixedArray (item : AbiType) (size : Nat)
  | tuple (items : List AbiType)
  deriving Repr, Inhabited

namespace AbiType

/-! ### Canonical text -/

mutual

/-- The canonical name. A tuple of one has a comma after its item. -/
def render : AbiType → List Char
  | address => "address".toList
  | bool => "bool".toList
  | string => "string".toList
  | bytes => "bytes".toList
  | function => "function".toList
  | uint bits => "uint".toList ++ Text.digits bits
  | int bits => "int".toList ++ Text.digits bits
  | fixedBytes size => "bytes".toList ++ Text.digits size
  | array item => item.render ++ ['[', ']']
  | fixedArray item size => item.render ++ '[' :: Text.digits size ++ [']']
  | tuple [] => ['(', ')']
  | tuple [item] => '(' :: item.render ++ [',', ')']
  | tuple (item :: items) => '(' :: item.render ++ renderRest items ++ [')']

/-- Items that follow another, each after a comma. -/
def renderRest : List AbiType → List Char
  | [] => []
  | item :: items => ',' :: item.render ++ renderRest items

end

/-! ### Names -/

def isNameStart (c : Char) : Bool := c.isAlpha || c == '_' || c == '$'

def isNameRest (c : Char) : Bool := c.isAlphanum || c == '_' || c == '$'

/-- Splits off a name. -/
def name? : List Char → Option (List Char × List Char)
  | [] => none
  | c :: cs =>
    if isNameStart c then some (c :: cs.takeWhile isNameRest, cs.dropWhile isNameRest) else none

/-- A width in bits: 8 to 256 by eights. -/
def bits? (cs : List Char) : Option Nat :=
  (Text.digits? cs).filter fun n => 8 ≤ n && n ≤ 256 && n % 8 == 0

/-- A number of bytes: 1 to 32. -/
def bytes? (cs : List Char) : Option Nat :=
  (Text.digits? cs).filter fun n => 1 ≤ n && n ≤ 32

/-- The type that a name stands for. -/
def ofName? (cs : List Char) : Option AbiType :=
  if cs = "address".toList then some address
  else if cs = "bool".toList then some bool
  else if cs = "string".toList then some string
  else if cs = "bytes".toList then some bytes
  else if cs = "function".toList then some function
  else if cs = "uint".toList then some (uint 256)
  else if cs = "int".toList then some (int 256)
  else (("uint".toList.isPrefixOf? cs).bind bits?).map uint
    <|> (("int".toList.isPrefixOf? cs).bind bits?).map int
    <|> (("bytes".toList.isPrefixOf? cs).bind bytes?).map fixedBytes

/-- A name, or two with a dot between them, of which the second may be missing. A qualified name
stands for an enumeration, whatever it is. -/
def root? (cs : List Char) : Option (AbiType × List Char) :=
  match name? cs with
  | none => none
  | some (_, '.' :: rest) =>
    match name? rest with
    | some (_, rest) => some (uint 8, rest)
    | none => some (uint 8, rest)
  | some (word, rest) => (ofName? word).map fun t => (t, rest)

/-! ### Suffixes -/

/-- The size between brackets: empty for none, or a number from 1 below 2 ^ 64. -/
def size? (ds : List Char) : Option (Option Nat) :=
  if ds.isEmpty then some none
  else ((Text.digits? ds).filter fun n => 0 < n && n < Text.bound64).map some

/-- The array type that a size makes. -/
def ofSize (item : AbiType) : Option Nat → AbiType
  | none => array item
  | some n => fixedArray item n

/-- Takes the brackets that follow an item, from the inside out. -/
def suffixes? (item : AbiType) (cs : List Char) : Option (AbiType × List Char) :=
  match cs with
  | '[' :: cs =>
    match _h : cs.dropWhile Char.isDigit with
    | ']' :: rest => (size? (cs.takeWhile Char.isDigit)).bind fun n => suffixes? (item.ofSize n) rest
    | _ => none
  | cs => some (item, cs)
termination_by cs.length
decreasing_by
  have := (List.dropWhile_suffix (l := cs) Char.isDigit).length_le
  rw [_h] at this
  simp only [List.length_cons] at this ⊢
  omega

/-! ### Types -/

/-- The blanks inside a tuple. -/
def skipBlanks (cs : List Char) : List Char := cs.dropWhile fun c => c == ' ' || c == '\t'

/-- How many tuples with items may be nested. One without items may stand in the innermost of
them. -/
def maxTuples : Nat := 79

/-- What stands after the parenthesis that opens a tuple. -/
def tupleBody? (cs : List Char) : Option (List Char) :=
  "tuple(".toList.isPrefixOf? cs <|> ['('].isPrefixOf? cs

mutual

/-- A type at the head of a text, with at most `tuples` nested tuples that have items. -/
def type? : Nat → Nat → List Char → Option (AbiType × List Char)
  | 0, _, _ => none
  | fuel + 1, tuples, cs =>
    match tupleBody? cs with
    | none => (root? cs).bind fun (t, rest) => suffixes? t rest
    | some body =>
      match skipBlanks body, tuples with
      | ')' :: rest, _ => suffixes? (tuple []) rest
      | _, 0 => none
      | body, tuples + 1 =>
        (items? fuel tuples body).bind fun (ts, rest) => suffixes? (tuple ts) rest

/-- The items of a tuple up to its closing parenthesis. -/
def items? : Nat → Nat → List Char → Option (List AbiType × List Char)
  | 0, _, _ => none
  | fuel + 1, tuples, cs =>
    match type? fuel tuples cs with
    | none => none
    | some (t, ',' :: rest) =>
      match skipBlanks rest with
      | ')' :: rest => some ([t], rest)
      | rest => (items? fuel tuples rest).map fun (ts, rest) => (t :: ts, rest)
    | some (t, rest) =>
      match skipBlanks rest with
      | ')' :: rest => some ([t], rest)
      | _ => none

end

/-- The type that a whole text spells. Each item and each tuple takes at least one character, so
twice the length bounds the descent. -/
def ofText? (cs : List Char) : Option AbiType :=
  match type? (2 * cs.length + 2) maxTuples cs with
  | some (t, []) => some t
  | _ => none

end AbiType

end TraceTree
