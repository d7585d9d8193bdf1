import TraceTree.Text

/-!
Numbers as TOML writes them. Single underscores may stand between digits. An integer is decimal with
an optional sign, or hexadecimal, octal or binary without one, and has at most 128 bits; a number
with a fraction or exponent lies in the range of double precision.
-/
namespace TraceTree.Toml.Number

/-- A non-empty run of digits without the underscores that stand between them. -/
def ungroup? (isDigit : Char → Bool) : List Char → Option (List Char)
  | [] => none
  | [c] => if isDigit c then some [c] else none
  | c :: '_' :: rest => if isDigit c then (ungroup? isDigit rest).map (c :: ·) else none
  | c :: rest => if isDigit c then (ungroup? isDigit rest).map (c :: ·) else none

/-- The digits of a whole number: a zero stands alone. -/
def whole? (cs : List Char) : Option (List Char) :=
  (ungroup? Char.isDigit cs).filter fun ds => ds.head? != some '0' || ds.length == 1

/-- A number in digits of another base. -/
def inBase? (base : Nat) (cs : List Char) : Option Nat :=
  let value (c : Char) : Option Nat := (Text.hexValue? c).filter (· < base)
  (ungroup? (fun c => (value c).isSome) cs).map fun ds =>
    ds.foldl (fun n c => base * n + (value c).getD 0) 0

/-- An integer of any size. -/
def unbounded? : List Char → Option Int
  | '0' :: 'x' :: cs => (inBase? 16 cs).map Int.ofNat
  | '0' :: 'o' :: cs => (inBase? 8 cs).map Int.ofNat
  | '0' :: 'b' :: cs => (inBase? 2 cs).map Int.ofNat
  | '+' :: cs => (whole? cs).map fun ds => Text.valueOfDigits ds
  | '-' :: cs => (whole? cs).map fun ds => -(Text.valueOfDigits ds : Int)
  | cs => (whole? cs).map fun ds => Text.valueOfDigits ds

/-- An integer of at most 128 bits. -/
def integer? (cs : List Char) : Option Int :=
  (unbounded? cs).filter fun n => -n ≤ (1 <<< 127 : Nat) && n < (1 <<< 128 : Nat)

/-- Whether `0.digits · 10 ^ point` rounds to a finite number of double precision. The bound is the
middle between the greatest of them and the next power of two. -/
def isFinite (digits : List Char) (point : Int) : Bool :=
  let significant := digits.dropWhile (· == '0')
  let point := point - (digits.length - significant.length : Nat)
  if significant.isEmpty || point ≤ 308 then true
  else if 309 < point then false
  else
    let bound := (1 <<< 54 - 1) <<< 970
    Text.valueOfDigits significant * Nat.pow 10 309 < bound * Nat.pow 10 significant.length

/-- The exponent in a number's text after its mark. -/
def exponent? : List Char → Option Int
  | '+' :: cs => (ungroup? Char.isDigit cs).map fun ds => Text.valueOfDigits ds
  | '-' :: cs => (ungroup? Char.isDigit cs).map fun ds => -(Text.valueOfDigits ds : Int)
  | cs => (ungroup? Char.isDigit cs).map fun ds => Text.valueOfDigits ds

/-- Whether the text is a number with a fraction or an exponent, without sign. -/
def isFraction (cs : List Char) : Bool :=
  let (mantissa, power) := cs.span fun c => c != 'e' && c != 'E'
  let (whole, fraction) := mantissa.span (· != '.')
  let parts := do
    let ws ← whole? whole
    let fs ← if fraction.isEmpty then some [] else ungroup? Char.isDigit fraction.tail
    let e ← if power.isEmpty then some 0 else exponent? power.tail
    return isFinite (ws ++ fs) (ws.length + e)
  !(fraction.isEmpty && power.isEmpty) && parts.getD false

/-- Whether the text is a number that is no integer. -/
def isFloat (cs : List Char) : Bool :=
  let body := match cs with
    | '+' :: rest => rest
    | '-' :: rest => rest
    | cs => cs
  body == ['i', 'n', 'f'] || body == ['n', 'a', 'n'] || isFraction body

end TraceTree.Toml.Number
