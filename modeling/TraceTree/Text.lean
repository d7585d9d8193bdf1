/-!
Texts as lists of characters: decimal numerals, white space, fixed words, bytes in hexadecimal and
stretches by byte offsets. Main statements: what stands after or before a fixed word is shorter by
that word (`length_of_isPrefixOf?`, `length_of_isSuffixOf?`), and the written form of bytes reads
back (`bytesOfHex?_hex`).
-/
namespace TraceTree.Text

/-! ### Bounds -/

/-- One more than the greatest number of 31 bits. -/
def bound31 : Nat := 2147483648

/-- One more than the greatest number of 32 bits. -/
def bound32 : Nat := 4294967296

/-- One more than the greatest number of 63 bits. -/
def bound63 : Nat := 9223372036854775808

/-- One more than the greatest number of 64 bits. -/
def bound64 : Nat := 18446744073709551616

/-! ### Numerals

A numeral is a run of ASCII digits, with an optional sign and within a bound. Leading zeros are
allowed and a sign needs digits after it. -/

/-- The value of a digit character. -/
def digitValue (c : Char) : Nat := c.toNat - '0'.toNat

/-- The number that a run of digits spells. -/
def valueOfDigits (cs : List Char) : Nat := cs.foldl (fun n c => 10 * n + digitValue c) 0

/-- A non-empty run of digits. -/
def digits? (cs : List Char) : Option Nat :=
  if !cs.isEmpty && cs.all Char.isDigit then some (valueOfDigits cs) else none

/-- A numeral with an optional plus sign, below `bound`. -/
def unsigned? (bound : Nat) (cs : List Char) : Option Nat :=
  let body := match cs with
    | '+' :: rest => rest
    | cs => cs
  (digits? body).filter (· < bound)

/-- A numeral with an optional sign, from `-bound` to `bound - 1`. -/
def signed? (bound : Nat) : List Char → Option Int
  | '-' :: rest => ((digits? rest).filter (· ≤ bound)).map fun n => -(n : Int)
  | cs => (unsigned? bound cs).map fun n => (n : Int)

/-- The digits of a number, without leading zeros. -/
def digits (n : Nat) : List Char := Nat.toDigits 10 n

/-! ### White space -/

/-- The characters with the Unicode property `White_Space`. -/
def isBlank (c : Char) : Bool :=
  let n := c.toNat
  (9 ≤ n && n ≤ 13) || n == 0x20 || n == 0x85 || n == 0xA0 || n == 0x1680
    || (0x2000 ≤ n && n ≤ 0x200A) || n == 0x2028 || n == 0x2029 || n == 0x202F || n == 0x205F
    || n == 0x3000

/-- Drops white space from both ends. -/
def trim (cs : List Char) : List Char :=
  ((cs.dropWhile isBlank).reverse.dropWhile isBlank).reverse

theorem length_trim_le (cs : List Char) : (trim cs).length ≤ cs.length := by
  simp only [trim, List.length_reverse]
  have h1 := (List.dropWhile_suffix (l := cs) isBlank).length_le
  have h2 := (List.dropWhile_suffix (l := (cs.dropWhile isBlank).reverse) isBlank).length_le
  simp only [List.length_reverse] at h2
  omega

/-! ### Words -/

/-- Whether the word occurs in the text. -/
def occursIn (word : List Char) : List Char → Bool
  | [] => word.isEmpty
  | c :: cs => word.isPrefixOf (c :: cs) || occursIn word cs

theorem length_of_isPrefixOf? {word cs rest : List Char} (h : word.isPrefixOf? cs = some rest) :
    cs.length = word.length + rest.length := by
  induction word generalizing cs with
  | nil => cases h; simp
  | cons w word ih =>
    cases cs with
    | nil => contradiction
    | cons c cs =>
      obtain ⟨-, h⟩ := Option.ite_none_right_eq_some.1 h
      have := ih h
      simp only [List.length_cons]
      omega

theorem length_of_isSuffixOf? {word cs rest : List Char} (h : word.isSuffixOf? cs = some rest) :
    cs.length = word.length + rest.length := by
  obtain ⟨back, hback, rfl⟩ := Option.map_eq_some_iff.1 h
  simpa using length_of_isPrefixOf? hback

/-! ### Hexadecimal

Bytes are pairs of digits. Reading takes either case and an optional `0x` or `0X` in front; writing
uses lower case and always puts `0x` there. -/

/-- The value of a hexadecimal digit. -/
def hexValue? (c : Char) : Option Nat :=
  if c.isDigit then some (c.toNat - '0'.toNat)
  else if 'a' ≤ c ∧ c ≤ 'f' then some (c.toNat - 'a'.toNat + 10)
  else if 'A' ≤ c ∧ c ≤ 'F' then some (c.toNat - 'A'.toNat + 10)
  else none

/-- The lower-case hexadecimal digit of a value below sixteen. -/
def hexDigit (n : Nat) : Char :=
  if n < 10 then Char.ofNat ('0'.toNat + n) else Char.ofNat ('a'.toNat + (n - 10))

/-- The bytes that pairs of digits spell. -/
def bytesOfHexDigits? : List Char → Option (List UInt8)
  | [] => some []
  | [_] => none
  | a :: b :: rest => do
    let high ← hexValue? a
    let low ← hexValue? b
    let bytes ← bytesOfHexDigits? rest
    return UInt8.ofNat (16 * high + low) :: bytes

/-- The bytes of a hexadecimal text, with or without a mark in front. -/
def bytesOfHex? : List Char → Option (List UInt8)
  | '0' :: 'x' :: rest => bytesOfHexDigits? rest
  | '0' :: 'X' :: rest => bytesOfHexDigits? rest
  | cs => bytesOfHexDigits? cs

/-- Two digits for each byte. -/
def hexDigits (bytes : List UInt8) : List Char :=
  bytes.flatMap fun b => [hexDigit (b.toNat / 16), hexDigit (b.toNat % 16)]

/-- The written form of bytes. -/
def hex (bytes : List UInt8) : List Char := '0' :: 'x' :: hexDigits bytes

theorem hexValue?_hexDigit {n : Nat} (h : n < 16) : hexValue? (hexDigit n) = some n := by
  have : ∀ i : Fin 16, hexValue? (hexDigit i.val) = some i.val := by decide
  exact this ⟨n, h⟩

theorem bytesOfHexDigits?_hexDigits (bytes : List UInt8) :
    bytesOfHexDigits? (hexDigits bytes) = some bytes := by
  induction bytes with
  | nil => rfl
  | cons b bytes ih =>
    have hb := b.toNat_lt
    have key : 16 * (b.toNat / 16) + b.toNat % 16 = b.toNat := by omega
    change bytesOfHexDigits? (_ :: _ :: hexDigits bytes) = _
    rw [bytesOfHexDigits?, hexValue?_hexDigit (by omega), hexValue?_hexDigit (by omega), ih]
    exact congrArg (fun d => some (d :: bytes)) (by rw [key]; exact UInt8.ofNat_toNat)

theorem bytesOfHex?_hex (bytes : List UInt8) : bytesOfHex? (hex bytes) = some bytes := by
  simp [bytesOfHex?, hex, bytesOfHexDigits?_hexDigits]

/-! ### Byte offsets

An offset in UTF-8 that falls inside a character or past the end gives no text. -/

/-- What stands before the byte offset `n`. -/
def takeBytes : Nat → List Char → Option (List Char)
  | 0, _ => some []
  | _ + 1, [] => none
  | n + 1, c :: cs =>
    if c.utf8Size ≤ n + 1 then (takeBytes (n + 1 - c.utf8Size) cs).map (c :: ·) else none

/-- What stands from the byte offset `n` on. -/
def dropBytes : Nat → List Char → Option (List Char)
  | 0, cs => some cs
  | _ + 1, [] => none
  | n + 1, c :: cs =>
    if c.utf8Size ≤ n + 1 then dropBytes (n + 1 - c.utf8Size) cs else none

/-- The `length` bytes from the byte offset `start` on. -/
def slice (start length : Nat) (cs : List Char) : Option (List Char) :=
  (dropBytes start cs).bind (takeBytes length)

end TraceTree.Text
