import TraceTree.Json.Record
import TraceTree.Keccak
import TraceTree.Text

/-!
Account addresses of twenty bytes. In data they are lower-case hexadecimal; in messages the case of
the letters carries a checksum.
-/
namespace TraceTree

/-- An account address. -/
structure Address where
  bytes : List UInt8
  length_eq : bytes.length = 20
  deriving DecidableEq

namespace Address

instance : Inhabited Address := ⟨⟨List.replicate 20 0, rfl⟩⟩

/-- Addresses are ordered by their bytes. -/
instance : Ord Address := ⟨fun a b => compare a.bytes b.bytes⟩

instance : Std.TransOrd Address :=
  inferInstanceAs (Std.TransCmp (compareOn Address.bytes))

instance : Std.LawfulEqOrd Address where
  eq_of_compare {a b} h := by
    have hb : a.bytes = b.bytes := 
      Std.LawfulEqCmp.eq_of_compare (show compare a.bytes b.bytes = .eq from h)
    cases a; cases b; simp_all

def ofBytes? (bytes : List UInt8) : Option Address :=
  if h : bytes.length = 20 then some ⟨bytes, h⟩ else none

/-- The forty digits in lower case. -/
def digits (a : Address) : List Char := Text.hexDigits a.bytes

def toJson (a : Address) : Json := .string (String.ofList (Text.hex a.bytes))

/-- Whether an array may go on like this after the twenty bytes: one item more is allowed when it is
no byte. -/
def isTail : List Json → Bool
  | [] => true
  | [j] => (Json.readByte j).isNone
  | _ => false

/-- Reads an address: a hexadecimal text or an array. -/
def ofJson? : Json → Option Address
  | .array xs =>
    if isTail (xs.drop 20) then ((xs.take 20).mapM Json.readByte).bind ofBytes? else none
  | j => (Json.readBytes j).bind ofBytes?

/-- A letter goes to upper case where the digest of the lower-case digits has a digit above
seven. -/
def checksumCase (c d : Char) : Char :=
  if 7 < (Text.hexValue? d).getD 0 then c.toUpper else c

/-- The form for messages, whose letter case is a checksum. -/
def checksummed (a : Address) : String :=
  let digest := Text.hexDigits (Keccak.digest (a.digits.map fun c => UInt8.ofNat c.toNat))
  String.ofList ('0' :: 'x' :: a.digits.zipWith checksumCase digest)

end Address

end TraceTree
