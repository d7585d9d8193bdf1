import TraceTree.Json.Basic
import TraceTree.SortedMap
import TraceTree.Text

/-!
Reading typed data from JSON. A record is an object with its fields as members, in any order and
with other members beside them, or an array of the fields in their declared order. A field is
required, optional (missing or `null` means none) or has a default (it may be missing).
-/
namespace TraceTree.Json

/-! ### Records -/

/-- The fields found in a record, and whether they were told apart by position. -/
structure Fields where
  found : List (String × Json)
  positional : Bool

/-- The declared fields `names` of a record. A field given twice or an array longer than the
declaration is refused. -/
def fields? (names : List String) : Json → Option Fields
  | .object ms =>
    let known := ms.filter fun m => names.contains m.1
    if (known.map (·.1)).Nodup then some ⟨known, false⟩ else none
  | .array xs => if xs.length ≤ names.length then some ⟨names.zip xs, true⟩ else none
  | _ => none

namespace Fields

variable {α : Type}

def required (fs : Fields) (name : String) (read : Json → Option α) : Option α :=
  (memberIn name fs.found).bind read

/-- A field with a default. -/
def withDefault (fs : Fields) (name : String) (read : Json → Option α) (default : α) : Option α :=
  match memberIn name fs.found with
  | none => some default
  | some j => read j

end Fields

/-- `null` or a value. -/
def readOption {α : Type} (read : Json → Option α) : Json → Option (Option α)
  | .null => some none
  | j => (read j).map some

/-- An optional field: by name it may be missing, by position it may not. -/
def Fields.optional {α : Type} (fs : Fields) (name : String) (read : Json → Option α) :
    Option (Option α) :=
  match memberIn name fs.found with
  | none => if fs.positional then none else some none
  | some j => readOption read j

/-! ### Simple data -/

def readBool : Json → Option Bool
  | .bool b => some b
  | _ => none

def readString : Json → Option String := asString?

/-- Any value at all. -/
def readAny : Json → Option Json := some

def readNat8 : Json → Option Nat := asNat? 256

def readNat32 : Json → Option Nat := asNat? Text.bound32

def readNat64 : Json → Option Nat := asNat? Text.bound64

def readByte (j : Json) : Option UInt8 := (readNat8 j).map UInt8.ofNat

/-- An array of elements that are read alike. -/
def readList {α : Type} (read : Json → Option α) : Json → Option (List α)
  | .array xs => xs.mapM read
  | _ => none

/-- Bytes: a hexadecimal text or an array of numbers. -/
def readBytes : Json → Option (List UInt8)
  | .string s => Text.bytesOfHex? s.toList
  | j => readList readByte j

/-- An array of exactly two. -/
def readPair {α β : Type} (first : Json → Option α) (second : Json → Option β) :
    Json → Option (α × β)
  | .array [a, b] => do return (← first a, ← second b)
  | _ => none

/-- The name of a case without data: the name itself, or an object with `null` under it. -/
def readTag : Json → Option String
  | .string s => some s
  | .object [(s, .null)] => some s
  | _ => none

/-! ### Maps -/

/-- A number below `bound` as a member's name: digits without sign or leading zero. -/
def readNatKey (bound : Nat) (name : String) : Option Nat :=
  let cs := name.toList
  if cs.head? = some '0' ∧ cs.length ≠ 1 then none
  else (Text.digits? cs).filter (· < bound)

/-- An object as a map; of two names that read to one key the later in the object counts. -/
def readMap {κ ν : Type} [Ord κ] [Std.TransOrd κ] [Std.LawfulEqOrd κ]
    (readKey : String → Option κ) (read : Json → Option ν) : Json → Option (SortedMap κ ν)
  | .object ms =>
    (ms.mapM fun (m : String × Json) => do return (← readKey m.1, ← read m.2)).map SortedMap.ofList
  | _ => none

/-- A map as an object. -/
def ofMap {κ ν : Type} [Ord κ] (key : κ → String) (value : ν → Json) (m : SortedMap κ ν) :
    Json :=
  .object (m.entries.map fun e => (key e.1, value e.2))

end TraceTree.Json
