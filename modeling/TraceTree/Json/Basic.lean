/-!
JSON values. An object keeps its members as they were written; `canonical` sorts them by name and
keeps the last of those that share one.
-/
namespace TraceTree

/-- A JSON value. A number without fraction and exponent is an integer; every other number is kept
as it was written. A string in which half a surrogate pair stands alone, and an object with such a
name in it, are well formed but `unreadable`: they may stand where nobody looks. -/
inductive Json where
  | null
  | bool (b : Bool)
  | integer (n : Int)
  | decimal (text : String)
  | string (s : String)
  | array (items : List Json)
  | object (members : List (String × Json))
  | unreadable
  deriving Repr, Inhabited, BEq

namespace Json

/-- A natural number as a JSON value. -/
def nat (n : Nat) : Json := .integer n

/-- A value or `null`. -/
def option {α : Type} (f : α → Json) : Option α → Json
  | none => .null
  | some a => f a

/-- An array of encoded elements. -/
def list {α : Type} (f : α → Json) (xs : List α) : Json := .array (xs.map f)

/-! ### Members -/

/-- The first member of that name. -/
def memberIn (name : String) : List (String × Json) → Option Json
  | [] => none
  | (k, v) :: rest => if k = name then some v else memberIn name rest

/-- A member of an object. -/
def member? (name : String) : Json → Option Json
  | .object ms => memberIn name ms
  | _ => none

/-- A member of an object, `null` when it is missing or when this is no object. -/
def get (name : String) (j : Json) : Json := (j.member? name).getD .null

def asString? : Json → Option String
  | .string s => some s
  | _ => none

def asArray? : Json → Option (List Json)
  | .array xs => some xs
  | _ => none

/-- A number from `0` to `bound - 1`. -/
def asNat? (bound : Nat) : Json → Option Nat
  | .integer (.ofNat n) => if n < bound then some n else none
  | _ => none

/-! ### Canonical order -/

/-- Drops each member that is followed by one of the same name. -/
def keepLast : List (String × Json) → List (String × Json)
  | [] => []
  | [m] => [m]
  | m :: m' :: rest => if m.1 = m'.1 then keepLast (m' :: rest) else m :: keepLast (m' :: rest)

/-- Members in ascending order of their names, the last of equal ones kept. -/
def sortMembers (ms : List (String × Json)) : List (String × Json) :=
  keepLast (ms.mergeSort fun a b => (compare a.1 b.1).isLE)

mutual

/-- The value with the members of every object sorted by name. -/
def canonical : Json → Json
  | .array xs => .array (canonicalItems xs)
  | .object ms => .object (sortMembers (canonicalMembers ms))
  | j => j

def canonicalItems : List Json → List Json
  | [] => []
  | x :: xs => canonical x :: canonicalItems xs

def canonicalMembers : List (String × Json) → List (String × Json)
  | [] => []
  | (k, v) :: ms => (k, canonical v) :: canonicalMembers ms

end

end Json

end TraceTree
