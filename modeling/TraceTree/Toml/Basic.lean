/-!
TOML values and the tables that a document is put together from. A name may be given a value once;
whether a table may still grow depends on how it was written.
-/
namespace TraceTree

/-- How a table was written: in braces, under a header of its own, as a part of a dotted name, or as
a part of the name in a header only. -/
inductive Toml.Origin where
  | braces
  | header
  | dotted
  | implied
  deriving Repr, DecidableEq

/-- A TOML value. Numbers with a fraction or exponent, dates and times are kept as they were
written. An array of tables from headers has at least one table, the last of which still grows. -/
inductive Toml where
  | bool (b : Bool)
  | integer (n : Int)
  | float (text : String)
  | moment (text : String)
  | string (s : String)
  | array (items : List Toml)
  | table (origin : Toml.Origin) (entries : List (String × Toml))
  | tables (done : List (List (String × Toml))) (last : List (String × Toml))
  deriving Repr, Inhabited

namespace Toml

/-- The entries of a table in the order in which they were written. -/
abbrev Entries := List (String × Toml)

def asBool? : Toml → Option Bool
  | .bool b => some b
  | _ => none

/-- A number from `0` to `bound - 1`. -/
def asNat? (bound : Nat) : Toml → Option Nat
  | .integer (.ofNat n) => if n < bound then some n else none
  | _ => none

namespace Entries

/-- Gives a name that has no value one. -/
def add (es : Entries) (k : String) (v : Toml) : Entries := es ++ [(k, v)]

/-- Gives a name that has a value another. -/
def replace (es : Entries) (k : String) (v : Toml) : Entries :=
  es.map fun e => if e.1 = k then (k, v) else e

/-! ### Growing -/

/-- Puts a value under a dotted name, starting from a table that is its own: one that has just been
named, or one that only dotted names made. Tables from headers are passed through, but are not given
entries from elsewhere. -/
def put (v : Toml) (own : Bool) : List String → Entries → Option Entries
  | [], _ => none
  | [k], es => if own && (es.lookup k).isNone then some (es.add k v) else none
  | k :: path, es =>
    match es.lookup k with
    | none => (put v true path []).map fun inner => es.add k (.table .dotted inner)
    | some (.table .dotted inner) =>
      (put v true path inner).map fun inner => es.replace k (.table .dotted inner)
    | some (.table .implied inner) =>
      (put v false path inner).map fun inner => es.replace k (.table .implied inner)
    | some (.tables done last) =>
      (put v false path last).map fun last => es.replace k (.tables done last)
    | some _ => none

/-- Changes the table that the name in a header leads to. Missing tables on the way are made, and an
array of tables stands for its last one. -/
def within (change : Entries → Option Entries) : List String → Entries → Option Entries
  | [], es => change es
  | k :: path, es =>
    match es.lookup k with
    | none => (within change path []).map fun inner => es.add k (.table .implied inner)
    | some (.table .braces _) => none
    | some (.table origin inner) =>
      (within change path inner).map fun inner => es.replace k (.table origin inner)
    | some (.tables done last) =>
      (within change path last).map fun last => es.replace k (.tables done last)
    | some _ => none

/-- Opens a table for its header. One that only the names of other headers have made is taken up. -/
def openTable (k : String) (es : Entries) : Option Entries :=
  match es.lookup k with
  | none => some (es.add k (.table .header []))
  | some (.table .implied inner) => some (es.replace k (.table .header inner))
  | some _ => none

/-- Opens the next table of an array of tables. -/
def openNext (k : String) (es : Entries) : Option Entries :=
  match es.lookup k with
  | none => some (es.add k (.tables [] []))
  | some (.tables done last) => some (es.replace k (.tables (done ++ [last]) []))
  | some _ => none

end Entries

end Toml

end TraceTree
