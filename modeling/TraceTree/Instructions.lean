import TraceTree.Opcode

/-!
Numbering the instructions of a code: source maps count instructions and not bytes, so the data
after an instruction is skipped. The offsets at which an instruction starts have a number, the count
of those before; all others have none.
-/
namespace TraceTree

/-- For each byte of a code, the number of the instruction that starts there. -/
structure Instructions where
  marks : Array (Option Nat)
  count : Nat
  deriving DecidableEq, Inhabited

namespace Instructions

/-- The marks of a code in which `skip` bytes of data come first and the next instruction has the
number `next`. -/
def marksFrom (skip next : Nat) : List UInt8 → List (Option Nat)
  | [] => []
  | b :: bs =>
    match skip with
    | skip + 1 => none :: marksFrom skip next bs
    | 0 => some next :: marksFrom (Opcode.immediateSize b) (next + 1) bs

def ofCode (code : List UInt8) : Instructions :=
  let marks := marksFrom 0 0 code
  { marks := marks.toArray, count := marks.countP Option.isSome }

/-- The number of the instruction that starts at `pc`. -/
def find? (t : Instructions) (pc : Nat) : Option Nat := t.marks[pc]?.join

def isEmpty (t : Instructions) : Bool := t.count == 0

end Instructions

end TraceTree
