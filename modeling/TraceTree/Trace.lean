import TraceTree.Address
import TraceTree.Opcode

/-!
Execution traces: the instructions that a transaction ran, in order. What a step costs depends on
the step and its successor only, and amounts of gas are added as numbers of 64 bits.
-/
namespace TraceTree

/-! ### Gas -/

namespace Gas

/-- Two amounts together. What does not fit into 64 bits is lost. -/
def add (a b : Nat) : Nat := (a + b) % Text.bound64

/-- All amounts together. -/
def total (amounts : List Nat) : Nat := amounts.foldr add 0

theorem add_zero_of_lt {amount : Nat} (h : amount < Text.bound64) : add amount 0 = amount :=
  Nat.mod_eq_of_lt h

theorem add_mod_left (a b : Nat) : add (a % Text.bound64) b = (a + b) % Text.bound64 :=
  Nat.mod_add_mod a _ b

end Gas

/-! ### Steps -/

/-- One executed instruction: its call depth, the gas left before it, the gas charged for it when
the tracer told, its byte and its place in the code. -/
structure TraceStep where
  depth : Nat
  gas : Nat
  gasCost : Option Nat
  opcode : Opcode
  pc : Nat
  deriving DecidableEq, Inhabited

/-- The code that runs at a step: whose it is, and whether it is the creation code. -/
structure CodeAddress where
  address : Address
  isCreation : Bool
  deriving DecidableEq, Inhabited

/-- The steps of a transaction; a step's index is its position. -/
structure Trace where
  steps : List TraceStep
  deriving DecidableEq, Inhabited

namespace TraceStep

/-- The gas charged for a step that `next` follows. A cost that the tracer told counts. Otherwise it
is the difference of the gas left, within one frame only: over a change of frames the difference
holds what the other frame used, so the step is charged nothing. -/
def cost (s : TraceStep) (next : Option TraceStep) : Nat :=
  match s.gasCost, next with
  | some c, _ => c
  | none, some n => if n.depth = s.depth then s.gas - n.gas else 0
  | none, none => 0

def toJson (index : Nat) (s : TraceStep) : Json :=
  .object <|
    [("index", .nat index), ("depth", .nat s.depth), ("gas", .nat s.gas)]
      ++ (match s.gasCost with | none => [] | some c => [("gasCost", .nat c)])
      ++ [("opcode", .nat s.opcode.toNat), ("pc", .nat s.pc)]

/-- Reads a step. The index in the data has to be a number and does not count. -/
def ofJson? (j : Json) : Option TraceStep := do
  let fs ← j.fields? ["index", "depth", "gas", "gasCost", "opcode", "pc"]
  let _ ← fs.required "index" Json.readNat64
  let depth ← fs.required "depth" Json.readNat64
  let gas ← fs.required "gas" Json.readNat64
  let gasCost ← fs.withDefault "gasCost" (Json.readOption Json.readNat64) none
  let opcode ← fs.required "opcode" Json.readByte
  let pc ← fs.required "pc" Json.readNat64
  return { depth, gas, gasCost, opcode, pc }

end TraceStep

namespace CodeAddress

def toJson (c : CodeAddress) : Json :=
  .object [("address", c.address.toJson), ("isCreation", .bool c.isCreation)]

def ofJson? (j : Json) : Option CodeAddress := do
  let fs ← j.fields? ["address", "isCreation"]
  let address ← fs.required "address" Address.ofJson?
  let isCreation ← fs.required "isCreation" Json.readBool
  return { address, isCreation }

end CodeAddress

namespace Trace

def length (t : Trace) : Nat := t.steps.length

/-- The gas charged for the step at `i`, none past the end. -/
def costAt (t : Trace) (i : Nat) : Nat :=
  match t.steps.drop i with
  | [] => 0
  | s :: rest => s.cost rest.head?

/-- The gas charged for a list of steps and what follows each in it. -/
def costs : List TraceStep → List Nat
  | [] => []
  | s :: rest => s.cost rest.head? :: costs rest

/-- The gas charged over the whole trace. -/
def totalCost (t : Trace) : Nat := Gas.total (costs t.steps)

/-- The first `n` steps. -/
def truncated (t : Trace) (n : Nat) : Trace := ⟨t.steps.take n⟩

/-- Reads an array of steps. -/
def ofJson? (j : Json) : Option Trace := (Json.readList TraceStep.ofJson? j).map .mk

end Trace

end TraceTree
