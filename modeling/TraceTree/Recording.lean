import TraceTree.SortedMap
import TraceTree.Trace

/-!
What is known of a transaction step by step. A context answers which code runs at a step and what is
on the stack before it; a recording is a context held in memory, in which code is given by the steps
at which it changes, the first of them at the start.
-/
namespace TraceTree

/-- A trace with the two questions that are asked at its steps; either may fail with a reason. -/
structure TraceContext where
  trace : Trace
  codeAt : Nat → Except String CodeAddress
  stackAt : Nat → Except String (List Nat)

/-- A trace in memory: the steps at which other code begins to run, and a stack for each step. -/
structure Recording where
  trace : Trace
  code : SortedMap Nat CodeAddress
  stackAtStep : Array (List Nat)
  deriving DecidableEq

namespace Recording

/-- A trace that runs `entry` from its first step, with empty stacks. -/
def ofTrace (trace : Trace) (entry : CodeAddress) : Recording :=
  { trace, code := SortedMap.empty.insert 0 entry, stackAtStep := .replicate trace.length [] }

/-- Other code runs from that step on. -/
def withCodeFrom (r : Recording) (step : Nat) (code : CodeAddress) : Recording :=
  { r with code := r.code.insert step code }

/-- The stack before a step; nothing changes for a step past the end. -/
def withStack (r : Recording) (step : Nat) (stack : List Nat) : Recording :=
  { r with stackAtStep := r.stackAtStep.setIfInBounds step stack }

/-- The first `n` steps. The code of the first step stays in any case. -/
def truncated (r : Recording) (n : Nat) : Recording :=
  { trace := r.trace.truncated n
    code := r.code.filter fun step _ => step < max n 1
    stackAtStep := r.stackAtStep.take n }

/-- The code that runs at a step. -/
def codeAt (r : Recording) (step : Nat) : Except String CodeAddress :=
  if r.trace.length ≤ step then
    .error ("step " ++ toString step ++ " is beyond the trace (" ++ toString r.trace.length
      ++ " steps)")
  else match r.code.floor? step with
    | some (_, code) => .ok code
    | none => .error ("no code registered before step " ++ toString step)

/-- The stack before a step, bottom first. -/
def stackAt (r : Recording) (step : Nat) : Except String (List Nat) :=
  match r.stackAtStep[step]? with
  | some stack => .ok stack
  | none => .error ("no stack recorded for step " ++ toString step)

/-- The recording as a context. -/
def toContext (r : Recording) : TraceContext :=
  { trace := r.trace, codeAt := r.codeAt, stackAt := r.stackAt }

end Recording

end TraceTree
