import TraceTree.CallTree

/-!
Questions to a call tree: which scopes and functions are around a step, what a scope and all below
it cost, which variables are visible, and where the breakpoints before and after a step are.
-/
namespace TraceTree.CallTree

/-- The outermost scope. -/
def root? (t : CallTree) : Option Scope := t.scopes.find? .root

def scope? (t : CallTree) (id : ScopeId) : Option Scope := t.scopes.find? id

/-- All scopes, each right before those below it. -/
def allScopes (t : CallTree) : List Scope := t.scopes.values

/-- The scope around that one. -/
def parentOf? (t : CallTree) (id : ScopeId) : Option Scope := id.parent?.bind t.scope?

/-- The scopes below an id, in order: those that come right after the first scope not before it, as
long as they lie below. -/
def descendants (t : CallTree) (id : ScopeId) : List Scope :=
  (((t.scopes.entriesFrom id).drop 1).takeWhile fun e => id.isAncestorOf e.1).map (·.2)

/-- The scopes right below an id, in the order in which they opened. -/
def childrenOf (t : CallTree) (id : ScopeId) : List Scope :=
  (t.descendants id).filter fun s => s.id.depth == id.depth + 1

/-- The innermost scope around `s`, itself included, that contains the step. No walk outwards takes
more than `fuel` scopes when there are that many. -/
def enclosing? (t : CallTree) (step : Nat) : Nat → Scope → Option Scope
  | 0, _ => none
  | fuel + 1, s =>
    if s.contains step then some s else (t.parentOf? s.id).bind (t.enclosing? step fuel)

/-- The innermost scope at a step: from the last one that opened up to that step outwards to one
that has not ended before it. -/
def scopeAt? (t : CallTree) (step : Nat) : Option Scope :=
  if t.stepCount ≤ step then none
  else do
    let (_, id) ← t.scopeStarts.floor? step
    let s ← t.scope? id
    t.enclosing? step (t.scopes.size + 1) s

/-- The activations of a scope and of those around it, by its path from the inside out. -/
def activationsOutward (t : CallTree) : List Nat → List FunctionActivation
  | [] => []
  | n :: outer =>
    ((ScopeId.ofPath? (n :: outer).reverse).bind t.activations.find?).toList
      ++ t.activationsOutward outer

/-- The functions that run at a step, innermost first. -/
def callStackAt (t : CallTree) (step : Nat) : List FunctionActivation :=
  match t.scopeAt? step with
  | some s => t.activationsOutward s.id.path.reverse
  | none => []

def activation? (t : CallTree) (id : ScopeId) : Option FunctionActivation :=
  t.activations.find? id

/-- The gas of a line, which counts from zero; a line that no step ran has none. -/
def lineGas? (t : CallTree) (file line : Nat) : Option LineGas :=
  (t.gasPerLine.find? file).bind fun lines => lines.find? line

/-- The message for a line that no step ran. -/
def notExecuted (file line : Nat) : String :=
  "line " ++ toString line ++ " of file " ++ toString file ++ " was never executed"

/-- The variable that a declaration was last recorded as. -/
def variableById? (t : CallTree) (id : Nat) : Option VariableRecord := do
  let (scope, name) ← t.variableIndex.find? id
  let s ← t.scope? scope
  s.locals.find? name

/-- Variables by the step at which they came into being, then by their place on the stack. -/
def earlier (a b : VariableRecord) : Bool :=
  a.declaredAt < b.declaredAt || (a.declaredAt == b.declaredAt && a.stackDepth ≤ b.stackDepth)

/-- The variables to show at a step: those of the innermost scope that exist by then. -/
def localsAt (t : CallTree) (step : Nat) : List VariableRecord :=
  match t.scopeAt? step with
  | some s => (s.locals.values.filter fun r => r.declaredAt ≤ step).mergeSort earlier
  | none => []

/-- The gas of a scope and of all below it. -/
def cumulativeGas (t : CallTree) (id : ScopeId) : Nat :=
  Gas.add ((t.scope? id).elim 0 (·.gasCost)) (Gas.total ((t.descendants id).map (·.gasCost)))

/-- The gas of all scopes. -/
def totalGas (t : CallTree) : Nat := Gas.total (t.allScopes.map (·.gasCost))

def locationAt? (t : CallTree) (step : Nat) : Option StepLocation := t.locations[step]?

/-- The first breakpoint after a step. -/
def nextBreakpoint? (t : CallTree) (step : Nat) : Option Nat :=
  t.reducedTrace.toList.find? (step < ·)

/-- The last breakpoint before a step. -/
def previousBreakpoint? (t : CallTree) (step : Nat) : Option Nat :=
  (t.reducedTrace.toList.takeWhile (· < step)).getLast?

end TraceTree.CallTree
