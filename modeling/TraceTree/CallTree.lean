import TraceTree.Scope

/-!
Call trees: the scopes of a trace by id, with what is known of them and of every step. Each change
that a reconstruction makes is a function here, and each leaves alone what it does not name.
-/
namespace TraceTree

/-- The call tree of a trace. -/
structure CallTree where
  scopes : SortedMap ScopeId Scope := ∅
  /-- The scope that opened last at each step at which one opened. -/
  scopeStarts : SortedMap Nat ScopeId := ∅
  activations : SortedMap ScopeId FunctionActivation := ∅
  /-- The scope and the name of the variable that each declaration was last recorded as. -/
  variableIndex : SortedMap Nat (ScopeId × String) := ∅
  gasPerLine : SortedMap Nat (SortedMap Nat LineGas) := ∅
  /-- The steps at which the source range changes. -/
  reducedTrace : Array Nat := #[]
  locations : Array StepLocation := #[]
  stepCount : Nat
  deriving DecidableEq

namespace CallTree

instance : Inhabited CallTree := ⟨{ stepCount := 0 }⟩

/-- Adds a scope, which becomes the one that opened last at its first step. -/
def openScope (t : CallTree) (s : Scope) : CallTree :=
  { t with
    scopes := t.scopes.insert s.id s
    scopeStarts := t.scopeStarts.insert s.firstStep s.id }

/-- Gives a scope its last step. -/
def closeScope (t : CallTree) (id : ScopeId) (lastStep : Nat) : CallTree :=
  { t with scopes := t.scopes.adjust id fun s => { s with lastStep := some lastStep } }

/-- Charges gas to a scope. -/
def creditGas (t : CallTree) (id : ScopeId) (gas : Nat) : CallTree :=
  { t with scopes := t.scopes.adjust id fun s => { s with gasCost := Gas.add s.gasCost gas } }

def addActivation (t : CallTree) (a : FunctionActivation) : CallTree :=
  { t with activations := t.activations.insert a.scope a }

/-- Whether a scope has a variable of that name. -/
def hasLocal (t : CallTree) (id : ScopeId) (name : String) : Bool :=
  (t.scopes.find? id).any fun s => s.locals.contains name

/-- Adds a variable to its scope and to the index by declaration, when the scope exists. -/
def addVariable (t : CallTree) (r : VariableRecord) : CallTree :=
  if t.scopes.contains r.scope then
    { t with
      scopes := t.scopes.adjust r.scope fun s => s.addLocal r
      variableIndex := match r.astId with
        | some id => t.variableIndex.insert id (r.scope, r.name)
        | none => t.variableIndex }
  else t

/-- Adds variables in order. -/
def addVariables (t : CallTree) (records : List VariableRecord) : CallTree :=
  records.foldl addVariable t

/-- Charges the gas of a step to a source line. -/
def addLineGas (t : CallTree) (file line step gas : Nat) : CallTree :=
  { t with
    gasPerLine := t.gasPerLine.upsert file ∅ fun lines =>
      lines.upsert line {} fun g => g.add step gas }

/-- Adds a step to the reduced trace, unless it is the last one there. -/
def addBreakpoint (t : CallTree) (step : Nat) : CallTree :=
  if t.reducedTrace.back? = some step then t
  else { t with reducedTrace := t.reducedTrace.push step }

def pushLocation (t : CallTree) (l : StepLocation) : CallTree :=
  { t with locations := t.locations.push l }

end CallTree

end TraceTree
