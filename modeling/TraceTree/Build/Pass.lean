import TraceTree.Build.ScopeStack
import TraceTree.Build.Site
import TraceTree.CallTree

/-!
One pass over a trace. At each step the location is recorded, the step is charged to the innermost
scope, and scopes are opened and closed: by entries into functions, by returns from them, by changes
of the call depth, and by constructors, which open one step after their text is reached. A step at
which a constructor opens is taken up a second time inside of it.
-/
namespace TraceTree.Build

/-- A constructor whose text was reached. Its scope opens at `step` when that still runs the same
code. -/
structure AwaitedConstructor where
  step : Nat
  function : Nat
  code : CodeAddress
  deriving DecidableEq

/-- What a pass holds between two steps. -/
structure Pass where
  scopes : ScopeStack
  tree : CallTree
  awaited : Option AwaitedConstructor := none
  /-- The constructors that have opened, by address and id. -/
  constructed : List (Address × Nat) := []
  deriving DecidableEq

namespace Pass

/-- A pass over `steps` steps before the first of them. -/
def start (root : CodeAddress) (steps : Nat) : Pass :=
  { scopes := { root := { id := .root, kind := .root } }
    tree := ({ stepCount := steps } : CallTree).openScope
      { id := .root, kind := .root, code := root, firstStep := 0 } }

/-- The id of the innermost open scope. -/
def scope (p : Pass) : ScopeId := p.scopes.top.id

/-- Changes the innermost open scope. -/
def modifyScope (p : Pass) (f : OpenScope → OpenScope) : Pass :=
  { p with scopes := p.scopes.modifyTop f }

/-- Charges gas to the innermost open scope. -/
def credit (p : Pass) (gas : Nat) : Pass := { p with tree := p.tree.creditGas p.scope gas }

/-! ### Locations -/

/-- Remembers a valid location in the innermost open scope. -/
def noteValid (p : Pass) (site : Site) : Pass :=
  if site.isValid then p.modifyScope fun s => { s with lastValid := some site.raw } else p

/-- The location of a step as it is shown. -/
def locationAt (p : Pass) (src : Sources) (site : Site) : StepLocation :=
  let last := p.scopes.top.lastValid
  let valid := site.raw.orLastValid site.isValid last
  let lineColumn :=
    if site.isValid || last.isSome then
      src.converter.bind fun convert => convert site.artifact site.bytecode valid
    else none
  { code := site.code, opcode := site.current.opcode, raw := site.raw, valid, lineColumn }

/-- Charges a step to its source line, when it has one and lines are tracked. -/
def chargeLine (t : CallTree) (src : Sources) (site : Site) (l : StepLocation) : CallTree :=
  match src.options.trackGasPerLine, l.valid.file, l.lineColumn with
  | true, some file, some range => t.addLineGas file range.start.line site.step site.gas
  | _, _, _ => t

/-- Records the location of a step. -/
def observe (p : Pass) (src : Sources) (site : Site) : Pass :=
  let l := p.locationAt src site
  { p with tree := chargeLine (p.tree.pushLocation l) src site l }.noteValid site

/-- Adds a breakpoint when the step leaves the source range that its scope stays in. -/
def track (p : Pass) (site : Site) : Pass :=
  if p.scopes.top.tracked.any fun range => range.includes site.raw then p
  else
    { p with tree := p.tree.addBreakpoint site.step }.modifyScope fun s =>
      { s with tracked := some site.raw }

/-! ### Opening -/

/-- The function that the step enters: the one at its place in the code, when the step is its entry
point or it is not active in this call frame. A return jump enters nothing, and a step taken up
again does not enter the function that it just opened. -/
def entry? (p : Pass) (site : Site) (again : Bool) : Option Nat := do
  let found ← site.bytecode.userFunctionAt? site.current.pc
  let id ← found.id
  guard (site.raw.jump ≠ .out)
  guard (site.current.pc = found.entryPoint ∨ ¬ p.scopes.isActive id)
  guard ¬ (again ∧ p.scopes.top.function = some id)
  return id

/-- Opens a scope in the innermost one, which hands its last valid location on. -/
def openScope (p : Pass) (src : Sources) (step firstStep : Nat) (kind : ScopeKind)
    (code : CodeAddress) (function : Option Nat) : Except BuildError Pass :=
  let limit := src.options.maxScopeDepth
  if limit ≤ p.scopes.size then .error (.recursionLimitExceeded step limit)
  else
    let parent := p.scopes.top
    let id := parent.id.child (parent.children + 1)
    let scopes := p.scopes.modifyTop fun s => { s with children := s.children + 1 }
    .ok { p with
      scopes := scopes.push { id, kind, lastValid := parent.lastValid, function }
      tree := p.tree.openScope { id, kind, code, firstStep } }

/-- Opens a function's scope at a step, with its parameters. -/
def openFunction (p : Pass) (src : Sources) (site : Site) (f : FunctionDefinition)
    (kind : ScopeKind) : Except BuildError Pass := do
  let p ← p.openScope src site.step site.step kind site.code (some f.id)
  let stackLength ← src.stackLengthAt site.step
  let r := f.registerParameters stackLength site.step p.scope
  let activation : FunctionActivation :=
    { functionId := f.id, name := f.displayName, inputs := r.inputs, outputs := r.outputs,
      scope := p.scope, entryStep := site.step, isConstructor := kind == .constructor }
  return { p with tree := (p.tree.addVariables r.records).addActivation activation }

/-- Opens the scope of a call frame that starts with the next step. -/
def openCall (p : Pass) (src : Sources) (site : Site) (kind : CodeAddress → ScopeKind) :
    Except BuildError Pass := do
  let callee ← src.codeAt (site.step + 1)
  p.openScope src site.step (site.step + 1) (kind callee) callee none

/-- Opens the function that the step enters, and tells whether one was opened. Constructors are
entered in their own way. -/
def enter (p : Pass) (src : Sources) (site : Site) (entry : Option Nat) :
    Except BuildError (Pass × Bool) :=
  match entry.bind site.artifact.functionDefinition? with
  | none => .ok (p, false)
  | some f =>
    if f.isConstructor then .ok (p, false)
    else (p.openFunction src site f .internalFunction).map fun p => (p, true)

/-! ### Constructors -/

/-- Makes the constructor in whose text the step lies open at the next step, when none is awaited
and it has not opened before. -/
def await (p : Pass) (site : Site) : Pass :=
  match p.awaited, site.constructor? with
  | none, some f =>
    if site.code.isCreation && site.isValid && !p.constructed.contains (site.code.address, f.id) then
      { p with
        awaited := some { step := site.step + 1, function := f.id, code := site.code } }
    else p
  | _, _ => p

/-- Takes the awaited constructor when its step has come. It is given up when other code runs now
or its definition is not there. -/
def takeAwaited (p : Pass) (site : Site) : Pass × Option FunctionDefinition :=
  match p.awaited with
  | none => (p, none)
  | some awaited =>
    if site.step < awaited.step then (p, none)
    else
      let p := { p with awaited := none }
      let definition? :=
        if awaited.step = site.step ∧ awaited.code = site.code then
          site.artifact.functionDefinition? awaited.function
        else none
      match definition? with
      | some f => ({ p with constructed := (site.code.address, f.id) :: p.constructed }, some f)
      | none => (p, none)

/-! ### Closing -/

/-- Gives scopes their last step. -/
def closeAll (t : CallTree) (scopes : List OpenScope) (lastStep : Nat) : CallTree :=
  scopes.foldl (fun t s => t.closeScope s.id lastStep) t

/-- Closes the innermost call frame and what is open in it; the outermost scope stays open. -/
def closeCall (p : Pass) (lastStep : Nat) : Pass :=
  let (inner, outer) := ScopeStack.splitCall p.scopes.nested
  { p with
    scopes := { p.scopes with nested := outer }
    tree := closeAll p.tree inner lastStep }

/-- Closes the innermost scope and hands its last valid location back. -/
def closeFunction (p : Pass) (lastStep : Nat) : Pass :=
  match p.scopes.nested with
  | [] => p
  | inner :: outer =>
    let p := { p with
      scopes := { p.scopes with nested := outer }
      tree := p.tree.closeScope inner.id lastStep }
    match inner.lastValid with
    | some l => p.modifyScope fun s => { s with lastValid := some l }
    | none => p

/-! ### Variables -/

/-- Records the variables that come into being at a step. -/
def declareLocals (p : Pass) (src : Sources) (site : Site) : Except BuildError Pass :=
  match (site.raw.range?.map site.artifact.localsAt).getD [] with
  | [] => .ok p
  | declarations => do
    let stackLength ← src.stackLengthAt site.step
    let records := VariableDeclaration.localRecords declarations (p.tree.hasLocal p.scope)
      stackLength site.step p.scope
    return { p with tree := p.tree.addVariables records }

/-! ### Steps -/

/-- What closes or is declared at a step that stays in its call frame and opens no function. -/
def finish (p : Pass) (src : Sources) (site : Site) : Except BuildError Pass :=
  if site.raw.jump = .out ∧ p.scopes.top.kind = .internalFunction then
    .ok (p.closeFunction site.step)
  else if src.options.includeLocals && site.isValid then p.declareLocals src site
  else .ok p

/-- Opens and closes scopes at a step and charges it. A call instruction that leads deeper goes
before an entry, and a change of depth before a return. -/
def advance (p : Pass) (src : Sources) (site : Site) (entry : Option Nat) (gas : Nat) :
    Except BuildError Pass := do
  if site.current.opcode.opensFrame && site.goesDeeper then
    let kind := if site.current.opcode.isCreate then ScopeKind.creation else .externalCall
    (p.credit gas).openCall src site fun _ => kind
  else
    let (p, opened) ← p.enter src site entry
    let p := p.credit gas
    if site.comesBack then return p.closeCall site.step
    else if site.goesDeeper then
      p.openCall src site fun callee => if callee.isCreation then .creation else .externalCall
    else if opened then return p
    else p.finish src site

/-- Takes up a step. -/
def step (p : Pass) (src : Sources) (site : Site) : Except BuildError Pass := do
  let p := p.observe src site
  let entry := p.entry? site false
  match ((p.track site).await site).takeAwaited site with
  | (p, none) => p.advance src site entry site.gas
  | (p, some f) =>
    let p ← p.openFunction src site f .constructor
    let p := (p.credit site.gas).noteValid site
    (p.track site).advance src site (p.entry? site true) 0

/-- Takes up the steps from number `i` on. -/
def run (src : Sources) (i : Nat) : List TraceStep → Pass → Except BuildError Pass
  | [], p => .ok p
  | current :: rest, p => do
    let site ← src.siteAt i current rest.head?
    let p ← p.step src site
    run src (i + 1) rest p

/-- The tree, with all scopes closed that are still open after the last step. -/
def close (p : Pass) : CallTree := closeAll p.tree p.scopes.toList (p.tree.stepCount - 1)

end Pass

end TraceTree.Build
