import TraceTree.Proofs.Build.Stage
import TraceTree.Proofs.Declaration

/-!
The journal of a pass: the scopes that it opens and the variables that it registers, in the order in
which it does so. Each part of a pass is told here with its events beside it, and without these it
is the part itself (`map_step`, `map_run`). Main statements: a reconstruction has a journal exactly
when its pass succeeds, from the same pass (`run_eq_ok_iff_journal`), and what holds of a pass with
the events so far is carried over every step (`Journal.Rules.step`) and with it over the whole
reconstruction (`journal_induction`).
-/
namespace TraceTree.Build

open CallTree (IsBody)

/-- What a journal keeps. -/
inductive Event where
  | opens (id : ScopeId)
  | registers (r : VariableRecord)
  deriving DecidableEq

namespace Event

/-- The scope that opens, if one does. -/
def opened? : Event → Option ScopeId
  | opens id => some id
  | registers _ => none

/-- The variable that is registered, if one is. -/
def registered? : Event → Option VariableRecord
  | opens _ => none
  | registers r => some r

end Event

/-- The scopes that opened, in order. -/
def openedIn (log : List Event) : List ScopeId := log.filterMap Event.opened?

/-- The variables that were registered, in order. -/
def registeredIn (log : List Event) : List VariableRecord := log.filterMap Event.registered?

section

variable (log log' : List Event) (rs : List VariableRecord) (id : ScopeId)

@[simp] theorem openedIn_append : openedIn (log ++ log') = openedIn log ++ openedIn log' :=
  List.filterMap_append

@[simp] theorem registeredIn_append :
    registeredIn (log ++ log') = registeredIn log ++ registeredIn log' :=
  List.filterMap_append

@[simp] theorem registeredIn_nil : registeredIn [] = [] := rfl

@[simp] theorem openedIn_registers : openedIn (rs.map .registers) = [] := by
  simp [openedIn, Event.opened?]

@[simp] theorem registeredIn_registers : registeredIn (rs.map .registers) = rs := by
  simp [registeredIn, List.filterMap_map, Function.comp_def, Event.registered?]

@[simp] theorem openedIn_opens : openedIn (.opens id :: log) = id :: openedIn log := rfl

@[simp] theorem registeredIn_opens : registeredIn (.opens id :: log) = registeredIn log := rfl

end

/-! ### The parts of a pass with their events -/

namespace Journal

/-- Puts what was told before in front of what is told. -/
def after {α : Type} (told : List Event) (next : Except BuildError (α × List Event)) :
    Except BuildError (α × List Event) :=
  next.map fun r => (r.1, told ++ r.2)

/-- A function opens: its scope, and its parameters as far as they are registered. -/
def openFunction (p : Pass) (src : Sources) (site : Site) (f : FunctionDefinition)
    (kind : ScopeKind) : Except BuildError (Pass × List Event) := do
  let q ← p.openFunction src site f kind
  let stackLength ← src.stackLengthAt site.step
  let r := f.registerParameters stackLength site.step q.scope
  return (q, .opens q.scope :: r.records.map .registers)

/-- A call frame opens, which has no variables. -/
def openCall (p : Pass) (src : Sources) (site : Site) (kind : CodeAddress → ScopeKind) :
    Except BuildError (Pass × List Event) :=
  (p.openCall src site kind).map fun q => (q, [.opens q.scope])

/-- The function that is entered, if one is, opens. -/
def enter (p : Pass) (src : Sources) (site : Site) (entry : Option Nat) :
    Except BuildError ((Pass × Bool) × List Event) :=
  match entry.bind site.artifact.functionDefinition? with
  | none => .ok ((p, false), [])
  | some f =>
    if f.isConstructor then .ok ((p, false), [])
    else (openFunction p src site f .internalFunction).map fun r => ((r.1, true), r.2)

/-- The local variables that come into being are registered; they are told by the pass before the
step, since one that is known already does not count. -/
def declareLocals (p : Pass) (src : Sources) (site : Site) :
    Except BuildError (Pass × List Event) :=
  match (site.raw.range?.map site.artifact.localsAt).getD [] with
  | [] => .ok (p, [])
  | declarations => do
    let q ← p.declareLocals src site
    let stackLength ← src.stackLengthAt site.step
    let records := VariableDeclaration.localRecords declarations (p.tree.hasLocal p.scope)
      stackLength site.step p.scope
    return (q, records.map .registers)

/-- A step that returns tells nothing, and any other the local variables. -/
def finish (p : Pass) (src : Sources) (site : Site) : Except BuildError (Pass × List Event) :=
  if site.raw.jump = .out ∧ p.scopes.top.kind = .internalFunction then
    .ok (p.closeFunction site.step, [])
  else if src.options.includeLocals && site.isValid then declareLocals p src site
  else .ok (p, [])

/-- The one thing that a charged step does besides: only a call frame that opens and local variables
are told. -/
def leave (p : Pass) (src : Sources) (site : Site) (opened : Bool) :
    Except BuildError (Pass × List Event) :=
  if site.comesBack then .ok (p.closeCall site.step, [])
  else if site.goesDeeper then
    openCall p src site fun callee => if callee.isCreation then .creation else .externalCall
  else if opened then .ok (p, [])
  else finish p src site

/-- A step after its constructor, if one opens there. -/
def advance (p : Pass) (src : Sources) (site : Site) (entry : Option Nat) (gas : Nat) :
    Except BuildError (Pass × List Event) :=
  if site.current.opcode.opensFrame && site.goesDeeper then
    openCall (p.credit gas) src site fun _ => Pass.calledKind site
  else
    enter p src site entry >>= fun r => after r.2 (leave (r.1.1.credit gas) src site r.1.2)

/-- A whole step. If it is taken up again inside of a constructor, the constructor comes first. -/
def step (p : Pass) (src : Sources) (site : Site) : Except BuildError (Pass × List Event) :=
  match (p.arrive src site).takeAwaited site with
  | (r, none) => advance r src site (Pass.entry? (p.observe src site) site false) site.gas
  | (r, some f) => openFunction r src site f .constructor >>= fun s =>
      let inside := (s.1.credit site.gas).noteValid site
      after s.2 (advance (inside.track site) src site (inside.entry? site true) 0)

/-- All steps from the `i`th on, one after another. -/
def run (src : Sources) (i : Nat) : List TraceStep → Pass → Except BuildError (Pass × List Event)
  | [], p => .ok (p, [])
  | current :: rest, p => do
    let site ← src.siteAt i current rest.head?
    let r ← step p src site
    after r.2 (run src (i + 1) rest r.1)

end Journal

/-- The journal of a reconstruction, which starts with the root. -/
def Sources.journal (src : Sources) : Except BuildError (List Event) := do
  let root ← src.codeAt 0
  let r ← Journal.run src 0 src.context.trace.steps (.start root src.context.trace.length)
  return .opens .root :: r.2

/-! ### Without the events it is the pass -/

namespace Journal

variable {α : Type}

theorem map_after (told : List Event) (next : Except BuildError (α × List Event)) :
    (after told next).map Prod.fst = next.map Prod.fst := by
  cases next <;> rfl

/-- A part of a pass succeeds exactly when it does so with its events beside it. -/
theorem exists_told_iff {x : Except BuildError (α × List Event)} {y : Except BuildError α} {a : α}
    (hmap : x.map Prod.fst = y) : (∃ told, x = .ok (a, told)) ↔ y = .ok a := by
  subst hmap
  cases x with
  | error e => simp [Except.map]
  | ok r => simp [Except.map, Prod.ext_iff]

/-- What a part has read for its result is there for its events. -/
theorem map_bind_told {x : Except BuildError α} {y : Except BuildError Nat}
    {told : α → Nat → List Event} (hread : ∀ {a}, x = .ok a → ∃ n, y = .ok n) :
    (x >>= fun a => y >>= fun n => (pure (a, told a n) : Except BuildError _)).map Prod.fst = x := by
  cases x with
  | error e => rfl
  | ok a =>
    obtain ⟨n, rfl⟩ := hread rfl
    rfl

variable (p : Pass) (src : Sources) (site : Site)

theorem map_openFunction (f : FunctionDefinition) (kind : ScopeKind) :
    (openFunction p src site f kind).map Prod.fst = p.openFunction src site f kind := by
  refine map_bind_told ?_
  intro q hq
  obtain ⟨r, -, hq⟩ := bind_eq_ok.1 hq
  obtain ⟨n, hn, -⟩ := bind_eq_ok.1 hq
  exact ⟨n, hn⟩

theorem map_openCall (kind : CodeAddress → ScopeKind) :
    (openCall p src site kind).map Prod.fst = p.openCall src site kind := by
  rw [openCall]
  cases p.openCall src site kind <;> rfl

theorem map_enter (entry : Option Nat) :
    (enter p src site entry).map Prod.fst = p.enter src site entry := by
  rw [enter, Pass.enter]
  cases entry.bind site.artifact.functionDefinition? with
  | none => rfl
  | some f =>
    dsimp only
    split
    · rfl
    · rw [← map_openFunction]
      cases openFunction p src site f .internalFunction <;> rfl

theorem map_declareLocals : (declareLocals p src site).map Prod.fst = p.declareLocals src site := by
  rw [declareLocals]
  split
  · rename_i hnil
    rw [Pass.declareLocals, hnil]
    rfl
  · refine map_bind_told ?_
    intro q hq
    rw [Pass.declareLocals] at hq
    split at hq
    · contradiction
    · obtain ⟨n, hn, -⟩ := bind_eq_ok.1 hq
      exact ⟨n, hn⟩

theorem map_finish : (finish p src site).map Prod.fst = p.finish src site := by
  rw [finish, Pass.finish]
  split
  · rfl
  · split
    · exact map_declareLocals p src site
    · rfl

theorem map_leave (opened : Bool) :
    (leave p src site opened).map Prod.fst = p.leave src site opened := by
  rw [leave, Pass.leave]
  split
  · rfl
  · split
    · exact map_openCall p src site _
    · split
      · rfl
      · exact map_finish p src site

theorem map_advance (entry : Option Nat) (gas : Nat) :
    (advance p src site entry gas).map Prod.fst = p.advance src site entry gas := by
  by_cases hcall : site.current.opcode.opensFrame ∧ site.goesDeeper
  · rw [advance, if_pos (Bool.and_eq_true_iff.2 hcall), Pass.advance_of_call hcall, map_openCall]
  · rw [advance, if_neg fun h => hcall (Bool.and_eq_true_iff.1 h), Pass.advance_of_no_call hcall,
      ← map_enter, except_bind_map, except_map_bind]
    simp only [map_after, map_leave]

/-- Without its events the step is a step of the pass. -/
theorem map_step : (step p src site).map Prod.fst = p.step src site := by
  cases htake : (p.arrive src site).takeAwaited site with
  | mk r built =>
    cases built with
    | none => rw [step, htake, Pass.step_of_none htake, map_advance]
    | some f =>
      rw [step, htake, Pass.step_of_some htake, ← map_openFunction, except_map_bind, except_bind_map]
      simp only [map_after, map_advance]

/-- Without its events the run is a run of the pass. -/
theorem map_run (i : Nat) (steps : List TraceStep) :
    (run src i steps p).map Prod.fst = Pass.run src i steps p := by
  induction steps generalizing i p with
  | nil => rfl
  | cons current rest ih =>
    rw [run, Pass.run]
    simp only [← map_step, except_bind_map, except_map_bind, map_after, ih]

end Journal

/-! ### What keeps scopes and variables -/

namespace Pass

/-- Two passes that differ in nothing that a journal speaks of. -/
structure KeepsVariables (p q : Pass) : Prop where
  layout : q.layout = p.layout
  locals : ∀ id, (q.tree.scope? id).map (·.locals) = (p.tree.scope? id).map (·.locals)
  index : q.tree.variableIndex = p.tree.variableIndex

variable {p q r : Pass}

theorem KeepsVariables.trans (hpq : KeepsVariables p q) (hqr : KeepsVariables q r) :
    KeepsVariables p r :=
  ⟨hqr.layout.trans hpq.layout, fun id => (hqr.locals id).trans (hpq.locals id),
    hqr.index.trans hpq.index⟩

theorem KeepsVariables.of_scopes (hlayout : q.layout = p.layout)
    (h : (q.tree.scopes, q.tree.variableIndex) = (p.tree.scopes, p.tree.variableIndex)) :
    KeepsVariables p q :=
  ⟨hlayout, fun id => by rw [CallTree.scope?, CallTree.scope?, (Prod.mk.inj h).1], (Prod.mk.inj h).2⟩

/-- Gas is no matter of the journal. -/
theorem keepsVariables_credit (p : Pass) (gas : Nat) : KeepsVariables p (p.credit gas) where
  layout := layout_credit p gas
  locals id := by
    show ((p.tree.scopes.adjust p.scope _).find? id).map _ = _
    rw [SortedMap.find?_adjust]
    split
    · rw [Option.map_map]
      rfl
    · rfl
  index := rfl

theorem keepsVariables_noteValid (p : Pass) (site : Site) : KeepsVariables p (p.noteValid site) := by
  refine .of_scopes (alike_noteValid p site).layout ?_
  rw [noteValid]
  split <;> rfl

/-- Nor are locations, lines, breakpoints and awaited functions. -/
theorem keepsVariables_observe (p : Pass) (src : Sources) (site : Site) :
    KeepsVariables p (p.observe src site) := by
  refine .trans ?_ (keepsVariables_noteValid _ site)
  refine .of_scopes ?_ ?_
  · rw [layout, layout, skeleton_chargeLine]
    rfl
  · rw [chargeLine]
    split <;> rfl

theorem keepsVariables_track (p : Pass) (site : Site) : KeepsVariables p (p.track site) := by
  refine .of_scopes (alike_track p site).layout ?_
  rw [track]
  split
  · rfl
  · show ((p.tree.addBreakpoint site.step).scopes, _) = _
    rw [modifyScope, CallTree.addBreakpoint]
    split <;> rfl

theorem keepsVariables_await (p : Pass) (site : Site) : KeepsVariables p (p.await site) := by
  refine .of_scopes (alike_await p site).layout ?_
  rw [await]
  split
  · split <;> rfl
  · rfl

theorem keepsVariables_takeAwaited (p : Pass) (site : Site) :
    KeepsVariables p (p.takeAwaited site).1 := by
  refine .of_scopes (alike_takeAwaited p site).layout ?_
  rw [takeAwaited]
  split
  · rfl
  · split
    · rfl
    · dsimp only
      split <;> rfl

theorem keepsVariables_arrive (p : Pass) (src : Sources) (site : Site) :
    KeepsVariables p (p.arrive src site) :=
  ((keepsVariables_observe p src site).trans (keepsVariables_track _ site)).trans
    (keepsVariables_await _ site)

/-- The constructor that a step takes is a function of the artifact. -/
theorem mem_functions_of_takeAwaited {site : Site} {f : FunctionDefinition}
    (h : p.takeAwaited site = (r, some f)) : f ∈ site.artifact.functions := by
  rw [takeAwaited] at h
  split at h
  · cases h
  · split at h
    · cases h
    · dsimp only at h
      split at h
      · rename_i g hg
        cases h
        split at hg
        · exact Artifact.mem_functions_of_functionDefinition? hg
        · cases hg
      · cases h

/-- A function that opens is innermost, under the next id. -/
theorem scope_openFunction {q : Pass} {src : Sources} {site : Site} {f : FunctionDefinition}
    {kind : ScopeKind} (h : p.openFunction src site f kind = .ok q) :
    q.scope = p.layout.nextId := by
  obtain ⟨a, -, -, -, -, hlayout⟩ := layout_openFunction h
  exact scope_of_frames (congrArg Layout.frames hlayout)

theorem scope_openCall {q : Pass} {src : Sources} {site : Site} {kind : CodeAddress → ScopeKind}
    (h : p.openCall src site kind = .ok q) : q.scope = p.layout.nextId := by
  obtain ⟨callee, -, h⟩ := bind_eq_ok.1 h
  exact scope_openScope h

end Pass

/-! ### Carrying a property of a pass and its journal -/

namespace Journal

/-- What comes after some events succeeds with these in front of its own. -/
theorem after_eq_ok {α : Type} {told log : List Event} {a : α}
    {next : Except BuildError (α × List Event)} :
    after told next = .ok (a, log) ↔ ∃ more, next = .ok (a, more) ∧ log = told ++ more := by
  cases next with
  | error e => simp [after, Except.map]
  | ok r =>
    obtain ⟨b, more⟩ := r
    simp only [after, Except.map, Except.ok.injEq, Prod.mk.injEq]
    constructor
    · rintro ⟨rfl, rfl⟩
      exact ⟨more, ⟨rfl, rfl⟩, rfl⟩
    · rintro ⟨_, ⟨rfl, rfl⟩, rfl⟩
      exact ⟨rfl, rfl⟩

/-- The events of a function that opens: its scope, then its parameters. -/
def entryEvents (f : FunctionDefinition) (stackLength step : Nat) (scope : ScopeId) : List Event :=
  .opens scope :: (f.registerParameters stackLength step scope).records.map .registers

@[simp] theorem registeredIn_entryEvents (f : FunctionDefinition) (stackLength step : Nat)
    (scope : ScopeId) : registeredIn (entryEvents f stackLength step scope) =
      (f.registerParameters stackLength step scope).records := by
  rw [entryEvents, registeredIn_opens, registeredIn_registers]

/-- The records of the declarations of a range that come into being in the innermost scope. -/
def localsIn (p : Pass) (site : Site) (range : SourceRange) (stackLength : Nat) :
    List VariableRecord :=
  VariableDeclaration.localRecords (site.artifact.localsAt range) (p.tree.hasLocal p.scope)
    stackLength site.step p.scope

/-- Enough to carry a property of a pass and of the events so far over a step: `A` before and in the
midst of the step, and `Q` after it. -/
structure Rules (src : Sources) (site : Site) (A Q : Pass → List Event → Prop) : Prop where
  keeps : ∀ {p q log}, p.KeepsVariables q → A p log → A q log
  function : ∀ {p q f kind n log}, Valid src site.step p → IsBody kind →
    f ∈ site.artifact.functions → p.openFunction src site f kind = .ok q →
    src.stackLengthAt site.step = .ok n → A p log →
    A q (log ++ entryEvents f n site.step p.layout.nextId)
  call : ∀ {p q kind log}, Valid src site.step p → p.openCall src site kind = .ok q → A p log →
    Q q (log ++ [.opens p.layout.nextId])
  comesBack : ∀ {p log}, Valid src site.step p → A p log → Q (p.closeCall site.step) log
  returns : ∀ {p log}, Valid src site.step p → p.scopes.top.kind = .internalFunction → A p log →
    Q (p.closeFunction site.step) log
  locals : ∀ {p range n log}, Valid src site.step p → A p log →
    Q { p with tree := p.tree.addVariables (localsIn p site range n) }
      (log ++ (localsIn p site range n).map .registers)
  stay : ∀ {p log}, A p log → Q p log

/-- A function that opens tells of its scope under the next id and of its parameters. -/
theorem openFunction_eq_ok {p q : Pass} {src : Sources} {site : Site} {f : FunctionDefinition}
    {kind : ScopeKind} {told : List Event} (h : openFunction p src site f kind = .ok (q, told)) :
    p.openFunction src site f kind = .ok q ∧ ∃ n, src.stackLengthAt site.step = .ok n ∧
      told = entryEvents f n site.step p.layout.nextId := by
  obtain ⟨r, hr, h⟩ := bind_eq_ok.1 h
  obtain ⟨n, hn, h⟩ := bind_eq_ok.1 h
  cases h
  rw [← Pass.scope_openFunction hr]
  exact ⟨hr, n, hn, rfl⟩

theorem openCall_eq_ok {p q : Pass} {src : Sources} {site : Site} {kind : CodeAddress → ScopeKind}
    {told : List Event} (h : openCall p src site kind = .ok (q, told)) :
    p.openCall src site kind = .ok q ∧ told = [.opens p.layout.nextId] := by
  rw [openCall] at h
  cases hr : p.openCall src site kind with
  | error e =>
    rw [hr] at h
    cases h
  | ok r =>
    rw [hr] at h
    cases h
    rw [← Pass.scope_openCall hr]
    exact ⟨rfl, rfl⟩

namespace Rules

variable {src : Sources} {site : Site} {A Q : Pass → List Event → Prop} {p q : Pass}
  {told log : List Event}

theorem declareLocals (rules : Rules src site A Q) (hvalid : Valid src site.step p)
    (h : Journal.declareLocals p src site = .ok (q, told)) (hp : A p log) : Q q (log ++ told) := by
  rw [Journal.declareLocals] at h
  split at h
  · cases h
    rw [List.append_nil]
    exact rules.stay hp
  · rename_i hne
    cases hrange : site.raw.range? with
    | none =>
      rw [hrange] at hne
      exact absurd rfl hne
    | some range =>
      obtain ⟨r, hr, h⟩ := bind_eq_ok.1 h
      obtain ⟨n, hn, h⟩ := bind_eq_ok.1 h
      cases h
      rw [Pass.declareLocals] at hr
      split at hr
      · contradiction
      · obtain ⟨m, hm, hr⟩ := bind_eq_ok.1 hr
        rw [hn] at hm
        cases hm
        cases hr
        rw [hrange]
        exact rules.locals hvalid hp

theorem leave (rules : Rules src site A Q) (hvalid : Valid src site.step p) {opened : Bool}
    (h : Journal.leave p src site opened = .ok (q, told)) (hp : A p log) : Q q (log ++ told) := by
  rw [Journal.leave] at h
  split at h
  · cases h
    rw [List.append_nil]
    exact rules.comesBack hvalid hp
  · split at h
    · obtain ⟨hopen, rfl⟩ := openCall_eq_ok h
      exact rules.call hvalid hopen hp
    · split at h
      · cases h
        rw [List.append_nil]
        exact rules.stay hp
      · rw [finish] at h
        split at h
        · rename_i hreturn
          cases h
          rw [List.append_nil]
          exact rules.returns hvalid hreturn.2 hp
        · split at h
          · exact rules.declareLocals hvalid h hp
          · cases h
            rw [List.append_nil]
            exact rules.stay hp

theorem enter (rules : Rules src site A Q) (hvalid : Valid src site.step p) {entry : Option Nat}
    {opened : Bool} (h : Journal.enter p src site entry = .ok ((q, opened), told)) (hp : A p log) :
    A q (log ++ told) := by
  rw [Journal.enter] at h
  split at h
  · cases h
    rw [List.append_nil]
    exact hp
  · rename_i f hf
    obtain ⟨id, -, hf⟩ := Option.bind_eq_some_iff.1 hf
    split at h
    · cases h
      rw [List.append_nil]
      exact hp
    · cases hopen : Journal.openFunction p src site f .internalFunction with
      | error e =>
        rw [hopen] at h
        cases h
      | ok r =>
        rw [hopen] at h
        cases h
        obtain ⟨hopen, n, hn, htold⟩ := openFunction_eq_ok hopen
        rw [htold]
        exact rules.function hvalid (.inl rfl) (Artifact.mem_functions_of_functionDefinition? hf)
          hopen hn hp

theorem advance (rules : Rules src site A Q) {i : Nat} (hsite : src.IsSite i site)
    (hvalid : Valid src site.step p) {entry : Option Nat} {gas : Nat}
    (h : Journal.advance p src site entry gas = .ok (q, told)) (hp : A p log) :
    Q q (log ++ told) := by
  rw [Journal.advance] at h
  split at h
  · obtain ⟨hopen, rfl⟩ := openCall_eq_ok h
    have hopened := rules.call (hvalid.of_layout (Pass.layout_credit p gas)) hopen
      (rules.keeps (Pass.keepsVariables_credit p gas) hp)
    rwa [Pass.layout_credit] at hopened
  · obtain ⟨⟨⟨r, opened⟩, before⟩, hr, h⟩ := bind_eq_ok.1 h
    obtain ⟨more, hmore, rfl⟩ := after_eq_ok.1 h
    have hentered : Valid src site.step r := by
      rcases Pass.enter_cases ((exists_told_iff (map_enter p src site entry)).1 ⟨_, hr⟩) with
        ⟨rfl, -⟩ | ⟨f, -, -, -, hopen⟩
      · exact hvalid
      · have hrules := valid_rules hsite
        rw [← hsite.spec.1] at hrules
        exact hrules.enter hopen hvalid
    rw [← List.append_assoc]
    exact rules.leave (hentered.of_layout (Pass.layout_credit r gas)) hmore
      (rules.keeps (Pass.keepsVariables_credit r gas) (rules.enter hvalid hr hp))

/-- What holds of a pass with the events so far is carried over every step. -/
theorem step (rules : Rules src site A Q) {i : Nat} (hsite : src.IsSite i site)
    (hvalid : Valid src i p) (h : Journal.step p src site = .ok (q, told)) (hp : A p log) :
    Q q (log ++ told) := by
  have hrules := valid_rules hsite
  obtain ⟨rfl, -⟩ := hsite.spec
  cases htake : (p.arrive src site).takeAwaited site with
  | mk r built =>
    have htaken := Pass.keepsVariables_takeAwaited (p.arrive src site) site
    rw [htake] at htaken
    have hreached := (Pass.keepsVariables_arrive p src site).trans htaken
    have hr : A r log := rules.keeps hreached hp
    have hvalidr : Valid src site.step r := hvalid.of_layout hreached.layout
    rw [Journal.step, htake] at h
    cases built with
    | none => exact rules.advance hsite hvalidr h hr
    | some f =>
      obtain ⟨⟨s, before⟩, hs, h⟩ := bind_eq_ok.1 h
      obtain ⟨more, hmore, rfl⟩ := after_eq_ok.1 h
      obtain ⟨hopen, n, hn, htold⟩ := openFunction_eq_ok hs
      have hbuilt : A s (log ++ before) := by
        rw [htold]
        exact rules.function hvalidr (.inr rfl) (Pass.mem_functions_of_takeAwaited htake) hopen hn hr
      have hinside : s.KeepsVariables (((s.credit site.gas).noteValid site).track site) :=
        ((Pass.keepsVariables_credit s site.gas).trans
          (Pass.keepsVariables_noteValid _ site)).trans (Pass.keepsVariables_track _ site)
      have hvalids : Valid src site.step s :=
        (hrules.construct hopen hvalidr).of_layout (Pass.layout_credit s site.gas).symm
      rw [← List.append_assoc]
      exact rules.advance hsite (hvalids.of_layout hinside.layout) hmore (rules.keeps hinside hbuilt)

end Rules

/-- What is carried over every step, with its events, is carried over a whole run with those of the
run. -/
theorem run_induction {src : Sources} {P : Nat → Pass → List Event → Prop}
    (hstep : ∀ {i site p q told log}, src.IsSite i site → Valid src i p → P i p log →
      step p src site = .ok (q, told) → P (i + 1) q (log ++ told))
    {i : Nat} {p q : Pass} {told log : List Event} (hi : i ≤ src.context.trace.length)
    (h : run src i (src.context.trace.steps.drop i) p = .ok (q, told)) (hvalid : Valid src i p)
    (hp : P i p log) :
    Valid src src.context.trace.length q ∧ P src.context.trace.length q (log ++ told) := by
  obtain ⟨n, hn⟩ := Nat.exists_eq_add_of_le hi
  induction n generalizing i p told log with
  | zero =>
    rw [List.drop_of_length_le (by rw [Trace.length] at hn; omega), run] at h
    cases h
    rw [hn, List.append_nil]
    exact ⟨hvalid, hp⟩
  | succ n ih =>
    have hlt : i < src.context.trace.steps.length := by rw [Trace.length] at hn; omega
    rw [List.drop_eq_getElem_cons hlt, run, List.head?_drop] at h
    obtain ⟨site, hsite, h⟩ := bind_eq_ok.1 h
    obtain ⟨⟨r, before⟩, hr, h⟩ := bind_eq_ok.1 h
    obtain ⟨more, hmore, rfl⟩ := after_eq_ok.1 h
    have hsite : src.IsSite i site := ⟨_, List.getElem?_eq_getElem hlt, hsite⟩
    have hnext := valid_step hsite hvalid ((exists_told_iff (map_step p src site)).1 ⟨_, hr⟩)
    rw [← List.append_assoc]
    exact ih (by omega) hmore hnext (hstep hsite hvalid hp hr) (by omega)

end Journal

/-- The pass over a trace succeeds exactly when it does so with a journal beside it, and then the
reconstruction has that journal. -/
theorem run_eq_ok_iff_journal {src : Sources} {root : CodeAddress} {q : Pass}
    (hroot : src.codeAt 0 = .ok root) :
    Pass.run src 0 src.context.trace.steps (.start root src.context.trace.length) = .ok q ↔
      ∃ told, Journal.run src 0 src.context.trace.steps (.start root src.context.trace.length) =
        .ok (q, told) ∧ src.journal = .ok (.opens .root :: told) := by
  rw [← Journal.exists_told_iff (Journal.map_run _ src 0 _)]
  constructor
  · rintro ⟨told, h⟩
    refine ⟨told, h, ?_⟩
    rw [Sources.journal, hroot]
    exact bind_eq_ok.2 ⟨root, rfl, bind_eq_ok.2 ⟨_, h, rfl⟩⟩
  · rintro ⟨told, h, -⟩
    exact ⟨told, h⟩

/-- A reconstruction has a journal, and a property of a pass with the events so far that holds at
the start and is carried over every step holds at the end with the whole journal. -/
theorem journal_induction {src : Sources} {P : Nat → Pass → List Event → Prop} {tree : CallTree}
    (h : src.build = .ready tree)
    (hstart : ∀ {root}, src.codeAt 0 = .ok root →
      P 0 (.start root src.context.trace.length) [.opens .root])
    (hstep : ∀ {i site p q told log}, src.IsSite i site → Valid src i p → P i p log →
      Journal.step p src site = .ok (q, told) → P (i + 1) q (log ++ told)) :
    ∃ log q, src.journal = .ok log ∧ Valid src src.context.trace.length q ∧
      P src.context.trace.length q log ∧ q.close = tree := by
  obtain ⟨hne, root, hroot, q, hrun, hclose⟩ := build_eq_ready h
  obtain ⟨told, htold, hjournal⟩ := (run_eq_ok_iff_journal hroot).1 hrun
  obtain ⟨hvalid, hq⟩ := Journal.run_induction hstep (Nat.zero_le _) htold (valid_start hne hroot)
    (hstart hroot)
  exact ⟨_, q, hjournal, hvalid, hq, hclose⟩

end TraceTree.Build
