import TraceTree.Proofs.Build.Progress

/-!
Scenes: the layout of a pass with the last valid location that each open scope remembers, the
constructor that is awaited and the locations that are recorded. A step records and notes its
location, opens the body of a constructor or none and then that of a function or none, and leaves:
it opens a call frame for the next step, closes the innermost one, returns from a function or stays.
Main statement: this is all that a step does to a scene, and which function it opens depends on what
is active then (`step_scene`).
-/
namespace TraceTree.Build

/-! ### What is active -/

namespace Layout

/-- The open scopes of the innermost call frame, that frame included. -/
def callFrame : List Frame → List Frame
  | [] => []
  | top :: around => if top.kind.isFrame then [top] else top :: callFrame around

/-- A function is active when a scope of the innermost call frame runs it. -/
def Activates (k : Layout) (f : Nat) : Prop := ∃ s ∈ callFrame k.frames, s.function = some f

/-- The function that the innermost scope runs. -/
def topFunction (k : Layout) : Option Nat := k.frames.head?.bind (·.function)

end Layout

theorem ScopeStack.map_splitCall (scopes : List OpenScope) :
    (splitCall scopes).1.map OpenScope.frame = Layout.callFrame (scopes.map OpenScope.frame) := by
  induction scopes with
  | nil => rfl
  | cons top around ih =>
    rw [splitCall, List.map_cons, Layout.callFrame]
    by_cases htop : top.kind.isFrame
    · simp [htop, OpenScope.frame]
    · simp [htop, OpenScope.frame, ← ih]

namespace Pass

theorem isActive_iff (p : Pass) (f : Nat) : p.scopes.isActive f ↔ p.layout.Activates f := by
  rw [Layout.Activates, layout, ← ScopeStack.map_splitCall, ScopeStack.isActive]
  simp [OpenScope.frame]

theorem topFunction_layout (p : Pass) : p.layout.topFunction = p.scopes.top.function := by
  obtain ⟨around, h⟩ := p.layout_frames
  simp [Layout.topFunction, h, OpenScope.frame]

end Pass

/-- The function that a step enters where those that satisfy `active` are active: the one at its
place in the code, when it is no constructor and the step is its entry point or it is not active. A
return jump and a call instruction that leads deeper enter nothing. -/
structure Site.EntersFunction (site : Site) (active : Nat → Prop) (f : Nat)
    (g : FunctionDefinition) : Prop where
  row : ∃ row, site.bytecode.userFunctionAt? site.current.pc = some row ∧ row.id = some f ∧
    (site.current.pc = row.entryPoint ∨ ¬ active f)
  jump : site.raw.jump ≠ .out
  definition : site.artifact.functionDefinition? f = some g
  body : ¬ g.isConstructor
  call : ¬ (site.current.opcode.opensFrame ∧ site.goesDeeper)

/-- The kind of the frame that a step opens: what its call instruction says, or else what the code
of the callee is. -/
def Site.calleeKind (site : Site) (callee : CodeAddress) : ScopeKind :=
  if site.current.opcode.opensFrame then Pass.calledKind site
  else if callee.isCreation then .creation
  else .externalCall

theorem Site.isFrame_calleeKind (site : Site) (callee : CodeAddress) :
    (site.calleeKind callee).isFrame := by
  rw [calleeKind, Pass.calledKind]
  split_ifs <;> rfl

/-! ### Scenes -/

/-- A layout with what its frames remember, in their order, the constructor that is awaited and the
locations that are recorded. -/
structure Scene extends Layout where
  lastValid : List (Option SourceLocation)
  awaited : Option AwaitedConstructor
  locations : Array StepLocation

namespace Scene

theorem eq_of_layout {c c' : Scene} (hlayout : c.toLayout = c'.toLayout)
    (hvalid : c.lastValid = c'.lastValid) (hawaited : c.awaited = c'.awaited)
    (hlocations : c.locations = c'.locations) : c = c' := by
  obtain ⟨_, _, _, _⟩ := c
  obtain ⟨_, _, _, _⟩ := c'
  simp_all

/-- A valid location is remembered in the innermost scope. -/
def note (c : Scene) (site : Site) : Scene :=
  { c with lastValid := c.lastValid.modifyHead fun v => if site.isValid then some site.raw else v }

/-- Opens a scope in the innermost one, which hands its last valid location on. -/
def openScope (c : Scene) (firstStep : Nat) (kind : ScopeKind) (code : CodeAddress)
    (function : Option Nat) : Scene :=
  { toLayout := c.toLayout.openScope firstStep kind code function
    lastValid := c.lastValid.headD none :: c.lastValid
    awaited := c.awaited
    locations := c.locations }

def addActivation (c : Scene) (a : FunctionActivation) : Scene :=
  { c with toLayout := c.toLayout.addActivation a }

/-- Closes the innermost call frame; what was remembered in it is lost. -/
def closeCall (c : Scene) (lastStep : Nat) : Scene :=
  { toLayout := c.toLayout.closeCall lastStep
    lastValid := c.lastValid.drop (Layout.callSize c.frames)
    awaited := c.awaited
    locations := c.locations }

/-- What is remembered when the innermost scope hands its last valid location back, if it has
one. -/
def handBack : List (Option SourceLocation) → List (Option SourceLocation)
  | [] => []
  | inner :: around => around.modifyHead inner.or

/-- Closes the innermost scope, which hands its last valid location back. -/
def closeFunction (c : Scene) (lastStep : Nat) : Scene :=
  { toLayout := c.toLayout.closeTop lastStep
    lastValid := handBack c.lastValid
    awaited := c.awaited
    locations := c.locations }

/-- Opens the body of a function at a step, when there is one. -/
inductive OpensBody (c : Scene) (site : Site) (kind : ScopeKind) :
    Option FunctionDefinition → Scene → Prop
  | none : OpensBody c site kind none c
  | some {f : FunctionDefinition} {a : FunctionActivation} (hfunction : a.functionId = f.id)
      (hscope : a.scope = c.nextId) (hentry : a.entryStep = site.step)
      (hconstructor : a.isConstructor = (kind == .constructor)) :
      OpensBody c site kind (some f)
        ((c.openScope site.step kind site.code (some f.id)).addActivation a)

/-- What a step does last. -/
inductive Leaves (src : Sources) (site : Site) (entered : Bool) (c : Scene) : Scene → Prop
  | deeper {callee : CodeAddress} (hdeeper : site.goesDeeper)
      (hcode : src.codeAt (site.step + 1) = .ok callee) :
      Leaves src site entered c
        (c.openScope (site.step + 1) (site.calleeKind callee) callee none)
  | back (hback : site.comesBack) : Leaves src site entered c (c.closeCall site.step)
  | returns (hback : ¬ site.comesBack) (hdeeper : ¬ site.goesDeeper) (hentered : ¬ entered)
      (hout : site.raw.jump = .out)
      (htop : ∃ top next around, c.frames = top :: next :: around ∧
        top.kind = .internalFunction) :
      Leaves src site entered c (c.closeFunction site.step)
  | stays (hback : ¬ site.comesBack) (hdeeper : ¬ site.goesDeeper)
      (hreturn : ¬ entered → site.raw.jump = .out → ∀ top next around,
        c.frames = top :: next :: around → top.kind ≠ .internalFunction) :
      Leaves src site entered c c

/-- The parts of a step, from the scene in which its location is noted. -/
structure Parts (src : Sources) (site : Site) (c : Scene) (built entered : Option FunctionDefinition)
    (c₁ c₂ c' : Scene) : Prop where
  builds : c.OpensBody site .constructor built c₁
  /-- When the step is taken up again it does not enter the function that it just opened. -/
  entry : ∀ g, entered = some g ↔ ∃ f, site.EntersFunction c₁.Activates f g ∧
    ¬ (built.isSome ∧ c₁.topFunction = some f)
  enters : c₁.OpensBody site .internalFunction entered c₂
  leaves : c₂.Leaves src site entered.isSome c'

/-- What an open scope remembers it hands on, so a location that was noted is noted inside. -/
theorem OpensBody.note_eq {c c' : Scene} {site : Site} {kind : ScopeKind}
    {f : FunctionDefinition} (h : c.OpensBody site kind (.some f) c')
    (hnoted : site.isValid → ∃ around, c.lastValid = Option.some site.raw :: around) :
    c'.note site = c' := by
  cases h
  refine eq_of_layout rfl ?_ rfl rfl
  by_cases hvalid : site.isValid
  · obtain ⟨around, h⟩ := hnoted hvalid
    simp [addActivation, openScope, note, h]
  · simp [addActivation, openScope, note, hvalid]

end Scene

/-! ### The scene of a pass -/

namespace Pass

def scene (p : Pass) : Scene :=
  { toLayout := p.layout
    lastValid := p.scopes.toList.map (·.lastValid)
    awaited := p.awaited
    locations := p.tree.locations }

/-- The scene once the location of a step is recorded. -/
def observed (p : Pass) (src : Sources) (site : Site) : Scene :=
  { p.scene with locations := p.tree.locations.push (p.locationAt src site) }.note site

variable {p q : Pass} {src : Sources} {site : Site}

theorem lastValid_scene (p : Pass) :
    ∃ around, p.scene.lastValid = p.scopes.top.lastValid :: around := by
  obtain ⟨around, h⟩ := p.scopes.toList_eq
  exact ⟨around.map (·.lastValid), by simp [scene, h]⟩

theorem scene_of_scopes (hscopes : q.scopes = p.scopes)
    (htree : q.tree.skeleton = p.tree.skeleton) (hlocations : q.tree.locations = p.tree.locations) :
    q.scene = { p.scene with awaited := q.awaited } := by
  simp [scene, layout, hscopes, htree, hlocations]

theorem locations_chargeLine (t : CallTree) (src : Sources) (site : Site) (l : StepLocation) :
    (chargeLine t src site l).locations = t.locations := by
  rw [chargeLine]
  split <;> rfl

theorem locations_addBreakpoint (t : CallTree) (step : Nat) :
    (t.addBreakpoint step).locations = t.locations := by
  rw [CallTree.addBreakpoint]
  split <;> rfl

theorem locations_addVariables (t : CallTree) (records : List VariableRecord) :
    (t.addVariables records).locations = t.locations := by
  rw [CallTree.addVariables]
  induction records generalizing t with
  | nil => rfl
  | cons r records ih =>
    rw [List.foldl_cons, ih, CallTree.addVariable]
    split <;> rfl

theorem locations_closeAll (t : CallTree) (scopes : List OpenScope) (lastStep : Nat) :
    (closeAll t scopes lastStep).locations = t.locations := by
  induction scopes generalizing t with
  | nil => rfl
  | cons s scopes ih => exact ih _

/-! ### Changes that leave the scene alone -/

theorem scene_noteValid (p : Pass) (site : Site) :
    (p.noteValid site).scene = p.scene.note site := by
  obtain ⟨around, h⟩ := p.scopes.toList_eq
  have hlayout := (alike_noteValid p site).layout
  have hawaited := p.awaited_noteValid site
  by_cases hvalid : site.isValid
  · refine Scene.eq_of_layout hlayout ?_ hawaited ?_
    · simp [scene, Scene.note, noteValid, hvalid, modifyScope, ScopeStack.toList_modifyTop, h]
    · simp [scene, Scene.note, noteValid, hvalid, modifyScope]
  · refine Scene.eq_of_layout hlayout ?_ hawaited ?_
    · simp [scene, Scene.note, noteValid, hvalid, h]
    · simp [scene, Scene.note, noteValid, hvalid]

theorem scene_observe (p : Pass) (src : Sources) (site : Site) :
    (p.observe src site).scene = p.observed src site := by
  rw [observe, scene_noteValid, observed]
  congr 1
  refine Scene.eq_of_layout ?_ rfl rfl (locations_chargeLine _ _ _ _)
  simp only [scene, layout, skeleton_chargeLine]
  rfl

theorem scene_track (p : Pass) (site : Site) : (p.track site).scene = p.scene := by
  obtain ⟨around, h⟩ := p.scopes.toList_eq
  refine Scene.eq_of_layout (alike_track p site).layout ?_ (p.awaited_track site) ?_
  · rw [track]
    split
    · rfl
    · simp [scene, modifyScope, ScopeStack.toList_modifyTop, h]
  · rw [track]
    split
    · rfl
    · exact locations_addBreakpoint _ _

theorem scene_await (p : Pass) (site : Site) :
    (p.await site).scene = { p.scene with awaited := (p.await site).awaited } := by
  rw [await]
  split
  · split <;> rfl
  · rfl

theorem scene_takeAwaited (p : Pass) (site : Site) :
    (p.takeAwaited site).1.scene =
      { p.scene with awaited := (p.takeAwaited site).1.awaited } := by
  rw [takeAwaited]
  split
  · rfl
  · split
    · rfl
    · dsimp only
      split <;> rfl

theorem scene_credit (p : Pass) (gas : Nat) : (p.credit gas).scene = p.scene :=
  scene_of_scopes rfl (CallTree.skeleton_creditGas _ _ _) rfl

theorem scene_declareLocals (h : p.declareLocals src site = .ok q) : q.scene = p.scene := by
  rw [declareLocals] at h
  split at h
  · cases h
    rfl
  · obtain ⟨n, -, h⟩ := bind_eq_ok.1 h
    cases h
    exact scene_of_scopes rfl (CallTree.skeleton_addVariables _ _) (locations_addVariables _ _)

/-! ### Opening and closing -/

theorem scene_openScope {step firstStep : Nat} {kind : ScopeKind} {code : CodeAddress}
    {function : Option Nat} (h : p.openScope src step firstStep kind code function = .ok q) :
    q.scene = p.scene.openScope firstStep kind code function := by
  obtain ⟨around, hlist⟩ := p.scopes.toList_eq
  have hlayout := layout_openScope h
  rw [openScope] at h
  split at h
  · cases h
  · cases h
    refine Scene.eq_of_layout hlayout ?_ rfl rfl
    simp [Scene.openScope, scene, ScopeStack.toList_push, ScopeStack.toList_modifyTop, hlist]

theorem scene_openFunction {f : FunctionDefinition} {kind : ScopeKind}
    (h : p.openFunction src site f kind = .ok q) :
    p.scene.OpensBody site kind (some f) q.scene := by
  obtain ⟨a, hfunction, hscope, hentry, hconstructor, hlayout⟩ := layout_openFunction h
  obtain ⟨r, hopen, h⟩ := bind_eq_ok.1 h
  obtain ⟨n, -, h⟩ := bind_eq_ok.1 h
  cases h
  have hscene := scene_openScope hopen
  have hbody := Scene.OpensBody.some (c := p.scene) hfunction hscope hentry hconstructor
  convert hbody using 1
  have hvalid : r.scene.lastValid = p.scene.lastValid.headD none :: p.scene.lastValid := by
    rw [hscene, Scene.openScope]
  have hawaited : r.scene.awaited = p.scene.awaited := by rw [hscene, Scene.openScope]
  have hlocations : r.scene.locations = p.scene.locations := by rw [hscene, Scene.openScope]
  exact Scene.eq_of_layout hlayout hvalid hawaited
    ((locations_addVariables _ _).trans hlocations)

theorem scene_openCall {kind : CodeAddress → ScopeKind} (h : p.openCall src site kind = .ok q) :
    ∃ callee, src.codeAt (site.step + 1) = .ok callee ∧
      q.scene = p.scene.openScope (site.step + 1) (kind callee) callee none := by
  obtain ⟨callee, hcode, h⟩ := bind_eq_ok.1 h
  exact ⟨callee, hcode, scene_openScope h⟩

theorem scene_closeCall (p : Pass) (lastStep : Nat) :
    (p.closeCall lastStep).scene = p.scene.closeCall lastStep := by
  have hsize : Layout.callSize p.layout.frames = (ScopeStack.splitCall p.scopes.nested).1.length :=
    ScopeStack.callSize_toList _ _
  have hlist : p.scopes.toList = (ScopeStack.splitCall p.scopes.nested).1 ++
      ((ScopeStack.splitCall p.scopes.nested).2 ++ [p.scopes.root]) := by
    rw [← List.append_assoc, ScopeStack.splitCall_append, ScopeStack.toList]
  refine Scene.eq_of_layout (p.layout_closeCall lastStep) ?_ rfl (locations_closeAll _ _ _)
  show ((ScopeStack.splitCall p.scopes.nested).2 ++ [p.scopes.root]).map (·.lastValid) =
    (p.scopes.toList.map (·.lastValid)).drop (Layout.callSize p.layout.frames)
  rw [hsize, hlist, ← List.map_drop, List.drop_left' rfl]

theorem locations_closeFunction (p : Pass) (lastStep : Nat) :
    (p.closeFunction lastStep).tree.locations = p.tree.locations := by
  rw [closeFunction]
  split
  · rfl
  · dsimp only
    split <;> rfl

theorem scene_closeFunction (h : p.scopes.nested ≠ []) (lastStep : Nat) :
    (p.closeFunction lastStep).scene = p.scene.closeFunction lastStep := by
  obtain ⟨inner, outer, hnested⟩ := List.exists_cons_of_ne_nil h
  refine Scene.eq_of_layout (layout_closeFunction h lastStep) ?_ (p.awaited_closeFunction lastStep)
    (p.locations_closeFunction lastStep)
  have hvalid : p.scene.lastValid = inner.lastValid :: (outer ++ [p.scopes.root]).map
      (·.lastValid) := by
    simp [scene, ScopeStack.toList, hnested]
  rw [Scene.closeFunction, hvalid, Scene.handBack, closeFunction, hnested]
  dsimp only
  split
  · rename_i l hl
    simp only [scene, modifyScope, ScopeStack.toList_modifyTop, hl]
    cases outer <;> simp [ScopeStack.toList]
  · rename_i hl
    cases outer <;> simp [scene, ScopeStack.toList, hl]

/-! ### The parts of a step -/

/-- The scene after the location of the step is noted and a constructor is taken or none. -/
theorem scene_taken {built : Option FunctionDefinition}
    (h : (p.arrive src site).takeAwaited site = (q, built)) :
    q.scene = { p.observed src site with awaited := q.awaited } := by
  have htake := scene_takeAwaited (p.arrive src site) site
  rw [h] at htake
  rw [htake, arrive, scene_await, scene_track, scene_observe]

theorem leaves_scene {opened : Bool}
    (hcall : ¬ (site.current.opcode.opensFrame ∧ site.goesDeeper))
    (h : p.Leaves src site opened q) : p.scene.Leaves src site opened q.scene := by
  cases h with
  | comesBack hback =>
    rw [scene_closeCall]
    exact .back hback
  | goesDeeper hback hdeeper hopen =>
    obtain ⟨callee, hcode, hscene⟩ := scene_openCall hopen
    have hkind : site.calleeKind callee =
        if callee.isCreation then .creation else .externalCall := by
      rw [Site.calleeKind, if_neg fun hopens => hcall ⟨hopens, hdeeper⟩]
    rw [hscene, ← hkind]
    exact .deeper hdeeper hcode
  | opened hback hdeeper hopened => exact .stays hback hdeeper fun hno => absurd hopened hno
  | returns hback hdeeper hopened hout htop =>
    cases hnested : p.scopes.nested with
    | nil =>
      -- The outermost scope is never closed.
      rw [closeFunction, hnested]
      refine .stays hback hdeeper fun _ _ top next around hframes => ?_
      exact absurd hnested (nested_ne_nil_of_frames hframes)
    | cons inner outer =>
      have hne : p.scopes.nested ≠ [] := by simp [hnested]
      rw [scene_closeFunction hne]
      refine .returns hback hdeeper hopened hout ?_
      obtain ⟨next, around, hnext⟩ := List.exists_cons_of_ne_nil
        (show (outer ++ [p.scopes.root]).map OpenScope.frame ≠ [] by simp)
      refine ⟨inner.frame, next, around, ?_, ?_⟩
      · rw [← hnext]
        simp [scene, layout, ScopeStack.toList, hnested]
      · rw [ScopeStack.top, hnested] at htop
        exact htop
  | declares hback hdeeper hopened hreturn hlocals =>
    have hscene : q.scene = p.scene := by
      rcases hlocals with rfl | hlocals
      · rfl
      · exact scene_declareLocals hlocals
    rw [hscene]
    refine .stays hback hdeeper fun _ hout top next around hframes htop => hreturn ⟨hout, ?_⟩
    exact (congrArg Frame.kind (top_frame_eq hframes)).trans htop

/-- A pass that advances enters a function or none and leaves. -/
theorem advance_scene {entry : Option Nat} {gas : Nat} (h : p.advance src site entry gas = .ok q) :
    ∃ entered c, (∀ g, entered = some g ↔ ∃ f, entry = some f ∧
        site.artifact.functionDefinition? f = some g ∧ ¬ g.isConstructor ∧
        ¬ (site.current.opcode.opensFrame ∧ site.goesDeeper)) ∧
      p.scene.OpensBody site .internalFunction entered c ∧
      c.Leaves src site entered.isSome q.scene := by
  rcases advance_cases h with ⟨hopens, hdeeper, hcall⟩ | ⟨hcall, r, opened, henter, hleaves⟩
  · obtain ⟨callee, hcode, hscene⟩ := scene_openCall hcall
    refine ⟨none, p.scene, by simp [hopens, hdeeper], .none, ?_⟩
    rw [hscene, scene_credit, ← show site.calleeKind callee = calledKind site from if_pos hopens]
    exact .deeper hdeeper hcode
  · have hscene := leaves_scene hcall hleaves
    rw [scene_credit] at hscene
    have hentered : ∀ g, entry.bind site.artifact.functionDefinition? = some g ↔
        ∃ f, entry = some f ∧ site.artifact.functionDefinition? f = some g := by
      intro g
      exact Option.bind_eq_some_iff
    rcases enter_cases henter with ⟨rfl, hopened, hno⟩ | ⟨f, hf, hbody, hopened, hopen⟩
    · refine ⟨none, _, ?_, .none, by simpa [hopened] using hscene⟩
      intro g
      constructor
      · intro h
        cases h
      · rintro ⟨f, hf, hg, hbody, -⟩
        exact absurd (hno g ((hentered g).2 ⟨f, hf, hg⟩)) hbody
    · refine ⟨some f, _, ?_, scene_openFunction hopen, by simpa [hopened] using hscene⟩
      intro g
      constructor
      · intro h
        cases h
        obtain ⟨id, hid, hdefinition⟩ := (hentered f).1 hf
        exact ⟨id, hid, hdefinition, hbody, hcall⟩
      · rintro ⟨id, hid, hdefinition, -⟩
        rw [(hentered g).2 ⟨id, hid, hdefinition⟩] at hf
        exact hf.symm

theorem entersFunction_iff (p : Pass) (site : Site) (again : Bool) (g : FunctionDefinition) :
    (∃ f, Pass.entry? p site again = some f ∧ site.artifact.functionDefinition? f = some g ∧
        ¬ g.isConstructor ∧ ¬ (site.current.opcode.opensFrame ∧ site.goesDeeper)) ↔
      ∃ f, site.EntersFunction p.layout.Activates f g ∧
        ¬ (again ∧ p.layout.topFunction = some f) := by
  refine exists_congr fun f => ?_
  rw [entry?_eq_some_iff, isActive_iff, topFunction_layout]
  constructor
  · rintro ⟨⟨row, hrow, hid, hjump, hactive, hagain⟩, hdefinition, hbody, hcall⟩
    exact ⟨⟨⟨row, hrow, hid, hactive⟩, hjump, hdefinition, hbody, hcall⟩, hagain⟩
  · rintro ⟨⟨⟨row, hrow, hid, hactive⟩, hjump, hdefinition, hbody, hcall⟩, hagain⟩
    exact ⟨⟨row, hrow, hid, hjump, hactive, hagain⟩, hdefinition, hbody, hcall⟩

/-- A step notes its location, takes the awaited constructor or none, opens the body of that and
then of a function or none, and leaves. -/
theorem step_scene (h : p.step src site = .ok q) :
    ∃ r built entered c₁ c₂, (p.arrive src site).takeAwaited site = (r, built) ∧
      Scene.Parts src site { p.observed src site with awaited := r.awaited } built entered c₁ c₂
        q.scene := by
  rcases step_cases h with ⟨r, hr, hadv⟩ | ⟨r, f, s, hr, hs, hadv⟩
  · obtain ⟨entered, c, hentry, henters, hleaves⟩ := advance_scene hadv
    have hscene := scene_taken hr
    have hlayout : r.layout = (p.observe src site).layout :=
      (congrArg Scene.toLayout hscene).trans (alike_observe p src site).layout.symm
    refine ⟨r, none, entered, r.scene, c, hr, by rw [← hscene]; exact .none, ?_, henters, hleaves⟩
    intro g
    rw [hentry, entersFunction_iff, ← hlayout]
    simp [scene]
  · obtain ⟨entered, c, hentry, henters, hleaves⟩ := advance_scene hadv
    have hbuilds := scene_openFunction hs
    rw [scene_taken hr] at hbuilds
    obtain ⟨around, hvalid⟩ := p.lastValid_scene
    have hnoted : site.isValid → ∃ around,
        (p.observed src site).lastValid = some site.raw :: around :=
      fun h => ⟨around, by simp [observed, Scene.note, hvalid, h]⟩
    -- The location is noted a second time, inside the constructor.
    have hscene : (((s.credit site.gas).noteValid site).track site).scene = s.scene := by
      rw [scene_track, scene_noteValid, scene_credit]
      exact hbuilds.note_eq hnoted
    have hlayout : ((s.credit site.gas).noteValid site).layout = s.layout :=
      (alike_noteValid _ site).layout.trans (layout_credit s site.gas)
    rw [hscene] at henters
    refine ⟨r, some f, entered, s.scene, c, hr, hbuilds, ?_, henters, hleaves⟩
    intro g
    rw [hentry, entersFunction_iff, hlayout]
    simp [scene]

end Pass

end TraceTree.Build
