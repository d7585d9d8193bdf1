import TraceTree.Proofs.Build.Run

/-!
Steps that succeed. Where no constructor is awaited or reached and the stack is known, a step goes
through, and what it makes of the layout is plain: it enters a function, returns from one, calls or
does nothing, and then the call frame closes when the next step runs less deep. Main statements: one
for each of these (`step_stays`, `step_enters`, `step_returns`, `step_calls`).
-/
namespace TraceTree.Build

namespace Layout

/-- The layout after a step: the call frame closes when the next step runs less deep. -/
def settle (k : Layout) (site : Site) : Layout :=
  if site.comesBack then k.closeCall site.step else k

end Layout

namespace Pass

variable {p q : Pass} {src : Sources} {site : Site}

/-! ### Nothing awaited -/

theorem awaited_noteValid (p : Pass) (site : Site) : (p.noteValid site).awaited = p.awaited := by
  rw [noteValid]
  split <;> rfl

theorem awaited_observe (p : Pass) (src : Sources) (site : Site) :
    (p.observe src site).awaited = p.awaited := by
  rw [observe, awaited_noteValid]

theorem awaited_track (p : Pass) (site : Site) : (p.track site).awaited = p.awaited := by
  rw [track]
  split <;> rfl

theorem await_eq_self (hawaited : p.awaited = none) (hquiet : site.Quiet) :
    p.await site = p := by
  rw [await, hawaited]
  cases hf : site.constructor? with
  | none => rfl
  | some f =>
    rw [Site.Quiet, hf] at hquiet
    dsimp only
    rw [if_neg]
    simp only [Bool.and_eq_true]
    rintro ⟨⟨hcreation, hvalid⟩, -⟩
    exact hquiet ⟨hcreation, hvalid, rfl⟩

theorem takeAwaited_eq_self (hawaited : p.awaited = none) : p.takeAwaited site = (p, none) := by
  rw [takeAwaited, hawaited]

/-- The pass at a step that no constructor has to do with. -/
def reach (p : Pass) (src : Sources) (site : Site) : Pass := (p.observe src site).track site

theorem alike_reach (p : Pass) (src : Sources) (site : Site) : Alike p (p.reach src site) :=
  (alike_observe p src site).trans (alike_track _ site)

theorem awaited_reach (p : Pass) (src : Sources) (site : Site) :
    (p.reach src site).awaited = p.awaited := by
  rw [reach, awaited_track, awaited_observe]

theorem step_of_quiet (hawaited : p.awaited = none) (hquiet : site.Quiet) :
    p.step src site = (p.reach src site).advance src site
      (Pass.entry? (p.observe src site) site false) site.gas := by
  have hreach := (awaited_reach p src site).trans hawaited
  refine step_of_none ?_
  rw [arrive, ← reach, await_eq_self hreach hquiet, takeAwaited_eq_self hreach]

/-! ### Entries -/

theorem top_frame_of_layout (h : q.layout = p.layout) :
    q.scopes.top.frame = p.scopes.top.frame := by
  obtain ⟨around, hp⟩ := p.layout_frames
  rw [← h] at hp
  exact top_frame_eq hp

theorem isActive_of_top {f : Nat} (h : p.scopes.top.function = some f) :
    p.scopes.isActive f := by
  obtain ⟨around, hlist⟩ := p.scopes.toList_eq
  rw [ScopeStack.isActive, hlist, ScopeStack.splitCall]
  split
  · simp [h]
  · simp [h]

theorem guard_bind_eq_some_iff {α : Type} {P : Prop} [Decidable P] {o : Option α} {a : α} :
    (guard P >>= fun _ => o) = some a ↔ P ∧ o = some a := by
  by_cases hp : P
  · rw [guard, if_pos hp]
    exact ⟨fun h => ⟨hp, h⟩, fun h => h.2⟩
  · rw [guard, if_neg hp]
    constructor
    · intro h
      cases h
    · rintro ⟨h, -⟩
      exact absurd h hp

/-- What a step enters is the function at its place in the code, when it is at the entry point or
the function is not active. -/
theorem entry?_eq_some_iff {again : Bool} {f : Nat} : Pass.entry? p site again = some f ↔
    ∃ row, site.bytecode.userFunctionAt? site.current.pc = some row ∧ row.id = some f ∧
      site.raw.jump ≠ .out ∧ (site.current.pc = row.entryPoint ∨ ¬ p.scopes.isActive f) ∧
      ¬ (again ∧ p.scopes.top.function = some f) := by
  rw [ entry?, Option.bind_eq_bind, Option.bind_eq_some_iff]
  refine exists_congr fun row => and_congr_right fun _ => ?_
  rw [Option.bind_eq_bind, Option.bind_eq_some_iff]
  constructor
  · rintro ⟨id, hid, h⟩
    rw [guard_bind_eq_some_iff, guard_bind_eq_some_iff, guard_bind_eq_some_iff] at h
    obtain ⟨hjump, hactive, hagain, h⟩ := h
    cases h
    exact ⟨hid, hjump, hactive, hagain⟩
  · rintro ⟨hid, hjump, hactive, hagain⟩
    refine ⟨f, hid, ?_⟩
    rw [guard_bind_eq_some_iff, guard_bind_eq_some_iff, guard_bind_eq_some_iff]
    exact ⟨hjump, hactive, hagain, rfl⟩

theorem entry?_of_out (hout : site.raw.jump = .out) (again : Bool) :
    Pass.entry? p site again = none := by
  rw [Option.eq_none_iff_forall_ne_some]
  intro f hf
  obtain ⟨row, -, -, hjump, -⟩ := entry?_eq_some_iff.1 hf
  exact hjump hout

theorem entry?_of_staysIn {within : Option Nat} (hstays : site.StaysIn within)
    (htop : ∀ f, within = some f → p.scopes.top.function = some f) :
    Pass.entry? p site false = none := by
  rw [Option.eq_none_iff_forall_ne_some]
  intro f hf
  obtain ⟨row, hrow, hid, -, hactive, -⟩ := entry?_eq_some_iff.1 hf
  obtain ⟨hne, g, hg, hid'⟩ := hstays row hrow
  rw [hid] at hid'
  cases hid'
  rcases hactive with hpc | hactive
  · exact hne hpc.symm
  · exact hactive (isActive_of_top (htop f hg))

theorem entry?_of_enters {f : Nat} (hjump : site.raw.jump ≠ .out) (henters : site.Enters f) :
    Pass.entry? p site false = some f := by
  obtain ⟨row, hrow, hid, hpc⟩ := henters
  exact entry?_eq_some_iff.2 ⟨row, hrow, hid, hjump, .inl hpc.symm, by simp⟩

/-! ### Opening -/

theorem exists_openScope (step firstStep : Nat) (kind : ScopeKind) (code : CodeAddress)
    (function : Option Nat) (hroom : p.scopes.size < src.options.maxScopeDepth) :
    ∃ q, p.openScope src step firstStep kind code function = .ok q ∧ q.awaited = p.awaited := by
  rw [openScope]
  dsimp only
  rw [if_neg (Nat.not_le.2 hroom)]
  exact ⟨_, rfl, rfl⟩

theorem exists_openFunction {f : FunctionDefinition} {kind : ScopeKind} {n : Nat}
    (hroom : p.scopes.size < src.options.maxScopeDepth)
    (hstack : src.stackLengthAt site.step = .ok n) :
    ∃ q, p.openFunction src site f kind = .ok q ∧ q.awaited = p.awaited := by
  obtain ⟨r, hr, hawaited⟩ :=
    exists_openScope site.step site.step kind site.code (some f.id) hroom
  exact ⟨_, bind_eq_ok.2 ⟨r, hr, bind_eq_ok.2 ⟨n, hstack, rfl⟩⟩, hawaited⟩

theorem exists_openCall {kind : CodeAddress → ScopeKind} {callee : CodeAddress}
    (hroom : p.scopes.size < src.options.maxScopeDepth)
    (hcode : src.codeAt (site.step + 1) = .ok callee) :
    ∃ q, p.openCall src site kind = .ok q ∧ q.awaited = p.awaited := by
  obtain ⟨r, hr, hawaited⟩ :=
    exists_openScope site.step (site.step + 1) (kind callee) callee none hroom
  exact ⟨r, bind_eq_ok.2 ⟨callee, hcode, hr⟩, hawaited⟩

theorem exists_declareLocals {n : Nat} (hstack : src.stackLengthAt site.step = .ok n) :
    ∃ q, p.declareLocals src site = .ok q ∧ q.awaited = p.awaited := by
  rw [declareLocals]
  split
  · exact ⟨p, rfl, rfl⟩
  · exact ⟨_, bind_eq_ok.2 ⟨n, hstack, rfl⟩, rfl⟩

/-! ### Steps -/

/-- A step at which nothing is entered and no call leads deeper is charged and leaves. -/
theorem advance_of_none (hcall : ¬ site.goesDeeper) (gas : Nat) :
    p.advance src site none gas =
      if site.comesBack then .ok ((p.credit gas).closeCall site.step)
      else (p.credit gas).finish src site := by
  rw [advance, if_neg (by simp [hcall]), enter]
  show (if site.comesBack then _ else if site.goesDeeper then _ else _) = _
  split
  · rfl
  · rfl

/-- A step that stays in its scope leaves the layout alone. -/
theorem step_stays {within : Option Nat} {n : Nat} (hawaited : p.awaited = none)
    (hquiet : site.Quiet) (hstack : src.stackLengthAt site.step = .ok n)
    (hjump : site.raw.jump ≠ .out) (hdeeper : ¬ site.goesDeeper) (hstays : site.StaysIn within)
    (htop : ∀ f, within = some f → p.scopes.top.function = some f) :
    ∃ q, p.step src site = .ok q ∧ q.awaited = none ∧ q.layout = p.layout.settle site := by
  have hentry : Pass.entry? (p.observe src site) site false = none := by
    refine entry?_of_staysIn hstays ?_
    intro f hf
    have hframe := top_frame_of_layout (alike_observe p src site).layout
    exact (congrArg Frame.function hframe).trans (htop f hf)
  have hreach := (awaited_reach p src site).trans hawaited
  have hlayout := (alike_reach p src site).layout
  rw [step_of_quiet hawaited hquiet, hentry, advance_of_none hdeeper, Layout.settle]
  split
  · refine ⟨_, rfl, hreach, ?_⟩
    rw [layout_closeCall, layout_credit, hlayout]
  · rw [finish, if_neg fun h => hjump h.1]
    split
    · obtain ⟨q, hq, hq'⟩ := exists_declareLocals (p := (p.reach src site).credit site.gas) hstack
      refine ⟨q, hq, hq'.trans hreach, ?_⟩
      rw [(alike_declareLocals hq).layout, layout_credit, hlayout]
    · exact ⟨_, rfl, hreach, (layout_credit _ _).trans hlayout⟩

/-- A function closes before the call frame around it does. -/
theorem closeCall_closeTop {k : Layout} {top next : Frame} {around : List Frame}
    (hframes : k.frames = top :: next :: around) (htop : ¬ top.kind.isFrame) (x : Nat) :
    k.closeCall x = (k.closeTop x).closeCall x := by
  have hrest : (k.closeTop x).frames = next :: around := by
    rw [Layout.closeTop, hframes]
  rw [Layout.closeCall, Layout.closeCall, hrest, hframes, Layout.callSize, if_neg htop,
    Layout.close]

theorem awaited_closeFunction (p : Pass) (lastStep : Nat) :
    (p.closeFunction lastStep).awaited = p.awaited := by
  rw [closeFunction]
  split
  · rfl
  · dsimp only
    split <;> rfl

theorem nested_ne_nil_of_frames {top next : Frame} {around : List Frame}
    (hframes : p.layout.frames = top :: next :: around) : p.scopes.nested ≠ [] := by
  intro hnil
  have hlength := p.length_frames
  rw [hframes, ScopeStack.size, hnil] at hlength
  simp at hlength

/-- A return closes the innermost function. -/
theorem step_returns {top next : Frame} {around : List Frame} (hawaited : p.awaited = none)
    (hquiet : site.Quiet) (hjump : site.raw.jump = .out) (hdeeper : ¬ site.goesDeeper)
    (hframes : p.layout.frames = top :: next :: around) (htop : top.kind = .internalFunction) :
    ∃ q, p.step src site = .ok q ∧ q.awaited = none ∧
      q.layout = (p.layout.closeTop site.step).settle site := by
  have hreach := (awaited_reach p src site).trans hawaited
  have hlayout : ((p.reach src site).credit site.gas).layout = p.layout :=
    (layout_credit _ _).trans (alike_reach p src site).layout
  rw [step_of_quiet hawaited hquiet, entry?_of_out hjump, advance_of_none hdeeper, Layout.settle]
  split
  · refine ⟨_, rfl, hreach, ?_⟩
    rw [layout_closeCall, hlayout, closeCall_closeTop hframes (by rw [htop]; decide)]
  · rw [← hlayout] at hframes
    have hkind : ((p.reach src site).credit site.gas).scopes.top.kind = .internalFunction :=
      (congrArg Frame.kind (top_frame_eq hframes)).trans htop
    rw [finish, if_pos ⟨hjump, hkind⟩]
    refine ⟨_, rfl, (awaited_closeFunction _ _).trans hreach, ?_⟩
    rw [layout_closeFunction (nested_ne_nil_of_frames hframes), hlayout]

/-- A step that enters a function opens its scope. -/
theorem step_enters {f : Nat} {g : FunctionDefinition} {n : Nat} (hawaited : p.awaited = none)
    (hquiet : site.Quiet) (hstack : src.stackLengthAt site.step = .ok n)
    (hroom : p.layout.frames.length < src.options.maxScopeDepth) (hjump : site.raw.jump ≠ .out)
    (hopcode : ¬ site.current.opcode.opensFrame) (hdeeper : ¬ site.goesDeeper)
    (henters : site.Enters f) (hdefinition : site.artifact.functionDefinition? f = some g)
    (hconstructor : ¬ g.isConstructor) :
    ∃ q a, p.step src site = .ok q ∧ q.awaited = none ∧ a.functionId = g.id ∧
      a.scope = p.layout.nextId ∧ q.layout =
        ((p.layout.openScope site.step .internalFunction site.code (some g.id)).addActivation
          a).settle site := by
  have hreach := (awaited_reach p src site).trans hawaited
  have hlayout := (alike_reach p src site).layout
  rw [← hlayout, length_frames] at hroom
  obtain ⟨r, hr, hawaited'⟩ : ∃ r, (p.reach src site).openFunction src site g .internalFunction =
      .ok r ∧ r.awaited = (p.reach src site).awaited := exists_openFunction hroom hstack
  obtain ⟨a, hfunction, hscope, -, -, hopened⟩ := layout_openFunction hr
  rw [hlayout] at hscope hopened
  have hentered : (p.reach src site).enter src site (some f) = .ok (r, true) := by
    rw [enter, Option.bind_some, hdefinition]
    dsimp only
    rw [if_neg hconstructor, hr]
    rfl
  have hadvance : (p.reach src site).advance src site (some f) site.gas =
      if site.comesBack then .ok ((r.credit site.gas).closeCall site.step)
      else .ok (r.credit site.gas) := by
    rw [advance, if_neg (by simp [hopcode]), hentered]
    show (if site.comesBack then _ else if site.goesDeeper then _ else _) = _
    split
    · rfl
    · rfl
  rw [step_of_quiet hawaited hquiet, entry?_of_enters hjump henters, hadvance]
  by_cases hback : site.comesBack
  · rw [if_pos hback]
    refine ⟨_, a, rfl, hawaited'.trans hreach, hfunction, hscope, ?_⟩
    rw [layout_closeCall, layout_credit, hopened, Layout.settle, if_pos hback]
  · rw [if_neg hback]
    refine ⟨_, a, rfl, hawaited'.trans hreach, hfunction, hscope, ?_⟩
    rw [layout_credit, hopened, Layout.settle, if_neg hback]

/-- A message call opens the callee's frame at the next step. -/
theorem step_calls {callee : CodeAddress} (hawaited : p.awaited = none) (hquiet : site.Quiet)
    (hroom : p.layout.frames.length < src.options.maxScopeDepth)
    (hopcode : site.current.opcode.isCall) (hdeeper : site.goesDeeper)
    (hcode : src.codeAt (site.step + 1) = .ok callee) :
    ∃ q, p.step src site = .ok q ∧ q.awaited = none ∧
      q.layout = p.layout.openScope (site.step + 1) .externalCall callee none := by
  have hreach := (awaited_reach p src site).trans hawaited
  have hlayout : ((p.reach src site).credit site.gas).layout = p.layout :=
    (layout_credit _ _).trans (alike_reach p src site).layout
  rw [← hlayout, length_frames] at hroom
  have hkind : (if site.current.opcode.isCreate then ScopeKind.creation else .externalCall) =
      .externalCall := by
    rw [if_neg]
    simp only [Opcode.isCall, Opcode.isCreate, Bool.or_eq_true, beq_iff_eq] at hopcode ⊢
    rcases hopcode with ((h | h) | h) | h <;> rw [h] <;> decide
  obtain ⟨q, hq, hawaited'⟩ : ∃ q, ((p.reach src site).credit site.gas).openCall src site
      (fun _ => .externalCall) = .ok q ∧ q.awaited = (p.reach src site).awaited :=
    exists_openCall hroom hcode
  obtain ⟨callee', hcode', hopened⟩ := layout_openCall hq
  rw [hcode] at hcode'
  cases hcode'
  refine ⟨q, ?_, hawaited'.trans hreach, by rw [hopened, hlayout]⟩
  rw [step_of_quiet hawaited hquiet, advance,
    if_pos (by simp [Opcode.opensFrame, hopcode, hdeeper])]
  dsimp only
  rw [hkind]
  exact hq

end Pass

end TraceTree.Build
