import TraceTree.Proofs.Artifact
import TraceTree.Proofs.Build.Variables
import TraceTree.Proofs.Build.Locations
import TraceTree.Proofs.CallTree.SameRun

/-!
What a reconstruction notes besides the run does not touch the run. Two passes that differ only in
local variables, gas by line, lines and columns, and where that is allowed in the last valid
locations, go through a step alike. Main statement: two reconstructions from one context and
one resolver that both end in a tree tell the same of the run, whatever their options and converters
are, and show the same locations when they agree on generated sources (`build_sameRun`).
-/
namespace TraceTree.Build

/-! ### Open scopes without what they remember -/

/-- The open scope without its last valid location, unless that is kept. -/
def OpenScope.plain (keep : Bool) (s : OpenScope) : OpenScope :=
  { s with lastValid := if keep then s.lastValid else none }

theorem OpenScope.plain_eq_iff {keep : Bool} {s s' : OpenScope} :
    s'.plain keep = s.plain keep ↔ s'.id = s.id ∧ s'.kind = s.kind ∧ s'.children = s.children ∧
      s'.tracked = s.tracked ∧ s'.function = s.function ∧ (keep → s'.lastValid = s.lastValid) := by
  cases keep <;> simp [plain]
  grind

namespace ScopeStack

/-- The open scopes without their last valid locations, unless those are kept. -/
def plain (keep : Bool) (opened : ScopeStack) : ScopeStack :=
  { root := opened.root.plain keep, nested := opened.nested.map (·.plain keep) }

variable {keep : Bool} {opened opened' : ScopeStack}

theorem top_plain (keep : Bool) (opened : ScopeStack) :
    (opened.plain keep).top = opened.top.plain keep := by
  cases h : opened.nested <;> simp [top, plain, h]

theorem toList_plain (keep : Bool) (opened : ScopeStack) :
    (opened.plain keep).toList = opened.toList.map (·.plain keep) := by
  simp [toList, plain]

theorem splitCall_plain (keep : Bool) (scopes : List OpenScope) :
    splitCall (scopes.map (·.plain keep)) =
      ((splitCall scopes).1.map (·.plain keep), (splitCall scopes).2.map (·.plain keep)) := by
  induction scopes with
  | nil => rfl
  | cons inner rest ih =>
    have hkind : (inner.plain keep).kind = inner.kind := rfl
    rw [List.map_cons, splitCall, splitCall, hkind, ih]
    split_ifs <;> rfl

theorem isActive_plain (keep : Bool) (opened : ScopeStack) (f : Nat) :
    (opened.plain keep).isActive f = opened.isActive f := by
  rw [isActive, isActive, toList_plain, splitCall_plain, List.any_map]
  rfl

/-- A change of the innermost scopes that goes by what is kept of them. -/
theorem plain_modifyTop (h : opened'.plain keep = opened.plain keep) {f f' : OpenScope → OpenScope}
    (hf : ∀ s s', s'.plain keep = s.plain keep → (f' s').plain keep = (f s).plain keep) :
    (opened'.modifyTop f').plain keep = (opened.modifyTop f).plain keep := by
  obtain ⟨root, nested⟩ := opened
  obtain ⟨root', nested'⟩ := opened'
  obtain ⟨hroot, hnested⟩ := (mk.injEq ..).mp h
  cases nested with
  | nil =>
    obtain rfl : nested' = [] := by simpa using hnested
    simp [modifyTop, plain, hf root root' hroot]
  | cons inner rest =>
    cases nested' with
    | nil => cases hnested
    | cons inner' rest' =>
      obtain ⟨hinner, hrest⟩ := List.cons.inj hnested
      simp [modifyTop, plain, hf inner inner' hinner, hroot, hrest]

theorem plain_modifyTop_self {f : OpenScope → OpenScope}
    (hf : ∀ s, (f s).plain keep = s.plain keep) (opened : ScopeStack) :
    (opened.modifyTop f).plain keep = opened.plain keep := by
  rw [modifyTop]
  cases h : opened.nested <;> simp [plain, h, hf]

theorem plain_push (keep : Bool) (opened : ScopeStack) (s : OpenScope) :
    (opened.push s).plain keep = (opened.plain keep).push (s.plain keep) := rfl

theorem plain_nested (h : opened'.plain keep = opened.plain keep) {inner inner' : List OpenScope}
    (hinner : inner'.map (·.plain keep) = inner.map (·.plain keep)) :
    ({ opened' with nested := inner' } : ScopeStack).plain keep =
      ({ opened with nested := inner } : ScopeStack).plain keep := by
  have hroot := congrArg ScopeStack.root h
  simp_all [plain]

end ScopeStack

namespace Pass

/-- Hands a last valid location to the innermost open scope. -/
def handBack (p : Pass) : Option SourceLocation → Pass
  | some l => p.modifyScope fun s => { s with lastValid := some l }
  | none => p

theorem closeFunction_cons {p : Pass} {inner : OpenScope} {outer : List OpenScope}
    (h : p.scopes.nested = inner :: outer) (lastStep : Nat) :
    p.closeFunction lastStep =
      handBack { p with
        scopes := { p.scopes with nested := outer }
        tree := p.tree.closeScope inner.id lastStep } inner.lastValid := by
  rw [closeFunction, h]
  rfl

/-! ### Passes that tell the same of a run -/

/-- Two passes that tell the same of the run so far and go on from the same scopes. -/
structure SameRun (keep : Bool) (p p' : Pass) : Prop where
  tree : p.tree.SameRun keep p'.tree
  scopes : p'.scopes.plain keep = p.scopes.plain keep
  awaited : p'.awaited = p.awaited
  constructed : p'.constructed = p.constructed

namespace SameRun

-- The second pass may differ in whether a location is valid; `v` says whether it is there.
variable {keep v : Bool} {p p' q q' r : Pass} {src src' : Sources} {site : Site}

theorem refl (p : Pass) : SameRun keep p p := ⟨.refl _, rfl, rfl, rfl⟩

theorem symm (h : SameRun keep p p') : SameRun keep p' p :=
  ⟨h.tree.symm, h.scopes.symm, h.awaited.symm, h.constructed.symm⟩

theorem trans (h : SameRun keep p p') (h' : SameRun keep p' q) : SameRun keep p q :=
  ⟨h.tree.trans h'.tree, h'.scopes.trans h.scopes, h'.awaited.trans h.awaited,
    h'.constructed.trans h.constructed⟩

theorem top (h : SameRun keep p p') :
    p'.scopes.top.plain keep = p.scopes.top.plain keep := by
  rw [← ScopeStack.top_plain, ← ScopeStack.top_plain, h.scopes]

theorem scope (h : SameRun keep p p') : p'.scope = p.scope := (OpenScope.plain_eq_iff.1 h.top).1

theorem modifyScope (h : SameRun keep p p') {f f' : OpenScope → OpenScope}
    (hf : ∀ s s', s'.plain keep = s.plain keep → (f' s').plain keep = (f s).plain keep) :
    SameRun keep (p.modifyScope f) (p'.modifyScope f') :=
  { h with scopes := ScopeStack.plain_modifyTop h.scopes hf }

/-! ### Locations -/

/-- What is remembered makes no difference when it is not kept. -/
theorem of_lastValid (p : Pass) (l : SourceLocation) :
    SameRun false p (p.modifyScope fun s => { s with lastValid := some l }) := by
  have hscopes : (p.scopes.modifyTop fun s => { s with lastValid := some l }).plain false =
      p.scopes.plain false :=
    ScopeStack.plain_modifyTop_self (f := fun s => { s with lastValid := some l }) (fun _ => rfl) _
  exact { refl p with scopes := hscopes }

theorem of_noteValid (p : Pass) (site : Site) : SameRun false p (p.noteValid site) := by
  rw [Pass.noteValid]
  split_ifs
  · exact of_lastValid p site.raw
  · exact refl p

theorem noteValid (h : SameRun keep p p') (hv : keep → v = site.isValid) :
    SameRun keep (p.noteValid site) (p'.noteValid { site with isValid := v }) := by
  cases keep with
  | false => exact ((of_noteValid p site).symm.trans h).trans (of_noteValid p' _)
  | true =>
    obtain rfl := hv rfl
    rw [Pass.noteValid, Pass.noteValid]
    split_ifs
    · exact h.modifyScope fun s s' hs => congrArg (fun s => { s with lastValid := some site.raw }) hs
    · exact h

theorem locationAt (h : SameRun keep p p') (src src' : Sources) (hv : keep → v = site.isValid) :
    (p'.locationAt src' { site with isValid := v }).plain keep =
      (p.locationAt src site).plain keep := by
  cases keep with
  | false => rfl
  | true =>
    obtain rfl := hv rfl
    obtain ⟨-, -, -, -, -, hlast⟩ := OpenScope.plain_eq_iff.1 h.top
    simp [Pass.locationAt, StepLocation.plain, hlast rfl]

theorem of_chargeLine (t : CallTree) (src : Sources) (site : Site) (l : StepLocation) :
    t.SameRun keep (chargeLine t src site l) := by
  rw [chargeLine]
  split
  · exact ⟨fun _ => rfl, rfl, rfl, rfl, rfl, rfl⟩
  · exact .refl t

theorem observe (h : SameRun keep p p') (src src' : Sources) (hv : keep → v = site.isValid) :
    SameRun keep (p.observe src site) (p'.observe src' { site with isValid := v }) := by
  refine noteValid { h with tree := ?_ } hv
  have hpush := h.tree.pushLocation (h.locationAt src src' hv)
  exact ((of_chargeLine _ _ _ _).symm.trans hpush).trans (of_chargeLine _ _ _ _)

theorem track (h : SameRun keep p p') (site : Site) :
    SameRun keep (p.track site) (p'.track site) := by
  obtain ⟨-, -, -, htracked, -, -⟩ := OpenScope.plain_eq_iff.1 h.top
  rw [Pass.track, Pass.track, htracked]
  split_ifs
  · exact h
  · have hbreak : SameRun keep { p with tree := p.tree.addBreakpoint site.step }
        { p' with tree := p'.tree.addBreakpoint site.step } :=
      { h with tree := h.tree.addBreakpoint site.step }
    refine hbreak.modifyScope fun s s' hs => ?_
    exact congrArg (fun s => { s with tracked := some site.raw }) hs

/-! ### Constructors -/

theorem await (h : SameRun keep p p') (hv : site.constructor?.isSome → v = site.isValid) :
    SameRun keep (p.await site) (p'.await { site with isValid := v }) := by
  have hconstructor : Site.constructor? { site with isValid := v } = site.constructor? := rfl
  rw [Pass.await, Pass.await, h.awaited, h.constructed, hconstructor]
  split
  · rename_i f hawaited hf
    obtain rfl := hv (by simp [hf])
    split_ifs
    · exact ⟨h.tree, h.scopes, rfl, rfl⟩
    · exact h
  · exact h

theorem takeAwaited (h : SameRun keep p p') (site : Site) :
    SameRun keep (p.takeAwaited site).1 (p'.takeAwaited site).1 ∧
      (p'.takeAwaited site).2 = (p.takeAwaited site).2 := by
  rw [Pass.takeAwaited, Pass.takeAwaited, h.awaited, h.constructed]
  split
  · exact ⟨h, rfl⟩
  · split
    · exact ⟨h, rfl⟩
    · dsimp only
      split
      · exact ⟨⟨h.tree, h.scopes, rfl, rfl⟩, rfl⟩
      · exact ⟨⟨h.tree, h.scopes, rfl, rfl⟩, rfl⟩

/-! ### Opening -/

theorem entry?_eq (h : SameRun keep p p') (site : Site) (again : Bool) :
    p'.entry? { site with isValid := v } again = p.entry? site again := by
  have hactive : p'.scopes.isActive = p.scopes.isActive := by
    funext f
    rw [← ScopeStack.isActive_plain keep, ← ScopeStack.isActive_plain keep p.scopes, h.scopes]
  obtain ⟨-, -, -, -, hfunction, -⟩ := OpenScope.plain_eq_iff.1 h.top
  rw [Pass.entry?, Pass.entry?, hactive, hfunction]
  rfl

theorem credit (h : SameRun keep p p') (gas : Nat) : SameRun keep (p.credit gas) (p'.credit gas) := by
  rw [Pass.credit, Pass.credit, h.scope]
  exact { h with tree := h.tree.creditGas p.scope gas }

theorem openScope (h : SameRun keep p p') {step firstStep : Nat} {kind : ScopeKind}
    {code : CodeAddress} {function : Option Nat}
    (hq : p.openScope src step firstStep kind code function = .ok q)
    (hq' : p'.openScope src' step firstStep kind code function = .ok q') : SameRun keep q q' := by
  obtain ⟨hid, -, hchildren, -, -, hlast⟩ := OpenScope.plain_eq_iff.1 h.top
  rw [Pass.openScope] at hq hq'
  split at hq
  · cases hq
  split at hq'
  · cases hq'
  cases hq
  cases hq'
  rw [hid, hchildren]
  refine ⟨h.tree.openScope _, ?_, h.awaited, h.constructed⟩
  rw [ScopeStack.plain_push, ScopeStack.plain_push]
  congr 1
  · exact ScopeStack.plain_modifyTop h.scopes fun s s' hs =>
      congrArg (fun s => { s with children := s.children + 1 }) hs
  · exact OpenScope.plain_eq_iff.2 ⟨rfl, rfl, rfl, rfl, rfl, hlast⟩

theorem openFunction (h : SameRun keep p p') (hcontext : src'.context = src.context)
    {f : FunctionDefinition} {kind : ScopeKind} (hq : p.openFunction src site f kind = .ok q)
    (hq' : p'.openFunction src' site f kind = .ok q') : SameRun keep q q' := by
  obtain ⟨r, hr, hq⟩ := bind_eq_ok.1 hq
  obtain ⟨r', hr', hq'⟩ := bind_eq_ok.1 hq'
  obtain ⟨n, hn, hq⟩ := bind_eq_ok.1 hq
  obtain ⟨n', hn', hq'⟩ := bind_eq_ok.1 hq'
  rw [Sources.stackLengthAt, hcontext, ← Sources.stackLengthAt, hn] at hn'
  cases hn'
  cases hq
  cases hq'
  have hopen := h.openScope hr hr'
  rw [hopen.scope]
  refine { hopen with tree := CallTree.SameRun.addActivation (hopen.tree.addParameters ?_) _ }
  exact fun _ hrecord => (FunctionDefinition.of_mem_registerParameters hrecord).2.2

theorem openCall (h : SameRun keep p p') (hcontext : src'.context = src.context)
    {kind : CodeAddress → ScopeKind} (hq : p.openCall src site kind = .ok q)
    (hq' : p'.openCall src' site kind = .ok q') : SameRun keep q q' := by
  obtain ⟨callee, hcallee, hq⟩ := bind_eq_ok.1 hq
  obtain ⟨callee', hcallee', hq'⟩ := bind_eq_ok.1 hq'
  rw [Sources.codeAt, hcontext, ← Sources.codeAt, hcallee] at hcallee'
  cases hcallee'
  exact h.openScope hq hq'

theorem enter (h : SameRun keep p p') (hcontext : src'.context = src.context)
    {entry : Option Nat} {opened opened' : Bool} (hq : p.enter src site entry = .ok (q, opened))
    (hq' : p'.enter src' { site with isValid := v } entry = .ok (q', opened')) :
    SameRun keep q q' ∧ opened' = opened := by
  rcases enter_cases hq with ⟨rfl, hopened, hno⟩ | ⟨f, hf, hbody, hopened, hopen⟩
  · rcases enter_cases hq' with ⟨rfl, hopened', -⟩ | ⟨f', hf', hbody', -, -⟩
    · exact ⟨h, by simp_all⟩
    · exact absurd (hno f' hf') hbody'
  · rcases enter_cases hq' with ⟨-, -, hno'⟩ | ⟨f', hf', -, hopened', hopen'⟩
    · exact absurd (hno' f hf) hbody
    · obtain rfl : f = f' := Option.some.inj (hf.symm.trans hf')
      exact ⟨h.openFunction hcontext hopen hopen', by simp_all⟩

/-! ### Closing -/

theorem closeAll {t t' : CallTree} (h : t.SameRun keep t') {scopes scopes' : List OpenScope}
    (hscopes : scopes'.map (·.plain keep) = scopes.map (·.plain keep)) (lastStep : Nat) :
    (closeAll t scopes lastStep).SameRun keep (closeAll t' scopes' lastStep) := by
  induction scopes generalizing t t' scopes' with
  | nil =>
    obtain rfl : scopes' = [] := by simpa using hscopes
    exact h
  | cons s scopes ih =>
    cases scopes' with
    | nil => cases hscopes
    | cons s' scopes' =>
      obtain ⟨hs, hrest⟩ := List.cons.inj hscopes
      rw [Pass.closeAll, Pass.closeAll, List.foldl_cons, List.foldl_cons,
        (OpenScope.plain_eq_iff.1 hs).1]
      exact ih (h.closeScope s.id lastStep) hrest

theorem nested (h : SameRun keep p p') :
    p'.scopes.nested.map (·.plain keep) = p.scopes.nested.map (·.plain keep) :=
  congrArg ScopeStack.nested h.scopes

theorem closeCall (h : SameRun keep p p') (lastStep : Nat) :
    SameRun keep (p.closeCall lastStep) (p'.closeCall lastStep) := by
  have hsplit := congrArg ScopeStack.splitCall h.nested
  rw [ScopeStack.splitCall_plain, ScopeStack.splitCall_plain, Prod.mk.injEq] at hsplit
  exact ⟨closeAll h.tree hsplit.1 lastStep, ScopeStack.plain_nested h.scopes hsplit.2, h.awaited,
    h.constructed⟩

theorem of_handBack (p : Pass) (last : Option SourceLocation) :
    SameRun false p (p.handBack last) := by
  cases last with
  | none => exact refl p
  | some l => exact of_lastValid p l

theorem handBack (h : SameRun keep p p') {last last' : Option SourceLocation}
    (hlast : keep → last' = last) : SameRun keep (p.handBack last) (p'.handBack last') := by
  cases keep with
  | false => exact ((of_handBack p last).symm.trans h).trans (of_handBack p' last')
  | true =>
    obtain rfl := hlast rfl
    cases last' with
    | none => exact h
    | some l => exact h.modifyScope fun s s' hs => congrArg (fun s => { s with lastValid := some l }) hs

theorem closeFunction (h : SameRun keep p p') (lastStep : Nat) :
    SameRun keep (p.closeFunction lastStep) (p'.closeFunction lastStep) := by
  have hnested := h.nested
  cases hp : p.scopes.nested with
  | nil =>
    have hp' : p'.scopes.nested = [] := by simpa [hp] using hnested
    rw [Pass.closeFunction, Pass.closeFunction, hp, hp']
    exact h
  | cons inner outer =>
    cases hp' : p'.scopes.nested with
    | nil => simp [hp, hp'] at hnested
    | cons inner' outer' =>
      rw [hp, hp'] at hnested
      obtain ⟨hinner, houter⟩ := List.cons.inj hnested
      obtain ⟨hid, -, -, -, -, hlast⟩ := OpenScope.plain_eq_iff.1 hinner
      rw [closeFunction_cons hp, closeFunction_cons hp', hid]
      have hclosed : SameRun keep
          { p with
            scopes := { p.scopes with nested := outer }
            tree := p.tree.closeScope inner.id lastStep }
          { p' with
            scopes := { p'.scopes with nested := outer' }
            tree := p'.tree.closeScope inner.id lastStep } :=
        ⟨h.tree.closeScope _ _, ScopeStack.plain_nested h.scopes houter, h.awaited, h.constructed⟩
      exact hclosed.handBack hlast

/-! ### Local variables -/

theorem of_declareLocals (hq : p.declareLocals src site = .ok q) : SameRun keep p q := by
  rw [Pass.declareLocals] at hq
  split at hq
  · cases hq
    exact refl p
  · obtain ⟨n, -, hq⟩ := bind_eq_ok.1 hq
    cases hq
    refine { refl p with tree := CallTree.sameRun_addLocals fun r hr => ?_ }
    obtain ⟨hscope, -, hlocal, hknown⟩ := VariableDeclaration.of_mem_localRecords hr
    rw [hscope]
    exact ⟨hlocal, CallTree.freeOfParameter_of_not_hasLocal hknown⟩

/-! ### Steps -/

/-- A step that does not return at most declares variables. -/
theorem of_finish (hreturn : ¬ (site.raw.jump = .out ∧ p.scopes.top.kind = .internalFunction))
    (hq : p.finish src site = .ok q) : SameRun keep p q := by
  rw [Pass.finish, if_neg hreturn] at hq
  split at hq
  · exact of_declareLocals hq
  · cases hq
    exact refl p

theorem finish (h : SameRun keep p p') (hq : p.finish src site = .ok q)
    (hq' : p'.finish src' { site with isValid := v } = .ok q') : SameRun keep q q' := by
  obtain ⟨-, hkind, -, -, -, -⟩ := OpenScope.plain_eq_iff.1 h.top
  by_cases hreturn : site.raw.jump = .out ∧ p.scopes.top.kind = .internalFunction
  · rw [Pass.finish, if_pos hreturn] at hq
    rw [Pass.finish, hkind, if_pos hreturn] at hq'
    cases hq
    cases hq'
    exact h.closeFunction site.step
  · refine ((of_finish hreturn hq).symm.trans h).trans (of_finish ?_ hq')
    rwa [hkind]

theorem leave (h : SameRun keep p p') (hcontext : src'.context = src.context) {opened : Bool}
    (hq : p.leave src site opened = .ok q)
    (hq' : p'.leave src' { site with isValid := v } opened = .ok q') : SameRun keep q q' := by
  rw [Pass.leave] at hq hq'
  by_cases hback : site.comesBack
  · rw [if_pos hback] at hq
    rw [if_pos (by exact hback)] at hq'
    cases hq
    cases hq'
    exact h.closeCall site.step
  rw [if_neg hback] at hq
  rw [if_neg (by exact hback)] at hq'
  by_cases hdeeper : site.goesDeeper
  · rw [if_pos hdeeper] at hq
    rw [if_pos (by exact hdeeper)] at hq'
    exact h.openCall hcontext hq hq'
  rw [if_neg hdeeper] at hq
  rw [if_neg (by exact hdeeper)] at hq'
  split at hq
  · rename_i hopened
    rw [if_pos hopened] at hq'
    cases hq
    cases hq'
    exact h
  · rename_i hopened
    rw [if_neg hopened] at hq'
    exact h.finish hq hq'

theorem advance (h : SameRun keep p p') (hcontext : src'.context = src.context)
    {entry : Option Nat} {gas : Nat} (hq : p.advance src site entry gas = .ok q)
    (hq' : p'.advance src' { site with isValid := v } entry gas = .ok q') : SameRun keep q q' := by
  by_cases hcall : site.current.opcode.opensFrame ∧ site.goesDeeper
  · rw [advance_of_call hcall] at hq
    rw [advance_of_call (by exact hcall)] at hq'
    exact (h.credit gas).openCall hcontext hq hq'
  · rw [advance_of_no_call hcall] at hq
    rw [advance_of_no_call (by exact hcall)] at hq'
    obtain ⟨⟨r, opened⟩, hr, hq⟩ := bind_eq_ok.1 hq
    obtain ⟨⟨r', opened'⟩, hr', hq'⟩ := bind_eq_ok.1 hq'
    obtain ⟨hsame, rfl⟩ := h.enter hcontext hr hr'
    exact (hsame.credit gas).leave hcontext hq hq'

/-- Steps at one site, up to what is valid there, go alike. -/
theorem step (h : SameRun keep p p') (hcontext : src'.context = src.context)
    (hkeep : keep → v = site.isValid) (hconstructor : site.constructor?.isSome → v = site.isValid)
    (hq : p.step src site = .ok q) (hq' : p'.step src' { site with isValid := v } = .ok q') :
    SameRun keep q q' := by
  have hobserve := h.observe src src' hkeep
  have harrive : SameRun keep (p.arrive src site) (p'.arrive src' { site with isValid := v }) :=
    (hobserve.track site).await hconstructor
  obtain ⟨htaken, hbuilt⟩ := harrive.takeAwaited site
  cases htake : (p.arrive src site).takeAwaited site with
  | mk r built =>
    cases htake' : (p'.arrive src' { site with isValid := v }).takeAwaited site with
    | mk r' built' =>
      rw [htake, htake'] at htaken hbuilt
      obtain rfl : built' = built := hbuilt
      cases built' with
      | none =>
        rw [step_of_none htake] at hq
        rw [step_of_none (by exact htake'), hobserve.entry?_eq] at hq'
        exact htaken.advance hcontext hq hq'
      | some f =>
        rw [step_of_some htake] at hq
        rw [step_of_some (by exact htake')] at hq'
        obtain ⟨s, hs, hq⟩ := bind_eq_ok.1 hq
        obtain ⟨s', hs', hq'⟩ := bind_eq_ok.1 hq'
        have hinside := ((htaken.openFunction hcontext hs hs').credit site.gas).noteValid hkeep
        have hentry := hinside.entry?_eq (v := v) site true
        exact (hinside.track site).advance hcontext hq (hentry ▸ hq')

end SameRun

end Pass

/-! ### Sites -/

/-- Both look at one trace in one context and find the same artifacts. -/
structure Sources.SameInput (src src' : Sources) : Prop where
  context : src'.context = src.context
  resolver : src'.resolver = src.resolver

section Sites

variable {src src' : Sources} {site site' : Site} {i : Nat}

/-- What is learned about a step differs at most in whether its location is valid. -/
theorem Sources.SameInput.site_eq (h : src.SameInput src') (hsite : src.IsSite i site)
    (hsite' : src'.IsSite i site') : site' = { site with isValid := site'.isValid } := by
  obtain ⟨hstep, hcurrent, hnext, hcode, hartifact⟩ := hsite.spec
  obtain ⟨hstep', hcurrent', hnext', hcode', hartifact'⟩ := hsite'.spec
  obtain ⟨hraw, -⟩ := hsite.located
  obtain ⟨hraw', -⟩ := hsite'.located
  rw [h.context] at hcurrent' hnext'
  rw [Sources.codeAt, h.context, ← Sources.codeAt, hcode] at hcode'
  rw [Sources.artifactAt, h.resolver, ← Sources.artifactAt] at hartifact'
  have hcode := Except.ok.inj hcode'
  have hcurrent := Option.some.inj (hcurrent.symm.trans hcurrent')
  rw [← hcode] at hartifact'
  have hartifact := Except.ok.inj (hartifact.symm.trans hartifact')
  rw [Site.bytecode, ← hcode, ← hartifact, ← hcurrent, ← Site.bytecode] at hraw'
  have hraw := Except.ok.inj (hraw.symm.trans hraw')
  obtain ⟨step, current, next, code, artifact, raw, isValid⟩ := site
  obtain ⟨step', current', next', code', artifact', raw', isValid'⟩ := site'
  simp_all

/-- Validity goes by what is wanted of generated sources. -/
theorem Sources.SameInput.isValid_eq (h : src.SameInput src') (hsite : src.IsSite i site)
    (hsite' : src'.IsSite i site')
    (hgenerated : src'.options.includeGenerated = src.options.includeGenerated) :
    site'.isValid = site.isValid := by
  rw [hsite'.located.2, hsite.located.2, hgenerated, h.site_eq hsite hsite']
  rfl

/-- Where sources are numbered the text of a constructor is valid whatever is wanted. -/
theorem isValid_of_constructor? (hsite : src.IsSite i site)
    (hnumbered : site.artifact.SourcesNumbered) (h : site.constructor?.isSome) : site.isValid := by
  obtain ⟨f, hf⟩ := Option.isSome_iff_exists.1 h
  rw [Site.constructor?, Option.bind_eq_bind, Option.bind_eq_some_iff] at hf
  obtain ⟨range, hrange, hf⟩ := hf
  rw [Option.bind_eq_bind, Option.bind_eq_some_iff] at hf
  obtain ⟨g, hg, -⟩ := hf
  rw [Artifact.functionContaining?, Option.bind_eq_some_iff] at hg
  obtain ⟨source, hsource, -⟩ := hg
  rw [SourceLocation.range?, Option.map_eq_some_iff] at hrange
  obtain ⟨file, hfile, rfl⟩ := hrange
  have hlt := (hnumbered file).1 (Option.isSome_of_eq_some hsource)
  simp [hsite.located.2, Artifact.isValidLocation, hfile, hlt]

end Sites

/-! ### Reconstructions -/

section Reconstructions

variable {src src' : Sources} {tree tree' : CallTree} {pass pass' : Nat → Pass} {keep : Bool}
  {i : Nat}

/-- Of all that can be wanted the passes of two reconstructions tell the same. -/
theorem History.sameRun (hist : History src tree pass) (hist' : History src' tree' pass')
    (h : src.SameInput src')
    (hkeep : keep → src'.options.includeGenerated = src.options.includeGenerated)
    (hconstructor : ∀ {i site site'}, src.IsSite i site → src'.IsSite i site' →
      site.constructor?.isSome → site'.isValid = site.isValid)
    (hi : i ≤ src.context.trace.length) : (pass i).SameRun keep (pass' i) := by
  induction i with
  | zero =>
    obtain ⟨root, hroot, hstart⟩ := hist.start
    obtain ⟨root', hroot', hstart'⟩ := hist'.start
    rw [Sources.codeAt, h.context, ← Sources.codeAt, hroot] at hroot'
    cases hroot'
    rw [hstart, hstart', h.context]
    exact .refl _
  | succ i ih =>
    obtain ⟨st⟩ := hist.stage hi
    obtain ⟨st'⟩ := hist'.stage (h.context ▸ hi)
    have hsteps := st'.steps
    rw [h.site_eq st.isSite st'.isSite] at hsteps
    exact (ih (Nat.le_of_succ_le hi)).step h.context
      (fun hk => h.isValid_eq st.isSite st'.isSite (hkeep hk))
      (hconstructor st.isSite st'.isSite) st.steps hsteps

theorem History.sameRun_tree (hist : History src tree pass) (hist' : History src' tree' pass')
    (h : src.SameInput src')
    (hsame : (pass src.context.trace.length).SameRun keep (pass' src.context.trace.length)) :
    tree.SameRun keep tree' := by
  rw [← hist.finish, ← hist'.finish, h.context, Pass.close, Pass.close, hsame.tree.stepCount]
  refine Pass.SameRun.closeAll hsame.tree ?_ _
  rw [← ScopeStack.toList_plain, ← ScopeStack.toList_plain, hsame.scopes]

/-- What is noted of a run does not touch it. Two reconstructions of one trace that both end in a
tree tell the same of the run, whatever local variables, lines and gas of lines they note. They also
show the same locations, unless they differ in whether generated sources are wanted; if they do, the
sources of each artifact have to be numbered without gaps. -/
theorem build_sameRun (h : src.SameInput src') (hready : src.build = .ready tree)
    (hready' : src'.build = .ready tree') :
    (src'.options.includeGenerated = src.options.includeGenerated → tree.SameRun true tree') ∧
    ((∀ address artifact, src.resolver address = .ok (some artifact) →
      artifact.SourcesNumbered) → tree.SameRun false tree') := by
  obtain ⟨pass, hist⟩ := exists_history hready
  obtain ⟨pass', hist'⟩ := exists_history hready'
  refine ⟨fun hgenerated => ?_, fun hnumbered => ?_⟩
  · have hvalid : ∀ {i site site'}, src.IsSite i site → src'.IsSite i site' →
        site.constructor?.isSome → site'.isValid = site.isValid :=
      fun hsite hsite' _ => h.isValid_eq hsite hsite' hgenerated
    exact hist.sameRun_tree hist' h (hist.sameRun hist' h (fun _ => hgenerated) hvalid (le_refl _))
  · have hvalid : ∀ {i site site'}, src.IsSite i site → src'.IsSite i site' →
        site.constructor?.isSome → site'.isValid = site.isValid := by
      intro i site site' hsite hsite' hconstructor
      have heq := h.site_eq hsite hsite'
      have hfound := hnumbered _ _ hsite.resolved
      have hconstructor' : site'.constructor?.isSome := by
        rw [heq]
        exact hconstructor
      have hfound' : site'.artifact.SourcesNumbered := by
        rw [heq]
        exact hfound
      rw [isValid_of_constructor? hsite hfound hconstructor,
        isValid_of_constructor? hsite' hfound' hconstructor']
    exact hist.sameRun_tree hist' h (hist.sameRun hist' h (fun hk => by cases hk) hvalid (le_refl _))

end Reconstructions

/-- A local variable in the syntax tree of a source. -/
def sampleVariable (id : Nat) (name range : String) : Json :=
  .object [("id", .nat id), ("name", .string name), ("nodeType", .string "VariableDeclaration"),
    ("src", .string range)]

/-- The sample's contract with a local variable in the range of its first and its last step. -/
def annotatedArtifact : Artifact :=
  { sampleArtifact with
    sources := SortedMap.empty.insert 0
      { id := 0, path := "A.sol", content := "contract A"
        ast := .array [sampleFunction 1 "constructor" "" "0:100:0",
          sampleFunction 2 "function" "g" "200:50:0", sampleVariable 3 "x" "0:50:0"] } }

def annotatedSources : Sources :=
  { sampleSources with resolver := fun _ => .ok (some annotatedArtifact) }

/-- The same without local variables and lines. -/
def plainSources (includeGenerated : Bool) : Sources :=
  { annotatedSources with
    converter := none
    options := { includeLocals := false, trackGasPerLine := false, includeGenerated } }

theorem sameInput_plain (includeGenerated : Bool) :
    annotatedSources.SameInput (plainSources includeGenerated) := ⟨rfl, rfl⟩

theorem sourcesNumbered_annotated : annotatedArtifact.SourcesNumbered := by
  intro file
  have hcount : annotatedArtifact.sourceCount = 1 := by decide +kernel
  rw [hcount, Artifact.source?, annotatedArtifact, SortedMap.find?_insert]
  split <;> simp <;> omega

theorem build_sameRun_plain : ∃ tree plain generated, annotatedSources.build = .ready tree ∧
    (plainSources false).build = .ready plain ∧ (plainSources true).build = .ready generated ∧
      (tree.variableById? 3).isSome ∧ (plain.variableById? 3).isNone ∧
        tree.SameRun true plain ∧ tree.SameRun false generated := by
  have hready : annotatedSources.build.isReady := by decide +kernel
  obtain ⟨tree, h⟩ := Outcome.exists_of_isReady hready
  have hready' : (plainSources false).build.isReady := by decide +kernel
  obtain ⟨plain, hplain⟩ := Outcome.exists_of_isReady hready'
  have hready'' : (plainSources true).build.isReady := by decide +kernel
  obtain ⟨generated, hgenerated⟩ := Outcome.exists_of_isReady hready''
  have hvariable : annotatedSources.build.tree?.all fun t => (t.variableById? 3).isSome := by
    decide +kernel
  have hnone : (plainSources false).build.tree?.all fun t => (t.variableById? 3).isNone := by
    decide +kernel
  rw [h, Outcome.tree?, Option.all_some] at hvariable
  rw [hplain, Outcome.tree?, Option.all_some] at hnone
  exact ⟨tree, plain, generated, h, hplain, hgenerated, hvariable, hnone,
    (build_sameRun (sameInput_plain false) h hplain).1 rfl,
    (build_sameRun (sameInput_plain true) h hgenerated).2 fun _ _ hfound => by
      cases hfound
      exact sourcesNumbered_annotated⟩

end TraceTree.Build
