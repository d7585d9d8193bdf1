import TraceTree.Proofs.Build.Passes

/-!
Reconstructions of two traces that agree on what a step asks for. A pass goes on alike however many
steps it is told that there are, up to its end. Main statement: at a step on which two sources agree
the passes of both do the same (`Pass.step_recount`).
-/
namespace TraceTree

/-- The tree of a trace of `n` steps instead. -/
def CallTree.recount (n : Nat) (t : CallTree) : CallTree := { t with stepCount := n }

namespace Build

/-- The pass over a trace of `n` steps instead. -/
def Pass.recount (n : Nat) (p : Pass) : Pass := { p with tree := p.tree.recount n }

/-- Two sources tell a step the same. -/
structure Sources.Agree (src src' : Sources) (site : Site) : Prop where
  options : src'.options = src.options
  converter : src'.converter = src.converter
  stack : src'.stackLengthAt site.step = src.stackLengthAt site.step
  callee : site.goesDeeper → src'.codeAt (site.step + 1) = src.codeAt (site.step + 1)

namespace Pass

variable {src src' : Sources} {site : Site} (n : Nat)

/-! ### Steps that look at the pass alone -/

theorem scopes_recount (p : Pass) : (p.recount n).scopes = p.scopes := rfl

theorem awaited_recount (p : Pass) : (p.recount n).awaited = p.awaited := rfl

theorem constructed_recount (p : Pass) : (p.recount n).constructed = p.constructed := rfl

theorem noteValid_recount (p : Pass) (site : Site) :
    (p.recount n).noteValid site = (p.noteValid site).recount n := by
  rw [noteValid, noteValid]
  split <;> rfl

theorem track_recount (p : Pass) (site : Site) :
    (p.recount n).track site = (p.track site).recount n := by
  have hbreak : ∀ t : CallTree,
      (t.recount n).addBreakpoint site.step = (t.addBreakpoint site.step).recount n := by
    intro t
    rw [CallTree.addBreakpoint, CallTree.addBreakpoint]
    show (if t.reducedTrace.back? = some site.step then _ else _) = _
    split <;> rfl
  rw [track, track, scopes_recount]
  split
  · rfl
  · show modifyScope { p.recount n with tree := (p.tree.recount n).addBreakpoint site.step } _ = _
    rw [hbreak]
    rfl

theorem await_recount (p : Pass) (site : Site) :
    (p.recount n).await site = (p.await site).recount n := by
  rw [await, await, awaited_recount, constructed_recount]
  cases p.awaited with
  | some awaited => rfl
  | none =>
    cases site.constructor? with
    | none => rfl
    | some f =>
      dsimp only
      split <;> rfl

theorem takeAwaited_recount (p : Pass) (site : Site) :
    (p.recount n).takeAwaited site =
      ((p.takeAwaited site).1.recount n, (p.takeAwaited site).2) := by
  rw [takeAwaited, takeAwaited, awaited_recount]
  cases p.awaited with
  | none => rfl
  | some awaited =>
    dsimp only
    split
    · rfl
    · generalize (if awaited.step = site.step ∧ awaited.code = site.code then
        site.artifact.functionDefinition? awaited.function else none) = found
      cases found <;> rfl

theorem closeAll_recount (t : CallTree) (scopes : List OpenScope) (lastStep : Nat) :
    closeAll (t.recount n) scopes lastStep = (closeAll t scopes lastStep).recount n := by
  induction scopes generalizing t with
  | nil => rfl
  | cons s scopes ih => exact ih (t.closeScope s.id lastStep)

theorem closeCall_recount (p : Pass) (lastStep : Nat) :
    (p.recount n).closeCall lastStep = (p.closeCall lastStep).recount n := by
  have hclose := closeAll_recount n p.tree (ScopeStack.splitCall p.scopes.nested).1 lastStep
  exact congrArg (fun t => { p.closeCall lastStep with tree := t }) hclose

theorem closeFunction_recount (p : Pass) (lastStep : Nat) :
    (p.recount n).closeFunction lastStep = (p.closeFunction lastStep).recount n := by
  rw [closeFunction, closeFunction, scopes_recount]
  cases p.scopes.nested with
  | nil => rfl
  | cons inner outer =>
    dsimp only
    cases inner.lastValid <;> rfl

theorem addVariables_recount (t : CallTree) (records : List VariableRecord) :
    (t.recount n).addVariables records = (t.addVariables records).recount n := by
  have hadd : ∀ (t : CallTree) r, (t.recount n).addVariable r = (t.addVariable r).recount n := by
    intro t r
    rw [CallTree.addVariable, CallTree.addVariable]
    show (if t.scopes.contains r.scope then _ else _) = _
    split <;> rfl
  rw [CallTree.addVariables, CallTree.addVariables]
  induction records generalizing t with
  | nil => rfl
  | cons r records ih => rw [List.foldl_cons, List.foldl_cons, hadd, ih]

/-! ### Steps that ask the sources -/

theorem locationAt_recount (h : src.Agree src' site) (p : Pass) :
    (p.recount n).locationAt src' site = p.locationAt src site := by
  rw [locationAt, locationAt, h.converter]
  rfl

theorem observe_recount (h : src.Agree src' site) (p : Pass) :
    (p.recount n).observe src' site = (p.observe src site).recount n := by
  have hcharge : ∀ (t : CallTree) l,
      chargeLine (t.recount n) src' site l = (chargeLine t src site l).recount n := by
    intro t l
    rw [chargeLine, chargeLine, h.options]
    split <;> rfl
  rw [observe, observe, locationAt_recount n h, ← noteValid_recount]
  show noteValid { p.recount n with
    tree := chargeLine ((p.tree.pushLocation _).recount n) src' site _ } site = _
  rw [hcharge]
  rfl

theorem openScope_recount (h : src.Agree src' site) (p : Pass) (step firstStep : Nat)
    (kind : ScopeKind) (code : CodeAddress) (function : Option Nat) :
    (p.recount n).openScope src' step firstStep kind code function =
      (p.openScope src step firstStep kind code function).map (recount n) := by
  rw [openScope, openScope, h.options, scopes_recount]
  dsimp only
  split <;> rfl

theorem openFunction_recount (h : src.Agree src' site) (p : Pass) (f : FunctionDefinition)
    (kind : ScopeKind) : (p.recount n).openFunction src' site f kind =
      (p.openFunction src site f kind).map (recount n) := by
  rw [openFunction, openFunction, openScope_recount n h, except_map_bind, except_bind_map, h.stack]
  refine bind_congr fun q => ?_
  rw [except_bind_map]
  refine bind_congr fun length => ?_
  show Except.ok ({ q.recount n with tree := ((q.tree.recount n).addVariables _).addActivation _ } :
    Pass) = _
  rw [addVariables_recount]
  rfl

theorem openCall_recount (h : src.Agree src' site) (hdeeper : site.goesDeeper) (p : Pass)
    (kind : CodeAddress → ScopeKind) :
    (p.recount n).openCall src' site kind = (p.openCall src site kind).map (recount n) := by
  rw [openCall, openCall, h.callee hdeeper, except_bind_map]
  exact bind_congr fun callee => openScope_recount n h p _ _ _ _ _

theorem enter_recount (h : src.Agree src' site) (p : Pass) (entry : Option Nat) :
    (p.recount n).enter src' site entry =
      (p.enter src site entry).map fun r => (r.1.recount n, r.2) := by
  rw [enter, enter]
  split
  · rfl
  · split
    · rfl
    · rw [openFunction_recount n h]
      cases p.openFunction src site _ .internalFunction <;> rfl

theorem declareLocals_recount (h : src.Agree src' site) (p : Pass) :
    (p.recount n).declareLocals src' site = (p.declareLocals src site).map (recount n) := by
  rw [declareLocals, declareLocals]
  split
  · rfl
  · rw [h.stack, except_bind_map]
    refine bind_congr fun length => ?_
    show Except.ok ({ p.recount n with tree := (p.tree.recount n).addVariables _ } : Pass) = _
    rw [addVariables_recount]
    rfl

theorem finish_recount (h : src.Agree src' site) (p : Pass) :
    (p.recount n).finish src' site = (p.finish src site).map (recount n) := by
  rw [finish, finish, h.options, closeFunction_recount, declareLocals_recount n h, scopes_recount]
  split
  · rfl
  · split <;> rfl

theorem advance_recount (h : src.Agree src' site) (p : Pass) (entry : Option Nat) (gas : Nat) :
    (p.recount n).advance src' site entry gas = (p.advance src site entry gas).map (recount n) := by
  rw [advance, advance]
  split
  · rename_i hcall
    exact openCall_recount n h (Bool.and_eq_true_iff.1 hcall).2 (p.credit gas) _
  · rw [enter_recount n h, except_map_bind, except_bind_map]
    refine bind_congr fun entered => ?_
    obtain ⟨r, opened⟩ := entered
    show (if site.comesBack then .ok (((r.credit gas).recount n).closeCall site.step)
      else if site.goesDeeper then ((r.credit gas).recount n).openCall src' site _
      else if opened then .ok ((r.credit gas).recount n)
      else ((r.credit gas).recount n).finish src' site) = _
    dsimp only
    split
    · rw [closeCall_recount]
      rfl
    · split
      · rename_i hdeeper
        exact openCall_recount n h hdeeper _ _
      · split
        · rfl
        · exact finish_recount n h _

/-- A step does the same on two sources that agree on it. -/
theorem step_recount (h : src.Agree src' site) (p : Pass) :
    (p.recount n).step src' site = (p.step src site).map (recount n) := by
  rw [step, step]
  dsimp only
  rw [observe_recount n h, track_recount, await_recount, takeAwaited_recount]
  generalize (((p.observe src site).track site).await site).takeAwaited site = taken
  cases taken with
  | mk r built =>
    cases built with
    | none => exact advance_recount n h r _ _
    | some f =>
      dsimp only
      rw [openFunction_recount n h, except_map_bind, except_bind_map]
      refine bind_congr fun s => ?_
      show (((s.credit site.gas).recount n).noteValid site |>.track site).advance src' site
        (Pass.entry? (((s.credit site.gas).recount n).noteValid site) site true) 0 = _
      rw [noteValid_recount, track_recount]
      exact advance_recount n h _ _ _

end Pass

/-! ### Traces that are cut off -/

/-- The second sources know the first `n` steps of the first ones, and nothing else. -/
structure Sources.Cut (src src' : Sources) (n : Nat) : Prop where
  options : src'.options = src.options
  converter : src'.converter = src.converter
  resolver : src'.resolver = src.resolver
  steps : src'.context.trace.steps = src.context.trace.steps.take n
  code : ∀ i, i < n → i < src.context.trace.length → src'.context.codeAt i = src.context.codeAt i
  stack : ∀ i, i < n → src'.context.stackAt i = src.context.stackAt i

namespace Sources.Cut

variable {src src' : Sources} {n i : Nat} {site : Site} {root : CodeAddress} {p : Pass}

theorem length (h : src.Cut src' n) :
    src'.context.trace.length = min n src.context.trace.length := by
  rw [Trace.length, h.steps, List.length_take]
  rfl

theorem codeAt (h : src.Cut src' n) (hn : i < n) (hi : i < src.context.trace.length) :
    src'.codeAt i = src.codeAt i := by
  rw [Sources.codeAt, Sources.codeAt, h.code i hn hi]

theorem stackLengthAt (h : src.Cut src' n) (hn : i < n) :
    src'.stackLengthAt i = src.stackLengthAt i := by
  rw [Sources.stackLengthAt, Sources.stackLengthAt, h.stack i hn]

theorem artifactAt (h : src.Cut src' n) (address : Address) :
    src'.artifactAt i address = src.artifactAt i address := by
  rw [Sources.artifactAt, Sources.artifactAt, h.resolver]

theorem siteAt (h : src.Cut src' n) (hn : i < n) (hi : i < src.context.trace.length)
    (current : TraceStep) (next : Option TraceStep) :
    src'.siteAt i current next = src.siteAt i current next := by
  rw [Sources.siteAt, Sources.siteAt, h.codeAt hn hi, h.options]
  refine bind_congr fun code => ?_
  rw [h.artifactAt]

/-- Before the last step of the cut trace both sources tell the same. -/
theorem agree (h : src.Cut src' n) (hn : i + 1 < n) (hsite : src.IsSite i site) :
    src.Agree src' site where
  options := h.options
  converter := h.converter
  stack := by rw [hsite.spec.1, h.stackLengthAt (Nat.lt_of_succ_lt hn)]
  callee hdeeper := by
    obtain ⟨hstep, -, hnext, -⟩ := hsite.spec
    rw [Site.goesDeeper, hnext, Option.any_eq_true] at hdeeper
    obtain ⟨next, hnext, -⟩ := hdeeper
    rw [hstep, h.codeAt hn (List.getElem?_eq_some_iff.1 hnext).1]

theorem stepAt (h : src.Cut src' n) (hn : i + 1 < n) (m : Nat) (p : Pass) :
    src'.stepAt i (p.recount m) = (src.stepAt i p).map (Pass.recount m) := by
  rw [Sources.stepAt, Sources.stepAt, h.steps, List.getElem?_take_of_lt (Nat.lt_of_succ_lt hn),
    List.getElem?_take_of_lt hn]
  cases hcurrent : src.context.trace.steps[i]? with
  | none => rfl
  | some current =>
    have hi := (List.getElem?_eq_some_iff.1 hcurrent).1
    dsimp only
    rw [h.siteAt (Nat.lt_of_succ_lt hn) hi]
    cases hsite : src.siteAt i current src.context.trace.steps[i + 1]? with
    | error e => rfl
    | ok site => exact Pass.step_recount m (h.agree hn ⟨current, hcurrent, hsite⟩) p

/-- Up to the last step of the cut trace the passes are the same. -/
theorem passBefore (h : src.Cut src' n) (root : CodeAddress) (hn : i < n) :
    src'.passBefore root i =
      (src.passBefore root i).map (Pass.recount (min n src.context.trace.length)) := by
  induction i with
  | zero =>
    rw [Sources.passBefore, h.length]
    rfl
  | succ i ih =>
    rw [Sources.passBefore, Sources.passBefore, ih (Nat.lt_of_succ_lt hn), except_map_bind,
      except_bind_map]
    exact bind_congr fun p => h.stepAt hn _ p

end Sources.Cut

end Build

end TraceTree
