import TraceTree.Proofs.Build.Entry
import TraceTree.Proofs.Build.Records

/-!
Which constructors open. A step that reaches the text of a constructor makes it awaited for the next
step, unless one is awaited already or this one has opened; the next step takes it or gives it up
(`Stage.constructorStep`). Main statement: each constructor opens at most once, and only one step
after its text was reached in the same code; and it has opened when its text is reached at two steps
in a row that the same code goes on from (`build_constructors`).
-/
namespace TraceTree

namespace CallTree

/-- A scope of the constructor `f` of the contract at an address. -/
structure ConstructorScope (t : CallTree) (address : Address) (f : Nat) (c : Scope) : Prop where
  found : t.scope? c.id = some c
  kind : c.kind = .constructor
  address : c.code.address = address
  function : (t.activation? c.id).map (·.functionId) = some f

end CallTree

namespace Build

/-- The step runs creation code, and its location is valid and lies in the text of the
constructor. -/
structure Site.InConstructor (site : Site) (c : FunctionDefinition) : Prop where
  creation : site.code.isCreation
  valid : site.isValid
  found : site.raw.range?.bind site.artifact.functionContaining? = some c
  constructor : c.isConstructor

theorem Site.inConstructor_iff {site : Site} {c : FunctionDefinition} :
    site.InConstructor c ↔ site.code.isCreation ∧ site.isValid ∧ site.constructor? = some c := by
  have hfound : site.constructor? = some c ↔
      site.raw.range?.bind site.artifact.functionContaining? = some c ∧ c.isConstructor := by
    rw [constructor?]
    cases site.raw.range? with
    | none =>
      constructor
      · intro h
        cases h
      · rintro ⟨h, -⟩
        cases h
    | some range =>
      rw [Option.bind_eq_bind, Option.bind_some, Option.bind_some, Option.bind_eq_bind,
        Option.bind_eq_some_iff]
      constructor
      · rintro ⟨f, hf, hc⟩
        rw [Pass.guard_bind_eq_some_iff] at hc
        obtain ⟨hconstructor, hc⟩ := hc
        cases hc
        exact ⟨hf, hconstructor⟩
      · rintro ⟨hf, hconstructor⟩
        exact ⟨c, hf, Pass.guard_bind_eq_some_iff.2 ⟨hconstructor, rfl⟩⟩
  rw [hfound]
  constructor
  · intro h
    exact ⟨h.creation, h.valid, h.found, h.constructor⟩
  · rintro ⟨hcreation, hvalid, hfound, hconstructor⟩
    exact ⟨hcreation, hvalid, hfound, hconstructor⟩

/-! ### One step -/

/-- What a step does about constructors: it takes the one that is awaited or gives it up, or else it
makes one awaited whose text it reaches, if that has not opened. -/
inductive ConstructorStep (site : Site) (p q : Pass) : Option FunctionDefinition → Prop
  | takes {w : AwaitedConstructor} {f : FunctionDefinition} (hawaited : p.awaited = some w)
      (hcode : w.code = site.code)
      (hdefinition : site.artifact.functionDefinition? w.function = some f)
      (hafter : q.awaited = none)
      (hconstructed : q.constructed = (site.code.address, f.id) :: p.constructed) :
      ConstructorStep site p q (some f)
  | drops {w : AwaitedConstructor} (hawaited : p.awaited = some w)
      (hno : w.code = site.code → site.artifact.functionDefinition? w.function = none)
      (hafter : q.awaited = none) (hconstructed : q.constructed = p.constructed) :
      ConstructorStep site p q none
  | awaits {c : FunctionDefinition} (hfree : p.awaited = none) (hin : site.InConstructor c)
      (hfresh : (site.code.address, c.id) ∉ p.constructed)
      (hafter : q.awaited =
        some { step := site.step + 1, function := c.id, code := site.code })
      (hconstructed : q.constructed = p.constructed) : ConstructorStep site p q none
  | passes (hfree : p.awaited = none)
      (hold : ∀ c, site.InConstructor c → (site.code.address, c.id) ∈ p.constructed)
      (hafter : q.awaited = none) (hconstructed : q.constructed = p.constructed) :
      ConstructorStep site p q none

section Step

variable {src : Sources} {i : Nat} {p q r : Pass} {site : Site}
  {built : Option FunctionDefinition} {w : AwaitedConstructor}

theorem ConstructorStep.subset (h : ConstructorStep site p q built) :
    p.constructed ⊆ q.constructed := by
  cases h with
  | takes _ _ _ _ hconstructed =>
    rw [hconstructed]
    exact List.subset_cons_self _ _
  | drops _ _ _ hconstructed => exact hconstructed ▸ List.Subset.refl _
  | awaits _ _ _ _ hconstructed => exact hconstructed ▸ List.Subset.refl _
  | passes _ _ _ hconstructed => exact hconstructed ▸ List.Subset.refl _

/-- What is awaited after a step was reached at it and has not opened. -/
theorem ConstructorStep.reached (h : ConstructorStep site p q built) (hw : q.awaited = some w) :
    ∃ c, site.InConstructor c ∧
      w = { step := site.step + 1, function := c.id, code := site.code } ∧
        (site.code.address, c.id) ∉ q.constructed := by
  cases h with
  | takes _ _ _ hafter => simp [hafter] at hw
  | drops _ _ hafter => simp [hafter] at hw
  | passes _ _ hafter => simp [hafter] at hw
  | @awaits c _ hin hfresh hafter hconstructed =>
    rw [hafter] at hw
    exact ⟨c, hin, (Option.some.inj hw).symm, hconstructed ▸ hfresh⟩

/-- Whatever was awaited is not any more. -/
theorem ConstructorStep.free (h : ConstructorStep site p q built) (hw : p.awaited = some w) :
    q.awaited = none := by
  cases h with
  | takes _ _ _ hafter => exact hafter
  | drops _ _ hafter => exact hafter
  | awaits hfree => simp [hw] at hfree
  | passes hfree => simp [hw] at hfree

theorem Pass.await_of_awaited (h : p.awaited = some w) : p.await site = p := by
  rw [await, h]

/-- When its step has come what is awaited is taken or given up. -/
theorem constructorStep_of_awaited (hw : p.awaited = some w) (hdue : w.step = site.step)
    (h : p.takeAwaited site = (q, built)) : ConstructorStep site p q built := by
  rw [Pass.takeAwaited, hw] at h
  dsimp only at h
  rw [if_neg (by omega)] at h
  split at h
  · rename_i f hf
    cases h
    split at hf
    · rename_i hsame
      exact .takes hw hsame.2 hf rfl rfl
    · cases hf
  · rename_i hf
    cases h
    refine .drops hw (fun hcode => ?_) rfl rfl
    rwa [if_pos ⟨hdue, hcode⟩] at hf

/-- Where nothing is awaited a step may make a constructor awaited, but it takes none yet. -/
theorem constructorStep_of_free (hfree : p.awaited = none)
    (h : (p.await site).takeAwaited site = (q, built)) : ConstructorStep site p q built := by
  by_cases hreached : ∃ c, site.InConstructor c ∧ (site.code.address, c.id) ∉ p.constructed
  · obtain ⟨c, hin, hfresh⟩ := hreached
    obtain ⟨hcreation, hvalid, hfound⟩ := Site.inConstructor_iff.1 hin
    have hawait : p.await site = { p with
        awaited := some { step := site.step + 1, function := c.id, code := site.code } } := by
      rw [Pass.await, hfree, hfound]
      dsimp only
      rw [if_pos (by simp [hcreation, hvalid, hfresh])]
    rw [hawait, Pass.takeAwaited] at h
    dsimp only at h
    rw [if_pos (Nat.lt_succ_self _)] at h
    cases h
    exact .awaits hfree hin hfresh rfl rfl
  · have hold : ∀ c, site.InConstructor c → (site.code.address, c.id) ∈ p.constructed := by
      intro c hin
      by_contra hfresh
      exact hreached ⟨c, hin, hfresh⟩
    have hawait : p.await site = p := by
      rw [Pass.await, hfree]
      cases hfound : site.constructor? with
      | none => rfl
      | some c =>
        dsimp only
        rw [if_neg]
        simp only [Bool.and_eq_true, Bool.not_eq_true', List.contains_eq_mem,
          decide_eq_false_iff_not]
        rintro ⟨⟨hcreation, hvalid⟩, hfresh⟩
        exact hfresh (hold c (Site.inConstructor_iff.2 ⟨hcreation, hvalid, hfound⟩))
    rw [hawait, Pass.takeAwaited_eq_self hfree] at h
    cases h
    exact .passes hfree hold hfree rfl

theorem ConstructorStep.congr {p' q' : Pass} (h : ConstructorStep site p q built)
    (hp : p'.awaited = p.awaited) (hp' : p'.constructed = p.constructed)
    (hq : q'.awaited = q.awaited) (hq' : q'.constructed = q.constructed) :
    ConstructorStep site p' q' built := by
  cases h with
  | takes hawaited hcode hdefinition hafter hconstructed =>
    exact .takes (hp.trans hawaited) hcode hdefinition (hq.trans hafter)
      (by rw [hq', hp', hconstructed])
  | drops hawaited hno hafter hconstructed =>
    exact .drops (hp.trans hawaited) hno (hq.trans hafter) (by rw [hq', hp', hconstructed])
  | awaits hfree hin hfresh hafter hconstructed =>
    exact .awaits (hp.trans hfree) hin (hp' ▸ hfresh) (hq.trans hafter)
      (by rw [hq', hp', hconstructed])
  | passes hfree hold hafter hconstructed =>
    exact .passes (hp.trans hfree) (hp' ▸ hold) (hq.trans hafter) (by rw [hq', hp', hconstructed])

/-- What is awaited before a step is awaited for that step, so the step takes it or gives it up. -/
theorem Stage.constructorStep (st : Stage src i p q) (hdue : ∀ w, p.awaited = some w → w.step = i) :
    ConstructorStep st.site p q st.built := by
  have hawaited := Pass.awaited_reach p src st.site
  have hconstructed : (p.reach src st.site).constructed = p.constructed := by
    rw [Pass.reach, Pass.constructed_track, (Pass.sameRecords_observe p src st.site).constructed]
  have htakes : ((p.reach src st.site).await st.site).takeAwaited st.site = (st.taken, st.built) :=
    st.takes
  have hafter : q.constructed = st.taken.constructed := by
    rw [Pass.constructed_step st.steps, st.takes]
  refine ConstructorStep.congr ?_ hawaited.symm hconstructed.symm st.awaited hafter
  cases hw : p.awaited with
  | none => exact constructorStep_of_free (hawaited.trans hw) htakes
  | some w =>
    rw [Pass.await_of_awaited (hawaited.trans hw)] at htakes
    exact constructorStep_of_awaited (hawaited.trans hw)
      ((hdue w hw).trans st.isSite.spec.1.symm) htakes

end Step

/-! ### All steps -/

section Run

variable {src : Sources} {tree : CallTree} {pass : Nat → Pass} {i j step : Nat}
  {w : AwaitedConstructor} {address : Address} {f : Nat}

/-- What is awaited is awaited for the next step. -/
theorem History.due (hist : History src tree pass) (hi : i ≤ src.context.trace.length)
    (hw : (pass i).awaited = some w) : w.step = i := by
  induction i generalizing w with
  | zero =>
    obtain ⟨root, -, hstart⟩ := hist.start
    rw [hstart] at hw
    cases hw
  | succ i ih =>
    obtain ⟨st⟩ := hist.stage hi
    have hstep := st.constructorStep fun w hw => ih (Nat.le_of_succ_le hi) hw
    obtain ⟨c, -, rfl, -⟩ := hstep.reached hw
    exact congrArg (· + 1) st.isSite.spec.1

theorem History.constructorStep (hist : History src tree pass)
    (hstep : step < src.context.trace.length)
    (st : Stage src step (pass step) (pass (step + 1))) :
    ConstructorStep st.site (pass step) (pass (step + 1)) st.built :=
  st.constructorStep fun _ hw => hist.due hstep.le hw

/-- The step before reached the text of what is awaited, which has not opened. -/
theorem History.reached_of_awaited (hist : History src tree pass)
    (hi : i ≤ src.context.trace.length) (hw : (pass i).awaited = some w) :
    ∃ k origin c, i = k + 1 ∧ src.IsSite k origin ∧ origin.InConstructor c ∧
      w.code = origin.code ∧ w.function = c.id ∧
        (w.code.address, w.function) ∉ (pass i).constructed := by
  cases i with
  | zero =>
    obtain ⟨root, -, hstart⟩ := hist.start
    rw [hstart] at hw
    cases hw
  | succ k =>
    obtain ⟨st⟩ := hist.stage hi
    obtain ⟨c, hin, rfl, hfresh⟩ := (hist.constructorStep hi st).reached hw
    exact ⟨k, st.site, c, rfl, st.isSite, hin, rfl, rfl, hfresh⟩

theorem History.constructed_subset (hist : History src tree pass) (hij : i ≤ j)
    (hj : j ≤ src.context.trace.length) : (pass i).constructed ⊆ (pass j).constructed := by
  induction j, hij using Nat.le_induction with
  | base => exact List.Subset.refl _
  | succ j hij ih =>
    obtain ⟨st⟩ := hist.stage hj
    exact List.Subset.trans (ih (Nat.le_of_succ_le hj)) (hist.constructorStep hj st).subset

/-- A constructor that a step takes gets a scope. -/
theorem History.exists_constructorScope (hist : History src tree pass) (wf : tree.WellFormed)
    (hstep : step < src.context.trace.length)
    (st : Stage src step (pass step) (pass (step + 1))) {g : FunctionDefinition}
    (hg : st.built = some g) : ∃ c, tree.ConstructorScope st.site.code.address g.id c ∧
      c.firstStep = step ∧ c.code = st.site.code ∧ c.id = (pass step).layout.nextId := by
  have hbuilds := st.parts.builds
  rw [hg] at hbuilds
  obtain ⟨c, a, hc, hid, hkind, hcode, hfirst, ha, hfunction⟩ :=
    exists_scope_of_opensBody wf st.isSite (hist.grows_inside hstep st) hbuilds
  exact ⟨c, ⟨hc, hkind, congrArg _ hcode, by rw [ha, Option.map_some, hfunction]⟩, hfirst, hcode,
    hid⟩

/-- The scope of a constructor is that of the one which its first step takes. -/
theorem History.built_of_constructorScope (hist : History src tree pass) (wf : tree.WellFormed)
    {c : Scope} (hstep : c.firstStep < src.context.trace.length)
    (st : Stage src c.firstStep (pass c.firstStep) (pass (c.firstStep + 1)))
    (hc : tree.ConstructorScope address f c) : ∃ g, st.built = some g ∧ g.id = f ∧
      st.site.code = c.code ∧ c.id = (pass c.firstStep).layout.nextId := by
  have hbody : ¬ c.kind.isFrame := by
    rw [hc.kind]
    decide
  rcases hist.opened_of_starts hstep st hc.found hbody rfl with ⟨hsome, -, hid⟩ | ⟨-, hkind, -⟩
  · obtain ⟨g, hg⟩ := Option.isSome_iff_exists.1 hsome
    obtain ⟨r, hr, -, hcode, hrid⟩ := hist.exists_constructorScope wf hstep st hg
    have hsame : r = c := by
      have hfound := hr.found
      rw [hrid, ← hid, hc.found] at hfound
      exact (Option.some.inj hfound).symm
    subst hsame
    have hfunction := hr.function
    rw [hc.function] at hfunction
    exact ⟨g, hg, (Option.some.inj hfunction).symm, hcode.symm, hid⟩
  · rw [hc.kind] at hkind
    cases hkind

/-- A constructor that has opened has a scope. -/
theorem History.constructorScope_of_mem (hist : History src tree pass) (wf : tree.WellFormed)
    (hj : j ≤ src.context.trace.length) (h : (address, f) ∈ (pass j).constructed) :
    ∃ c, tree.ConstructorScope address f c ∧ c.firstStep < j := by
  induction j with
  | zero =>
    obtain ⟨root, -, hstart⟩ := hist.start
    rw [hstart] at h
    cases h
  | succ j ih =>
    have hold : (address, f) ∈ (pass j).constructed →
        ∃ c, tree.ConstructorScope address f c ∧ c.firstStep < j + 1 := by
      intro hmem
      obtain ⟨c, hc, hlt⟩ := ih (Nat.le_of_succ_le hj) hmem
      exact ⟨c, hc, hlt.trans (Nat.lt_succ_self j)⟩
    obtain ⟨st⟩ := hist.stage hj
    have hstep := hist.constructorStep hj st
    generalize hbuilt : st.built = built at hstep
    cases hstep with
    | drops _ _ _ hconstructed => exact hold (hconstructed ▸ h)
    | awaits _ _ _ _ hconstructed => exact hold (hconstructed ▸ h)
    | passes _ _ _ hconstructed => exact hold (hconstructed ▸ h)
    | @takes w g _ _ _ _ hconstructed =>
      rw [hconstructed] at h
      rcases List.mem_cons.1 h with hnew | hmem
      · cases hnew
        obtain ⟨c, hc, hfirst, -⟩ := hist.exists_constructorScope wf hj st hbuilt
        exact ⟨c, hc, hfirst ▸ Nat.lt_succ_self j⟩
      · exact hold hmem

/-- A step that takes a constructor was awaited by the one before, and it had not opened. -/
theorem History.reached_of_built (hist : History src tree pass)
    (hstep : step < src.context.trace.length)
    (st : Stage src step (pass step) (pass (step + 1))) {g : FunctionDefinition}
    (hg : st.built = some g) : ∃ k origin c, step = k + 1 ∧ src.IsSite k origin ∧
      origin.InConstructor c ∧ origin.code = st.site.code ∧ c.id = g.id ∧
        st.site.artifact.functionDefinition? c.id = some g ∧
          (st.site.code.address, g.id) ∉ (pass step).constructed := by
  have hcases := hist.constructorStep hstep st
  rw [hg] at hcases
  cases hcases with
  | takes hawaited hcode hdefinition =>
    obtain ⟨k, origin, c, hk, horigin, hin, hsame, hfunction, hfresh⟩ :=
      hist.reached_of_awaited hstep.le hawaited
    rw [hfunction] at hdefinition hfresh
    rw [hcode, ← Artifact.functionDefinition?_id hdefinition] at hfresh
    exact ⟨k, origin, c, hk, horigin, hin, hsame.symm.trans hcode,
      (Artifact.functionDefinition?_id hdefinition).symm, hdefinition, hfresh⟩

theorem History.mem_of_built (hist : History src tree pass)
    (hstep : step < src.context.trace.length)
    (st : Stage src step (pass step) (pass (step + 1))) {g : FunctionDefinition}
    (hg : st.built = some g) :
    (st.site.code.address, g.id) ∈ (pass (step + 1)).constructed := by
  have hcases := hist.constructorStep hstep st
  rw [hg] at hcases
  cases hcases with
  | takes _ _ _ _ hconstructed =>
    rw [hconstructed]
    exact List.mem_cons_self

/-- A constructor that is reached where nothing is awaited has opened by the next step, when that
runs the same code. -/
theorem History.constructorScope_of_free (hist : History src tree pass) (wf : tree.WellFormed)
    {x y : Site} {c : FunctionDefinition} (hx : src.IsSite step x) (hy : src.IsSite (step + 1) y)
    (hcode : x.code = y.code) (hin : x.InConstructor c) (hfree : (pass step).awaited = none) :
    ∃ s, tree.ConstructorScope x.code.address c.id s ∧ s.firstStep ≤ step + 1 := by
  have hartifact : y.artifact = x.artifact := by
    simpa [← hcode, hx.resolved] using hy.resolved.symm
  obtain ⟨st⟩ := hist.stage hx.step_lt
  obtain rfl := hx.unique st.isSite
  have hstep := hist.constructorStep hx.step_lt st
  generalize st.built = built at hstep
  cases hstep with
  | takes hawaited => simp [hfree] at hawaited
  | drops hawaited => simp [hfree] at hawaited
  | passes _ hold =>
    obtain ⟨s, hs, hlt⟩ := hist.constructorScope_of_mem wf hx.step_lt.le (hold c hin)
    exact ⟨s, hs, by omega⟩
  | @awaits c' _ hin' _ hafter =>
    obtain rfl : c' = c := by
      have hfound := hin.found
      rw [hin'.found] at hfound
      exact Option.some.inj hfound
    obtain ⟨st'⟩ := hist.stage hy.step_lt
    obtain rfl := hy.unique st'.isSite
    have hnext := hist.constructorStep hy.step_lt st'
    generalize hbuilt : st'.built = built at hnext
    cases hnext with
    | awaits hfree' => simp [hafter] at hfree'
    | passes hfree' => simp [hafter] at hfree'
    | drops hawaited hno =>
      rw [hafter] at hawaited
      cases hawaited
      -- The constructor is among the functions of the artifact, so its id has a definition.
      obtain ⟨range, -, hcontaining⟩ := Option.bind_eq_some_iff.1 hin.found
      obtain ⟨g, hg⟩ := Artifact.exists_functionDefinition?_of_mem
        (Artifact.mem_functions_of_functionContaining? hcontaining)
      rw [← hartifact, hno hcode] at hg
      cases hg
    | takes hawaited _ hdefinition =>
      rw [hafter] at hawaited
      cases hawaited
      obtain ⟨s, hs, hfirst, -⟩ := hist.exists_constructorScope wf hy.step_lt st' hbuilt
      rw [Artifact.functionDefinition?_id hdefinition, ← hcode] at hs
      exact ⟨s, hs, hfirst.le⟩

end Run

/-! ### The finished tree -/

section Finished

variable {src : Sources} {tree : CallTree} {pass : Nat → Pass} {address : Address} {f : Nat}
  {r s : Scope}

/-- A constructor that has opened does not open at a later step. -/
theorem History.firstStep_le_of_constructorScope (hist : History src tree pass)
    (wf : tree.WellFormed) (hlength : ∀ c, tree.ConstructorScope address f c →
      c.firstStep < src.context.trace.length)
    (hr : tree.ConstructorScope address f r) (hs : tree.ConstructorScope address f s) :
    s.firstStep ≤ r.firstStep := by
  by_contra hlt
  rw [Nat.not_le] at hlt
  obtain ⟨st⟩ := hist.stage (hlength r hr)
  obtain ⟨st'⟩ := hist.stage (hlength s hs)
  obtain ⟨g, hg, hid, hcode, -⟩ := hist.built_of_constructorScope wf (hlength r hr) st hr
  obtain ⟨g', hg', hid', hcode', -⟩ := hist.built_of_constructorScope wf (hlength s hs) st' hs
  have hmem := hist.constructed_subset hlt (hlength s hs).le (hist.mem_of_built (hlength r hr) st hg)
  obtain ⟨-, -, -, -, -, -, -, -, -, hfresh⟩ := hist.reached_of_built (hlength s hs) st' hg'
  rw [hcode, hr.address, hid] at hmem
  rw [hcode', hs.address, hid'] at hfresh
  exact hfresh hmem

/-- A constructor opens at most once. -/
theorem History.constructorScope_unique (hist : History src tree pass) (wf : tree.WellFormed)
    (hlength : ∀ c, tree.ConstructorScope address f c →
      c.firstStep < src.context.trace.length)
    (hr : tree.ConstructorScope address f r) (hs : tree.ConstructorScope address f s) : r = s := by
  have hfirst : r.firstStep = s.firstStep :=
    le_antisymm (hist.firstStep_le_of_constructorScope wf hlength hs hr)
      (hist.firstStep_le_of_constructorScope wf hlength hr hs)
  obtain ⟨st⟩ := hist.stage (hlength r hr)
  obtain ⟨st'⟩ := hist.stage (hlength s hs)
  obtain ⟨-, -, -, -, hid⟩ := hist.built_of_constructorScope wf (hlength r hr) st hr
  obtain ⟨-, -, -, -, hid'⟩ := hist.built_of_constructorScope wf (hlength s hs) st' hs
  have hfound := hr.found
  rw [hid, hfirst, ← hid', hs.found] at hfound
  exact (Option.some.inj hfound).symm

/-- When function ids are unique in every artifact, no constructor opens twice for one address; one
opens only right after a step that lies in its text and runs the same creation code; and one has
opened two steps after the first of two steps in a row that lie in its text, when these and the next
run the same code. -/
theorem build_constructors (src : Sources) (tree : CallTree) (h : src.build = .ready tree)
    (hunique : src.FunctionIdsUnique) :
    (∀ address f r s, tree.ConstructorScope address f r → tree.ConstructorScope address f s →
      r = s) ∧
    (∀ id s, tree.scope? id = some s → s.kind = .constructor → ∃ k origin site a c,
      s.firstStep = k + 1 ∧ src.IsSite k origin ∧ src.IsSite (k + 1) site ∧
        origin.code = site.code ∧ site.code = s.code ∧ origin.InConstructor c ∧
          tree.activation? id = some a ∧
            origin.artifact.functionDefinition? a.functionId = some c) ∧
    ∀ k x y z c, src.IsSite k x → src.IsSite (k + 1) y → src.IsSite (k + 2) z →
      x.code = y.code → y.code = z.code → x.InConstructor c → y.InConstructor c →
        ∃ s, tree.ConstructorScope x.code.address c.id s ∧ s.firstStep ≤ k + 2 := by
  obtain ⟨pass, hist⟩ := exists_history h
  obtain ⟨wf, hpos, hcount⟩ := wellFormed_of_build h
  have hlength : ∀ {id c}, tree.scope? id = some c →
      c.firstStep < src.context.trace.length := by
    intro id c hc
    obtain ⟨l, -, hle, hlast⟩ := wf.closed hc
    omega
  refine ⟨?_, ?_, ?_⟩
  · intro address f r s hr hs
    exact hist.constructorScope_unique wf (fun c hc => hlength hc.found) hr hs
  · intro id s hs hkind
    obtain rfl := wf.keyed hs
    obtain ⟨a, ha⟩ := Option.isSome_iff_exists.1 ((wf.activated s.id).2 ⟨s, hs, .inr hkind⟩)
    have hscope : tree.ConstructorScope s.code.address a.functionId s :=
      ⟨hs, hkind, rfl, by rw [ha]; rfl⟩
    obtain ⟨st⟩ := hist.stage (hlength hs)
    obtain ⟨g, hg, hid, hcode, -⟩ := hist.built_of_constructorScope wf (hlength hs) st hscope
    obtain ⟨k, origin, c, hk, horigin, hin, hsame, hcid, hdefinition, -⟩ :=
      hist.reached_of_built (hlength hs) st hg
    have hartifact : st.site.artifact = origin.artifact := by
      simpa [← hsame, horigin.resolved] using st.isSite.resolved.symm
    rw [hartifact] at hdefinition
    obtain ⟨range, -, hcontaining⟩ := Option.bind_eq_some_iff.1 hin.found
    obtain rfl := (hunique _ _ horigin.resolved).eq_of_definition
      (Artifact.mem_functions_of_functionContaining? hcontaining) hdefinition
    exact ⟨k, origin, st.site, a, g, hk, horigin, hk ▸ st.isSite, hsame, hcode, hin, ha,
      hid ▸ hdefinition⟩
  · intro k x y z c hx hy hz hxy hyz hxin hyin
    cases hw : (pass k).awaited with
    | none =>
      obtain ⟨s, hs, hle⟩ := hist.constructorScope_of_free wf hx hy hxy hxin hw
      exact ⟨s, hs, hle.trans (Nat.le_succ _)⟩
    | some w =>
      -- The step is rid of what was awaited, so the next one is free to await the constructor.
      obtain ⟨st⟩ := hist.stage hx.step_lt
      have hafter := (hist.constructorStep hx.step_lt st).free hw
      rw [hxy]
      exact hist.constructorScope_of_free wf hy hz hyz hyin hafter

end Finished

/-! ### A constructor of three steps -/

/-- The sample's contract with all its instructions in the text of its constructor. -/
def constructorSources : Sources :=
  { sampleSources with
    resolver := fun _ => .ok (some
      { contractName := "A", sources := sampleArtifact.sources
        creation := { object := [0x5b, 0x5b, 0x5b], sourceMap := "0:50:0:-;;" } }) }

theorem build_constructors_inText : ∃ tree x y z c s, constructorSources.build = .ready tree ∧
    constructorSources.FunctionIdsUnique ∧ constructorSources.IsSite 0 x ∧
      constructorSources.IsSite 1 y ∧ constructorSources.IsSite 2 z ∧ x.code = y.code ∧
        y.code = z.code ∧ x.InConstructor c ∧ y.InConstructor c ∧ s.firstStep ≤ 2 ∧
          tree.ConstructorScope x.code.address c.id s ∧
            ∀ r, tree.ConstructorScope x.code.address c.id r → r = s := by
  have hready : constructorSources.build.isReady := by decide +kernel
  obtain ⟨tree, h⟩ := Outcome.exists_of_isReady hready
  have hunique : constructorSources.FunctionIdsUnique := by
    intro address artifact hartifact
    cases hartifact
    decide +kernel
  have hsites : (constructorSources.site? 0).any fun x => (constructorSources.site? 1).any fun y =>
      (constructorSources.site? 2).any fun z => x.code = y.code ∧ y.code = z.code ∧
        x.code.isCreation ∧ x.isValid ∧ y.isValid ∧ x.constructor?.isSome ∧
          x.constructor? = y.constructor? := by decide +kernel
  simp only [Option.any_eq_true, decide_eq_true_eq] at hsites
  obtain ⟨x, hx, y, hy, z, hz, hxy, hyz, hcreation, hxvalid, hyvalid, hsome, hsame⟩ := hsites
  obtain ⟨c, hc⟩ := Option.isSome_iff_exists.1 hsome
  have hxin : x.InConstructor c := Site.inConstructor_iff.2 ⟨hcreation, hxvalid, hc⟩
  have hyin : y.InConstructor c :=
    Site.inConstructor_iff.2 ⟨hxy ▸ hcreation, hyvalid, hsame.symm.trans hc⟩
  rw [site?_eq_some_iff] at hx hy hz
  obtain ⟨honce, -, hopens⟩ := build_constructors constructorSources tree h hunique
  obtain ⟨s, hs, hle⟩ := hopens 0 x y z c hx hy hz hxy hyz hxin hyin
  exact ⟨tree, x, y, z, c, s, h, hunique, hx, hy, hz, hxy, hyz, hxin, hyin, hle, hs,
    fun r hr => honce _ _ r s hr hs⟩

end Build

end TraceTree
