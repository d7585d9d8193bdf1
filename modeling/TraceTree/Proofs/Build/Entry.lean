import TraceTree.Proofs.Build.CallDepth

/-!
Which steps open the scope of a function. Where function ids are unique an awaited constructor is
one when its step has come (`History.built_spec`), so at each step at most one function opens beside
a constructor, and it is not that constructor. Main statement: on the finished tree, a function
opens at a step exactly when the step enters it by what was active before (`build_startsFunction`).
-/
namespace TraceTree

namespace CallTree

/-- The function runs in the call frame around the step before anything happens there: one of its
scopes started before the step and takes it, and no call frame around the step lies below that. -/
def ActiveBefore (t : CallTree) (step f : Nat) : Prop :=
  ∃ c a, t.scope? c.id = some c ∧ t.activation? c.id = some a ∧ a.functionId = f ∧
    c.firstStep < step ∧ c.contains step ∧
      ∀ r, t.scope? r.id = some r → r.kind.isFrame → r.contains step → ¬ c.id.isAncestorOf r.id

/-- The innermost of the scopes that are open before anything happens at the step. -/
structure InnermostBefore (t : CallTree) (step : Nat) (d : Scope) : Prop where
  found : t.scope? d.id = some d
  opened : d.OpenBefore step
  deepest : ∀ {id s}, t.scope? id = some s → s.OpenBefore step → id.contains d.id

/-- The scope of a function starts at the step. -/
structure StartsFunction (t : CallTree) (step : Nat) (c : Scope) : Prop where
  found : t.scope? c.id = some c
  kind : c.kind = .internalFunction
  starts : c.firstStep = step

end CallTree

namespace Build

open CallTree (IsBody)

/-! ### Constructors that are awaited -/

section Awaited

variable {src : Sources} {site : Site} {p q : Pass} {i : Nat}

/-- What is defined under the awaited id, in the code for which it is awaited, is a constructor. -/
def AwaitsConstructor (src : Sources) (awaited : Option AwaitedConstructor) : Prop :=
  ∀ w, awaited = some w → ∀ artifact, src.resolver w.code.address = .ok (some artifact) →
    ∀ g, artifact.functionDefinition? w.function = some g → g.isConstructor

/-- Function ids are unique in every artifact that is found. -/
def Sources.FunctionIdsUnique (src : Sources) : Prop :=
  ∀ address artifact, src.resolver address = .ok (some artifact) → artifact.FunctionIdsUnique

theorem constructor?_spec {f : FunctionDefinition} (h : site.constructor? = some f) :
    f.isConstructor ∧ f ∈ site.artifact.functions := by
  rw [Site.constructor?, Option.bind_eq_bind, Option.bind_eq_some_iff] at h
  obtain ⟨range, -, h⟩ := h
  rw [Option.bind_eq_bind, Option.bind_eq_some_iff] at h
  obtain ⟨g, hg, h⟩ := h
  rw [Pass.guard_bind_eq_some_iff] at h
  obtain ⟨hconstructor, h⟩ := h
  cases h
  exact ⟨hconstructor, Artifact.mem_functions_of_functionContaining? hg⟩

theorem awaitsConstructor_await (hunique : src.FunctionIdsUnique) (hsite : src.IsSite i site)
    (h : AwaitsConstructor src p.awaited) : AwaitsConstructor src (p.await site).awaited := by
  rw [Pass.await]
  split
  · rename_i f hnone hf
    obtain ⟨hconstructor, hmem⟩ := constructor?_spec hf
    split
    · intro w hw artifact hartifact g hg
      cases hw
      rw [hsite.resolved] at hartifact
      cases hartifact
      rw [(hunique _ _ hsite.resolved).eq_of_definition hmem hg]
      exact hconstructor
    · exact h
  · exact h

/-- What is awaited stays or is given up, and what is taken was awaited in the code that runs. -/
theorem takeAwaited_cases {built : Option FunctionDefinition}
    (h : p.takeAwaited site = (q, built)) :
    (q.awaited = p.awaited ∨ q.awaited = none) ∧ ∀ k, built = some k →
      ∃ w, p.awaited = some w ∧ w.code = site.code ∧
        site.artifact.functionDefinition? w.function = some k := by
  rw [Pass.takeAwaited] at h
  split at h
  · cases h
    simp
  · rename_i w hw
    split at h
    · cases h
      simp
    · dsimp only at h
      split at h
      · rename_i k hk
        cases h
        refine ⟨.inr rfl, ?_⟩
        intro k' hk'
        cases hk'
        split at hk
        · rename_i hsame
          exact ⟨w, hw, hsame.2, hk⟩
        · cases hk
      · cases h
        simp

theorem awaited_opensBody {c c' : Scene} {kind : ScopeKind} {f : Option FunctionDefinition}
    (h : c.OpensBody site kind f c') : c'.awaited = c.awaited := by
  cases h <;> rfl

theorem awaited_leaves {c c' : Scene} {entered : Bool} (h : c.Leaves src site entered c') :
    c'.awaited = c.awaited := by
  cases h <;> rfl

theorem Stage.awaited (st : Stage src i p q) : q.awaited = st.taken.awaited :=
  (awaited_leaves st.parts.leaves).trans
    ((awaited_opensBody st.parts.enters).trans (awaited_opensBody st.parts.builds))

/-- A step keeps it that constructors are awaited, and so what it takes is one. -/
theorem Stage.awaitsConstructor (st : Stage src i p q) (hunique : src.FunctionIdsUnique)
    (h : AwaitsConstructor src p.awaited) : AwaitsConstructor src q.awaited ∧
      ∀ k, st.built = some k → k.isConstructor ∧
        st.site.artifact.functionDefinition? k.id = some k := by
  have hreach : AwaitsConstructor src ((p.observe src st.site).track st.site).awaited := by
    rw [Pass.awaited_track, Pass.awaited_observe]
    exact h
  have harrive := awaitsConstructor_await hunique st.isSite hreach
  obtain ⟨hkept, htaken⟩ := takeAwaited_cases st.takes
  refine ⟨?_, ?_⟩
  · rw [st.awaited]
    rcases hkept with hkept | hkept
    · rw [hkept]
      exact harrive
    · rw [hkept]
      intro w hw
      cases hw
  · intro k hk
    obtain ⟨w, hw, hcode, hdefinition⟩ := htaken k hk
    refine ⟨harrive w hw _ ?_ k hdefinition, ?_⟩
    · rw [hcode]
      exact st.isSite.resolved
    · rw [Artifact.functionDefinition?_id hdefinition]
      exact hdefinition

theorem History.awaitsConstructor {tree : CallTree} {pass : Nat → Pass}
    (hist : History src tree pass) (hunique : src.FunctionIdsUnique)
    (hi : i ≤ src.context.trace.length) : AwaitsConstructor src (pass i).awaited := by
  induction i with
  | zero =>
    obtain ⟨root, -, hstart⟩ := hist.start
    rw [hstart]
    intro w hw
    cases hw
  | succ i ih =>
    obtain ⟨st⟩ := hist.stage hi
    exact (st.awaitsConstructor hunique (ih (Nat.le_of_succ_le hi))).1

/-- What a step builds is a constructor and is what its id stands for. -/
theorem History.built_spec {tree : CallTree} {pass : Nat → Pass} (hist : History src tree pass)
    (hunique : src.FunctionIdsUnique) (hi : i < src.context.trace.length)
    (st : Stage src i (pass i) (pass (i + 1))) {k : FunctionDefinition} (hk : st.built = some k) :
    k.isConstructor ∧ st.site.artifact.functionDefinition? k.id = some k :=
  (st.awaitsConstructor hunique (hist.awaitsConstructor hunique hi.le)).2 k hk

end Awaited

/-! ### What is active -/

section Active

variable {frames : List Frame}

/-- The open scopes of the innermost call frame are those that no call frame lies below. -/
theorem Chained.mem_callFrame_iff (h : Chained frames) {s : Frame} :
    s ∈ Layout.callFrame frames ↔
      s ∈ frames ∧ ∀ r ∈ frames, r.kind.isFrame → ¬ s.id.isAncestorOf r.id := by
  induction frames with
  | nil => simp [Layout.callFrame]
  | cons top around ih =>
    have htop : ∀ r ∈ top :: around, ¬ top.id.isAncestorOf r.id := by
      intro r hr hbelow
      obtain ⟨hin, hne⟩ := ScopeId.isAncestorOf_iff.1 hbelow
      exact hne (ScopeId.contains_antisymm hin (h.contains_top hr))
    have haround : ∀ r ∈ around, r.id.isAncestorOf top.id := by
      intro r hr
      exact ScopeId.isAncestorOf_iff.2 ⟨h.contains_top (List.mem_cons_of_mem _ hr), h.ne_top hr⟩
    rw [Layout.callFrame]
    by_cases hframe : top.kind.isFrame
    · rw [if_pos hframe, List.mem_singleton]
      refine ⟨?_, ?_⟩
      · rintro rfl
        exact ⟨List.mem_cons_self, fun r hr _ => htop r hr⟩
      · rintro ⟨hs, hno⟩
        rcases List.mem_cons.1 hs with rfl | hs
        · rfl
        · exact absurd (haround s hs) (hno top List.mem_cons_self hframe)
    · rw [if_neg hframe, List.mem_cons, ih h.tail]
      refine ⟨?_, ?_⟩
      · rintro (rfl | ⟨hs, hno⟩)
        · exact ⟨List.mem_cons_self, fun r hr _ => htop r hr⟩
        · refine ⟨List.mem_cons_of_mem _ hs, fun r hr hkind => ?_⟩
          rcases List.mem_cons.1 hr with rfl | hr
          · exact absurd hkind hframe
          · exact hno r hr hkind
      · rintro ⟨hs, hno⟩
        rcases List.mem_cons.1 hs with rfl | hs
        · exact .inl rfl
        · exact .inr ⟨hs, fun r hr => hno r (List.mem_cons_of_mem _ hr)⟩

/-- A function that opens is active besides those that were. -/
theorem activates_opensBody {c c' : Scene} {site : Site} {kind : ScopeKind}
    {k : FunctionDefinition} {f : Nat} (hkind : IsBody kind)
    (h : c.OpensBody site kind (some k) c') : c'.Activates f ↔ k.id = f ∨ c.Activates f := by
  have hcount : (∃ s ∈ Layout.callFrame (Layout.countChild c.frames), s.function = some f) ↔
      c.Activates f := by
    rw [Layout.Activates]
    cases c.frames with
    | nil => rfl
    | cons top around =>
      by_cases htop : top.kind.isFrame <;> simp [Layout.countChild, Layout.callFrame, htop]
  cases h
  rw [← hcount, Layout.Activates]
  show (∃ s ∈ Layout.callFrame (_ :: Layout.countChild c.frames), _) ↔ _
  simp [Layout.callFrame, not_isFrame_of_isBody hkind]

/-- What is active before a step can be read off the finished tree. -/
theorem History.activates_iff {src : Sources} {tree : CallTree} {pass : Nat → Pass} {step f : Nat}
    (hist : History src tree pass) (wf : tree.WellFormed)
    (hstep : step < src.context.trace.length) :
    (pass step).layout.Activates f ↔ tree.ActiveBefore step f := by
  have hchain := (hist.ordered hstep.le).sound.linked.chained
  refine ⟨?_, ?_⟩
  · rintro ⟨s, hs, hf⟩
    obtain ⟨hmem, hno⟩ := hchain.mem_callFrame_iff.1 hs
    obtain ⟨c, hc, ⟨hcontains, hbegun⟩, hid, -, hfunction⟩ := hist.frame hstep hmem
    rw [hf, Option.map_eq_some_iff] at hfunction
    obtain ⟨a, ha, hfunction⟩ := hfunction
    obtain ⟨c', hc', hbody⟩ := (wf.activated c.id).1 (by rw [ha]; rfl)
    rw [hc] at hc'
    cases hc'
    refine ⟨c, a, hc, ha, hfunction, hbegun.resolve_left (not_isFrame_of_isBody hbody),
      hcontains, ?_⟩
    intro r hr hframe hrcontains
    obtain ⟨r', hr', hrid, hkind, -⟩ := hist.mem_frames hstep hr ⟨hrcontains, .inl hframe⟩
    rw [hid, ← hrid]
    exact hno r' hr' (hkind ▸ hframe)
  · rintro ⟨c, a, hc, ha, rfl, hlt, hcontains, hno⟩
    obtain ⟨s, hs, hid, -, hfunction⟩ := hist.mem_frames hstep hc ⟨hcontains, .inr hlt⟩
    rw [ha] at hfunction
    refine ⟨s, hchain.mem_callFrame_iff.2 ⟨hs, ?_⟩, hfunction⟩
    intro r hr hframe
    obtain ⟨d, hd, hopen, hkey, hkind, -⟩ := hist.frame hstep hr
    rw [hid, ← hkey]
    exact hno d hd (hkind.symm ▸ hframe) hopen.1

theorem Site.EntersFunction.congr {site : Site} {active active' : Nat → Prop} {f : Nat}
    {g : FunctionDefinition} (h : site.EntersFunction active f g)
    (hactive : active f ↔ active' f) : site.EntersFunction active' f g := by
  obtain ⟨row, hrow, hid, hentry⟩ := h.row
  exact ⟨⟨row, hrow, hid, hentry.imp_right (mt hactive.2)⟩, h.jump, h.definition, h.body, h.call⟩

/-- A step enters what it would enter if no constructor opened at it. -/
theorem Stage.entered_iff {src : Sources} {i : Nat} {p q : Pass} (st : Stage src i p q)
    (hbuilt : ∀ k, st.built = some k →
      k.isConstructor ∧ st.site.artifact.functionDefinition? k.id = some k)
    (g : FunctionDefinition) :
    st.entered = some g ↔ ∃ f, st.site.EntersFunction p.layout.Activates f g := by
  have hbuilds := st.parts.builds
  rw [st.parts.entry]
  cases hcase : st.built with
  | none =>
    rw [hcase] at hbuilds
    generalize hinside : st.inside = c at hbuilds
    cases hbuilds
    simp [Pass.observed, Pass.scene, Scene.note]
  | some k =>
    obtain ⟨hconstructor, hdefinition⟩ := hbuilt k hcase
    rw [hcase] at hbuilds
    have hactive : ∀ f, st.inside.Activates f ↔ k.id = f ∨ p.layout.Activates f :=
      fun f => activates_opensBody (.inr rfl) hbuilds
    have hne : ∀ f, st.site.artifact.functionDefinition? f = some g → ¬ g.isConstructor →
        k.id ≠ f := by
      rintro _ hg hbody rfl
      rw [hdefinition] at hg
      cases hg
      exact hbody hconstructor
    have htop : st.inside.topFunction = some k.id := by
      generalize st.inside = c at hbuilds
      cases hbuilds
      rfl
    refine exists_congr fun f => ⟨?_, ?_⟩
    · rintro ⟨h, -⟩
      exact h.congr ((hactive f).trans (or_iff_right (hne f h.definition h.body)))
    · intro h
      have hother := hne f h.definition h.body
      refine ⟨h.congr ((hactive f).trans (or_iff_right hother)).symm, ?_⟩
      rw [htop]
      simp [hother]

end Active

/-! ### Scopes that start at a step -/

section Starts

variable {src : Sources} {site : Site} {c c' : Scene} {kind : ScopeKind} {id : ScopeId}
  {o : Outline}

/-- A scope after a body has opened was there before or is that of the body. -/
theorem of_opensBody {f : Option FunctionDefinition} (h : c.OpensBody site kind f c')
    (ho : c'.tree.scopes id = some o) : c.tree.scopes id = some o ∨
      f.isSome ∧ id = c.nextId ∧ o.kind = kind := by
  cases h with
  | none => exact .inl ho
  | @some f a =>
    replace ho : (c.toLayout.openScope site.step kind site.code (some f.id)).tree.scopes id =
        some o := ho
    rcases of_openScope ho with ⟨rfl, rfl⟩ | ⟨-, ho⟩
    · exact .inr ⟨rfl, rfl, rfl⟩
    · exact .inl ho

/-- The body that opens has a scope, which starts at the step in the code that runs there, and the
activation of its function. -/
theorem exists_opensBody {f : FunctionDefinition} (h : c.OpensBody site kind (some f) c') :
    (∃ o, c'.tree.scopes c.nextId = some o ∧ o.kind = kind ∧ o.code = site.code ∧
      o.firstStep = site.step) ∧
      (∃ a, c'.tree.activations.find? c.nextId = some a ∧ a.functionId = f.id) ∧
      ∃ top around, c'.frames = top :: around ∧ top.id = c.nextId := by
  cases h with
  | @some _ a hfunction hscope hentry hconstructor =>
    let opened : Outline :=
      { id := c.nextId, kind, code := site.code, firstStep := site.step, lastStep := none }
    refine ⟨⟨opened, ?_, rfl, rfl, rfl⟩, ⟨a, ?_, hfunction⟩, _, _, rfl, rfl⟩
    · show (c.toLayout.openScope site.step kind site.code (some f.id)).tree.scopes c.nextId = _
      rw [scopes_openScope, if_pos rfl]
    · show (c.tree.activations.insert a.scope a).find? c.nextId = some a
      rw [SortedMap.find?_insert, if_pos hscope.symm]

/-- A step leaves no bodies behind that were not there. -/
theorem exists_of_leaves {entered : Bool} (h : c.Leaves src site entered c')
    (ho : c'.tree.scopes id = some o) (hbody : ¬ o.kind.isFrame) :
    ∃ r, c.tree.scopes id = some r ∧ r.kind = o.kind ∧ r.firstStep = o.firstStep := by
  cases h with
  | @deeper callee =>
    rcases of_openScope ho with ⟨-, rfl⟩ | ⟨-, ho⟩
    · exact absurd (site.isFrame_calleeKind callee) hbody
    · exact ⟨o, ho, rfl, rfl⟩
  | back =>
    replace ho : (c.toLayout.close site.step (Layout.callSize c.frames)).tree.scopes id = some o :=
      ho
    rw [scopes_close] at ho
    split at ho
    · obtain ⟨r, hr, rfl⟩ := Option.map_eq_some_iff.1 ho
      exact ⟨r, hr, rfl, rfl⟩
    · exact ⟨o, ho, rfl, rfl⟩
  | returns hnoback hnodeeper hentered hout htop =>
    obtain ⟨top, next, around, hframes, -⟩ := htop
    obtain ⟨r, hr, -, hkind, -, hfirst⟩ := exists_of_closeTop hframes ho
    exact ⟨r, hr, hkind, hfirst⟩
  | stays => exact ⟨o, ho, rfl, rfl⟩

variable {tree : CallTree} {pass : Nat → Pass} {step : Nat}

theorem History.grows_inner (hist : History src tree pass) (hstep : step < src.context.trace.length)
    (st : Stage src step (pass step) (pass (step + 1))) :
    st.inner.tree.Grows step step tree.skeleton :=
  (grows_leaves st.orderedInner st.isSite st.parts.leaves).trans
    ((hist.grows_after hstep).mono (Nat.le_succ step) (le_refl step))

theorem History.grows_inside (hist : History src tree pass)
    (hstep : step < src.context.trace.length)
    (st : Stage src step (pass step) (pass (step + 1))) :
    st.inside.tree.Grows step step tree.skeleton :=
  (grows_opensBody st.orderedInside st.isSite (.inl rfl) st.parts.enters).trans
    (hist.grows_inner hstep st)

/-- A scope is there when the step at which it starts is over. -/
theorem History.exists_started (hist : History src tree pass) {c : Scope}
    (hc : tree.scope? c.id = some c) (hstep : c.firstStep < src.context.trace.length) :
    ∃ r, (pass (c.firstStep + 1)).tree.skeleton.scopes c.id = some r ∧ r.kind = c.kind ∧
      r.firstStep = c.firstStep := by
  have ho := CallTree.outline_of_scope? rfl hc
  have hgrows := hist.grows_after hstep
  cases hr : (pass (c.firstStep + 1)).tree.skeleton.scopes c.id with
  | none => exact absurd (hgrows.fresh hr ho).1 (Nat.not_succ_le_self _)
  | some r =>
    obtain ⟨o, ho', -, hkind, -, hfirst, -⟩ := hgrows.exists_kept hr
    rw [ho] at ho'
    cases ho'
    exact ⟨r, rfl, hkind.symm, hfirst.symm⟩

/-- The body of a function that starts at a step is one that the step opens: the constructor that it
takes or the function that it enters. -/
theorem History.opened_of_starts (hist : History src tree pass)
    (hstep : step < src.context.trace.length)
    (st : Stage src step (pass step) (pass (step + 1))) {c : Scope}
    (hc : tree.scope? c.id = some c) (hbody : ¬ c.kind.isFrame) (hfirst : c.firstStep = step) :
    st.built.isSome ∧ c.kind = .constructor ∧ c.id = (pass step).layout.nextId ∨
      st.entered.isSome ∧ c.kind = .internalFunction ∧ c.id = st.inside.nextId := by
  subst hfirst
  obtain ⟨r, hr, hrkind, hrfirst⟩ := hist.exists_started hc hstep
  rw [← hrkind] at hbody
  obtain ⟨r', hr', hkind', hfirst'⟩ := exists_of_leaves st.parts.leaves hr hbody
  rcases of_opensBody st.parts.enters hr' with hinside | ⟨hsome, hid, hfunction⟩
  · rcases of_opensBody st.parts.builds hinside with hbefore | ⟨hsome, hid, hconstructor⟩
    · have hbegun := st.ordered.framed.begun hbefore (hkind'.symm ▸ hbody)
      rw [hfirst', hrfirst] at hbegun
      exact absurd hbegun (lt_irrefl _)
    · exact .inl ⟨hsome, hrkind.symm.trans (hkind'.symm.trans hconstructor), hid⟩
  · exact .inr ⟨hsome, hrkind.symm.trans (hkind'.symm.trans hfunction), hid⟩

/-- The scope of a function that starts at a step is the one that the step opens. -/
theorem History.opened_of_startsFunction (hist : History src tree pass)
    (hstep : step < src.context.trace.length)
    (st : Stage src step (pass step) (pass (step + 1))) {c : Scope}
    (hc : tree.StartsFunction step c) : st.entered.isSome ∧ c.id = st.inside.nextId := by
  have hbody : ¬ c.kind.isFrame := by
    rw [hc.kind]
    decide
  rcases hist.opened_of_starts hstep st hc.found hbody hc.starts with
    ⟨-, hconstructor, -⟩ | ⟨hsome, -, hid⟩
  · rw [hc.kind] at hconstructor
    cases hconstructor
  · exact ⟨hsome, hid⟩

/-- What opens in the midst of a step is in the finished tree, with its activation. -/
theorem exists_scope_of_opensBody (wf : tree.WellFormed) {f : FunctionDefinition}
    (hsite : src.IsSite step site) (hgrows : c'.tree.Grows step step tree.skeleton)
    (h : c.OpensBody site kind (some f) c') : ∃ s a, tree.scope? s.id = some s ∧
      s.id = c.nextId ∧ s.kind = kind ∧ s.code = site.code ∧ s.firstStep = step ∧
        tree.activation? s.id = some a ∧ a.functionId = f.id := by
  obtain ⟨⟨o, ho, hkind, hcode, hfirst⟩, ⟨a, ha, hfunction⟩, -⟩ := exists_opensBody h
  obtain ⟨r, hr, -, hrkind, hrcode, hrfirst, -⟩ := hgrows.exists_kept ho
  obtain ⟨s, hs, rfl⟩ := CallTree.exists_scope?_of_outline rfl hr
  have hkey := wf.keyed hs
  rw [← hkey] at hs
  refine ⟨s, a, hs, hkey, hrkind.trans hkind, hrcode.trans hcode,
    (hrfirst.trans hfirst).trans hsite.spec.1, ?_, hfunction⟩
  rw [hkey]
  exact (hgrows.activations (Option.isSome_iff_exists.2 ⟨o, ho⟩)).trans ha

/-- The function that a step enters gets a scope, and its activation. -/
theorem History.exists_startsFunction (hist : History src tree pass) (wf : tree.WellFormed)
    (hstep : step < src.context.trace.length)
    (st : Stage src step (pass step) (pass (step + 1))) {g : FunctionDefinition}
    (hg : st.entered = some g) : ∃ c a, tree.StartsFunction step c ∧ c.id = st.inside.nextId ∧
      tree.activation? c.id = some a ∧ a.functionId = g.id := by
  have henters := st.parts.enters
  rw [hg] at henters
  obtain ⟨c, a, hc, hid, hkind, -, hfirst, ha, hfunction⟩ :=
    exists_scope_of_opensBody wf st.isSite (hist.grows_inner hstep st) henters
  exact ⟨c, a, ⟨hc, hkind, hfirst⟩, hid, ha, hfunction⟩

/-- What a step enters can be read off the finished tree. -/
theorem History.entered_iff (hist : History src tree pass) (wf : tree.WellFormed)
    (hunique : src.FunctionIdsUnique) (hstep : step < src.context.trace.length)
    (st : Stage src step (pass step) (pass (step + 1))) (g : FunctionDefinition) :
    st.entered = some g ↔ ∃ f, st.site.EntersFunction (tree.ActiveBefore step) f g := by
  rw [st.entered_iff fun k => hist.built_spec hunique hstep st]
  refine exists_congr fun f => ⟨?_, ?_⟩
  · intro h
    exact h.congr (hist.activates_iff wf hstep)
  · intro h
    exact h.congr (hist.activates_iff wf hstep).symm

/-- The innermost open scope of the pass is the innermost that is open before the step. -/
theorem History.exists_innermostBefore (hist : History src tree pass)
    (hstep : step < src.context.trace.length) :
    ∃ d, tree.InnermostBefore step d ∧ d.id = (pass step).scope := by
  obtain ⟨around, hframes⟩ := (pass step).layout_frames
  obtain ⟨d, hd, hopen, hkey, -⟩ := hist.frame hstep (hframes ▸ List.mem_cons_self)
  refine ⟨d, ⟨hd, hopen, ?_⟩, hkey⟩
  intro id s hs hbefore
  obtain ⟨r, hr, rfl, -⟩ := hist.mem_frames hstep hs hbefore
  have hchain := (hist.ordered hstep.le).sound.linked.chained
  rw [hframes] at hr hchain
  rw [hkey]
  exact hchain.contains_top hr

/-- A function that opens is opened in the innermost scope before the step, or in the constructor
that opens at the step. -/
theorem History.parentOf?_nextId (hist : History src tree pass)
    (hstep : step < src.context.trace.length)
    (st : Stage src step (pass step) (pass (step + 1))) :
    ∃ d, tree.parentOf? st.inside.nextId = some d ∧
      (tree.InnermostBefore step d ∨ d.kind = .constructor ∧ d.firstStep = step) := by
  obtain ⟨top, around, hframes⟩ := st.orderedInside.exists_frames
  have hparent : st.inside.nextId.parent? = some top.id :=
    ScopeId.parent?_eq_some_iff.2 ⟨_, nextId_cons hframes⟩
  have hbuilds := st.parts.builds
  rw [CallTree.parentOf?, hparent, Option.bind_some]
  cases hcase : st.built with
  | none =>
    rw [hcase] at hbuilds
    replace hframes : (pass step).layout.frames = top :: around := by
      generalize st.inside = c at hbuilds hframes
      cases hbuilds
      exact hframes
    obtain ⟨d, hd, hid⟩ := hist.exists_innermostBefore hstep
    have hkey : d.id = top.id := hid.trans (Pass.scope_of_frames hframes)
    exact ⟨d, hkey ▸ hd.found, .inl hd⟩
  | some k =>
    rw [hcase] at hbuilds
    obtain ⟨⟨o, ho, hkind, -, hfirst⟩, -, top', around', hframes', hid⟩ := exists_opensBody hbuilds
    rw [hframes] at hframes'
    cases hframes'
    obtain ⟨r, hr, -, hrkind, -, hrfirst, -⟩ := (hist.grows_inside hstep st).exists_kept ho
    obtain ⟨d, hd, rfl⟩ := CallTree.exists_scope?_of_outline rfl hr
    refine ⟨d, by rw [hid]; exact hd, .inr ⟨hrkind.trans hkind, ?_⟩⟩
    exact (hrfirst.trans hfirst).trans st.isSite.spec.1

end Starts

/-- When function ids are unique in every artifact, the scope of a function starts at a step exactly
when the step enters one by what was active before it. No two start at one step; the function is the
one entered, and its scope lies in the innermost that was open before the step or in that of a
constructor that starts at the step. -/
theorem build_startsFunction (src : Sources) (tree : CallTree) (h : src.build = .ready tree)
    (hunique : src.FunctionIdsUnique) (step : Nat) (hstep : step < src.context.trace.length) :
    ∃ site, src.IsSite step site ∧
      ((∃ c, tree.StartsFunction step c) ↔
        ∃ f g, site.EntersFunction (tree.ActiveBefore step) f g) ∧
      ∀ c, tree.StartsFunction step c →
        (∀ c', tree.StartsFunction step c' → c' = c) ∧
        (∃ f g a, site.EntersFunction (tree.ActiveBefore step) f g ∧
          tree.activation? c.id = some a ∧ a.functionId = f) ∧
        ∃ d, tree.parentOf? c.id = some d ∧
          (tree.InnermostBefore step d ∨ d.kind = .constructor ∧ d.firstStep = step) := by
  obtain ⟨pass, hist⟩ := exists_history h
  obtain ⟨wf, -, -⟩ := wellFormed_of_build h
  obtain ⟨st⟩ := hist.stage hstep
  have hentered := hist.entered_iff wf hunique hstep st
  refine ⟨st.site, st.isSite, ⟨?_, ?_⟩, ?_⟩
  · rintro ⟨c, hc⟩
    obtain ⟨hsome, -⟩ := hist.opened_of_startsFunction hstep st hc
    obtain ⟨g, hg⟩ := Option.isSome_iff_exists.1 hsome
    obtain ⟨f, hf⟩ := (hentered g).1 hg
    exact ⟨f, g, hf⟩
  · rintro ⟨f, g, hf⟩
    obtain ⟨c, -, hc, -⟩ := hist.exists_startsFunction wf hstep st ((hentered g).2 ⟨f, hf⟩)
    exact ⟨c, hc⟩
  · intro c hc
    obtain ⟨hsome, hid⟩ := hist.opened_of_startsFunction hstep st hc
    obtain ⟨g, hg⟩ := Option.isSome_iff_exists.1 hsome
    obtain ⟨f, hf⟩ := (hentered g).1 hg
    obtain ⟨c', a, -, hid', ha, hfunction⟩ := hist.exists_startsFunction wf hstep st hg
    rw [hid', ← hid] at ha
    rw [Artifact.functionDefinition?_id hf.definition] at hfunction
    refine ⟨?_, ⟨f, g, a, hf, ha, hfunction⟩, ?_⟩
    · intro r hr
      obtain ⟨-, hr'⟩ := hist.opened_of_startsFunction hstep st hr
      have hsame := hr.found
      rw [hr', ← hid, hc.found] at hsame
      cases hsame
      rfl
    · rw [hid]
      exact hist.parentOf?_nextId hstep st

/-- At the second step of the sample a function starts in the constructor that starts there too. -/
theorem build_startsFunction_sample : ∃ tree site c, sampleSources.build = .ready tree ∧
    sampleSources.FunctionIdsUnique ∧ sampleSources.IsSite 1 site ∧ tree.StartsFunction 1 c ∧
      ∃ f g a, site.EntersFunction (tree.ActiveBefore 1) f g ∧ tree.activation? c.id = some a ∧
        a.functionId = f := by
  obtain ⟨tree, h⟩ := Outcome.exists_of_isReady isReady_sample
  obtain ⟨wf, -, -⟩ := wellFormed_of_build h
  have hunique : sampleSources.FunctionIdsUnique := by
    intro address artifact hartifact
    cases hartifact
    decide +kernel
  have hrows : sampleSources.build.tree?.map (fun tree =>
      tree.allScopes.map fun c => (c.id, c.kind, c.firstStep)) =
      some [(.root, .root, 0), (ScopeId.root.child 1, .constructor, 1),
        ((ScopeId.root.child 1).child 1, .internalFunction, 1)] := by
    decide +kernel
  rw [h, Outcome.tree?, Option.map_some, Option.some_inj] at hrows
  obtain ⟨c, hc, hrow⟩ : ∃ c ∈ tree.allScopes, (c.id, c.kind, c.firstStep) =
      ((ScopeId.root.child 1).child 1, ScopeKind.internalFunction, 1) := by
    rw [← List.mem_map, hrows]
    simp
  simp only [Prod.mk.injEq] at hrow
  have hstarts : tree.StartsFunction 1 c := ⟨(mem_allScopes wf).1 hc, hrow.2.1, hrow.2.2⟩
  obtain ⟨site, hsite, -, hall⟩ :=
    build_startsFunction sampleSources tree h hunique 1 (by decide)
  exact ⟨tree, site, c, h, hunique, hsite, hstarts, (hall c hstarts).2.1⟩

end Build

end TraceTree
