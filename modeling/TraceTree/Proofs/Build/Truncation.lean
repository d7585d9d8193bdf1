import TraceTree.Proofs.Build.Bracketing
import TraceTree.Proofs.Build.CommonPast
import TraceTree.Proofs.Build.LastStep
import TraceTree.Proofs.Recording

/-!
Reconstructions of the first steps of a trace. A pass looks at most one step ahead and never changes
what it has recorded, so all steps but the last are taken up as in the whole trace. Main statement:
the tree of the first `n` steps knows what the whole tree knows of the steps before its last one,
and a reconstruction that fails at a step does so as soon as that step and the next are there
(`build_truncated`).
-/
namespace TraceTree

/-- The scope `r` is what is left of the scope `s` when the trace ends with the step `last`. -/
structure Scope.CutAt (last : Nat) (s r : Scope) : Prop where
  id : r.id = s.id
  kind : r.kind = s.kind
  code : r.code = s.code
  firstStep : r.firstStep = s.firstStep
  lastStep : ∃ l, s.lastStep = some l ∧ r.lastStep = some (min l last)

/-- A scope that goes on ends where the trace does. -/
theorem Scope.SameBefore.cutAt {k : Nat} {s r : Scope} (h : s.SameBefore k r)
    (hlast : ∀ l, r.lastStep = some l → l ≤ k) : s.CutAt k r where
  id := h.id
  kind := h.kind
  code := h.code
  firstStep := h.firstStep
  lastStep := by
    obtain ⟨l, l', hl, hl', rfl | ⟨hkl, hkl'⟩⟩ := h.lastStep
    · exact ⟨l', hl, by rw [hl', Nat.min_eq_left (hlast l' hl')]⟩
    · exact ⟨l, hl, by rw [hl', Nat.min_eq_right hkl, Nat.le_antisymm (hlast l' hl') hkl']⟩

/-- The tree `p` of the first `n` steps has the breakpoints, scopes, locations, functions and
variables of the tree `t`, as far as these belong to steps before the last one. -/
structure CallTree.PrefixOf (p t : CallTree) (n : Nat) : Prop where
  reducedTrace : p.reducedTrace.toList = t.reducedTrace.toList.filter fun step => step < n
  scopes : ∀ id s, t.scope? id = some s → s.firstStep < n - 1 →
    ∃ r, p.scope? id = some r ∧ s.CutAt (n - 1) r
  noMore : ∀ id r, p.scope? id = some r → r.firstStep < n - 1 →
    ∃ s, t.scope? id = some s ∧ s.CutAt (n - 1) r
  locations : ∀ step, step < n - 1 → p.locationAt? step = t.locationAt? step
  callStacks : ∀ step, step < n - 1 → p.callStackAt step = t.callStackAt step
  locals : ∀ step, step < n - 1 → p.localsAt step = t.localsAt step

/-- What a reconstruction knows that goes by a recording. -/
def Recording.sources (r : Recording) (resolver : Build.Resolver)
    (converter : Option Build.LineConverter) (options : BuildOptions) : Build.Sources :=
  { context := r.toContext, resolver, converter, options }

namespace Build

/-! ### The last step of a cut trace -/

theorem siteAt_last {src : Sources} {i : Nat} {current : TraceStep} {next : Option TraceStep}
    {site : Site} (h : src.siteAt i current next = .ok site) :
    src.siteAt i current none = .ok site.last := by
  obtain ⟨code, hcode, h⟩ := bind_eq_ok.1 h
  obtain ⟨artifact, hartifact, h⟩ := bind_eq_ok.1 h
  obtain ⟨raw, hraw, h⟩ := bind_eq_ok.1 h
  cases h
  exact bind_eq_ok.2 ⟨code, hcode, bind_eq_ok.2 ⟨artifact, hartifact,
    bind_eq_ok.2 ⟨raw, hraw, rfl⟩⟩⟩

namespace Sources.Cut

variable {src src' : Sources} {n i k : Nat} {site : Site} {root : CodeAddress} {p q : Pass}

theorem isSite (h : src.Cut src' n) (hn : i + 1 < n) (hsite : src.IsSite i site) :
    src'.IsSite i site := by
  have hi := hsite.step_lt
  obtain ⟨current, hcurrent, hsite⟩ := hsite
  refine ⟨current, ?_, ?_⟩
  · rw [h.steps, List.getElem?_take_of_lt (Nat.lt_of_succ_lt hn), hcurrent]
  · rw [h.siteAt (Nat.lt_of_succ_lt hn) hi, h.steps, List.getElem?_take_of_lt hn, hsite]

theorem isSite_last (h : src.Cut src' (k + 1)) (hsite : src.IsSite k site) :
    src'.IsSite k site.last := by
  have hk := hsite.step_lt
  obtain ⟨current, hcurrent, hsite⟩ := hsite
  have hnext : (src.context.trace.steps.take (k + 1))[k + 1]? = none :=
    List.getElem?_eq_none (List.length_take_le _ _)
  refine ⟨current, ?_, ?_⟩
  · rw [h.steps, List.getElem?_take_of_lt (Nat.lt_succ_self k), hcurrent]
  · rw [h.siteAt (Nat.lt_succ_self k) hk, h.steps, hnext, siteAt_last hsite]

theorem agree_last (h : src.Cut src' (k + 1)) (hsite : src.IsSite k site) :
    src.Agree src' site.last where
  options := h.options
  converter := h.converter
  stack := by
    show src'.stackLengthAt site.step = src.stackLengthAt site.step
    rw [hsite.spec.1, h.stackLengthAt (Nat.lt_succ_self k)]
  callee hdeeper := by cases hdeeper

/-- A step that goes through does so also where the trace is cut off after it. -/
theorem exists_passBefore (h : src.Cut src' (k + 1)) (hk : k < src.context.trace.length)
    (hstack : ∃ m, src.stackLengthAt k = .ok m) (hq : src.passBefore root (k + 1) = .ok q) :
    ∃ q', src'.passBefore root (k + 1) = .ok q' ∧ q'.tree.reducedTrace = q.tree.reducedTrace := by
  obtain ⟨p, hp, hq⟩ := bind_eq_ok.1 hq
  obtain ⟨site, hsite, hstep⟩ := exists_isSite_of_stepAt hk hq
  obtain ⟨m, hm⟩ := hstack
  rw [← hsite.spec.1] at hm
  obtain ⟨q', hstep', hreduced⟩ := Pass.exists_step_last hm hstep
  refine ⟨q'.recount (min (k + 1) src.context.trace.length), ?_, hreduced⟩
  rw [Sources.passBefore, h.passBefore root (Nat.lt_succ_self k), hp]
  show src'.stepAt k (p.recount _) = _
  rw [stepAt_of_isSite (h.isSite_last hsite), Pass.step_recount _ (h.agree_last hsite), hstep']
  rfl

theorem starts (h : src.Cut src' n) (hn : 0 < n) (hpos : 0 < src.context.trace.length)
    (hstarts : src.Starts root) : src'.Starts root := by
  obtain ⟨hroot, artifact, hartifact⟩ := hstarts
  exact ⟨(h.codeAt hn hpos).trans hroot, artifact, (h.artifactAt root.address).trans hartifact⟩

theorem nonempty (h : src.Cut src' n) (hn : 0 < n) (hpos : 0 < src.context.trace.length) :
    src'.context.trace.steps ≠ [] := by
  refine List.ne_nil_of_length_pos ?_
  rw [← Trace.length, h.length]
  exact Nat.lt_min.2 ⟨hn, hpos⟩

theorem length_eq (h : src.Cut src' (k + 1)) (hk : k < src.context.trace.length) :
    src'.context.trace.length = k + 1 := h.length.trans (Nat.min_eq_left hk)

/-- A reconstruction that goes through some steps ends in a tree where the trace is cut off after
them. -/
theorem exists_build (h : src.Cut src' (k + 1)) (hk : k < src.context.trace.length)
    (hstack : ∃ m, src.stackLengthAt k = .ok m) (hstarts : src.Starts root)
    (hq : src.passBefore root (k + 1) = .ok q) :
    ∃ p, src'.build = .ready p ∧ p.reducedTrace = q.tree.reducedTrace := by
  obtain ⟨q', hq', hreduced⟩ := h.exists_passBefore hk hstack hq
  have hpos := Nat.zero_lt_of_lt hk
  refine ⟨q'.close, ?_, (Pass.reducedTrace_closeAll _ _ _).trans hreduced⟩
  rw [build_of_starts (h.nonempty (Nat.succ_pos k) hpos) (h.starts (Nat.succ_pos k) hpos hstarts),
    h.length_eq hk, hq']

end Sources.Cut

/-! ### Trees of cut traces -/

section Prefix

variable {src src' : Sources} {t p : CallTree} {pass pass' : Nat → Pass} {k i : Nat}

/-- The passes of a whole trace and of a cut one are the same up to the last step of that. -/
theorem Sources.Cut.pass_eq (h : src.Cut src' (k + 1)) (hist : History src t pass)
    (hist' : History src' p pass') (hk : k < src.context.trace.length) (hi : i ≤ k) :
    pass' i = (pass i).recount (k + 1) := by
  obtain ⟨root, hstarts⟩ := hist.starts
  have hi' : i ≤ src'.context.trace.length := by
    rw [h.length_eq hk]
    omega
  have hpass := h.passBefore root (Nat.lt_succ_of_le hi)
  rw [hist.passBefore_eq hstarts.1 (hi.trans hk.le), Nat.min_eq_left hk,
    hist'.passBefore_eq (h.starts (Nat.succ_pos k) (Nat.zero_lt_of_lt hk) hstarts).1 hi'] at hpass
  exact Except.ok.inj hpass

theorem Sources.Cut.commonPast (h : src.Cut src' (k + 1)) (hk : k < src.context.trace.length)
    (ht : src.build = .ready t) (hp : src'.build = .ready p) (hist : History src t pass)
    (hist' : History src' p pass') : CommonPast src src' t p pass pass' k where
  built := ht
  built' := hp
  hist := hist
  hist' := hist'
  inside := hk
  inside' := by
    rw [h.length_eq hk]
    exact Nat.lt_succ_self k
  scopes := by
    rw [h.pass_eq hist hist' hk (le_refl k)]
    rfl
  activations := by
    rw [h.pass_eq hist hist' hk (le_refl k)]
    rfl

/-- Up to the last step of the cut trace the locations are the same. -/
theorem Sources.Cut.locationAt?_eq (h : src.Cut src' (k + 1)) (hk : k < src.context.trace.length)
    (hist : History src t pass) (hist' : History src' p pass') (hi : i < k) :
    p.locationAt? i = t.locationAt? i := by
  obtain ⟨st⟩ := hist.stage (hi.trans hk)
  rw [hist.locationAt?_eq st.isSite,
    hist'.locationAt?_eq (h.isSite (Nat.succ_lt_succ hi) st.isSite),
    h.pass_eq hist hist' hk hi.le,
    Pass.locationAt_recount _ (h.agree (Nat.succ_lt_succ hi) st.isSite)]

/-- The tree of a cut trace is a prefix of the whole tree. -/
theorem Sources.Cut.prefixOf (h : src.Cut src' (k + 1)) (hk : k < src.context.trace.length)
    (ht : src.build = .ready t) (hp : src'.build = .ready p) (hist : History src t pass)
    (hreduced : p.reducedTrace = (pass (k + 1)).tree.reducedTrace) : p.PrefixOf t (k + 1) := by
  obtain ⟨pass', hist'⟩ := exists_history hp
  have past := h.commonPast hk ht hp hist hist'
  -- Nothing ends after the last step of the cut trace.
  have hlast : ∀ {id r}, p.scope? id = some r → ∀ l, r.lastStep = some l → l ≤ k := by
    intro id r hr l hl
    have hle := (past.symm.wf.ends_inside hr hl).2
    have hcount := (wellFormed_of_build hp).2.2
    rw [h.length_eq hk] at hcount
    omega
  refine ⟨?_, ?_, ?_, ?_, ?_, ?_⟩
  · rw [hreduced, hist.filter_reducedTrace hk]
  · intro id s hs hfirst
    obtain ⟨r, hr, hsame, -⟩ := past.exists_scope hs hfirst
    exact ⟨r, hr, hsame.cutAt (hlast hr)⟩
  · intro id r hr hfirst
    obtain ⟨s, hs, hsame, -⟩ := past.symm.exists_scope hr hfirst
    exact ⟨s, hs, hsame.symm.cutAt (hlast hr)⟩
  · exact fun step hstep => h.locationAt?_eq hk hist hist' hstep
  · exact fun step hstep => past.callStackAt_eq hstep
  · exact fun step hstep => past.localsAt_eq hstep

end Prefix

/-! ### How reconstructions of cut traces end -/

section Outcomes

variable {src src' : Sources} {t : CallTree} {e : BuildError} {n k : Nat}

theorem Sources.Cut.build_of_ready (h : src.Cut src' (k + 1)) (hk : k < src.context.trace.length)
    (hstack : ∃ m, src.stackLengthAt k = .ok m) (ht : src.build = .ready t) :
    ∃ p, src'.build = .ready p ∧ p.PrefixOf t (k + 1) := by
  obtain ⟨pass, hist⟩ := exists_history ht
  obtain ⟨root, hstarts⟩ := hist.starts
  obtain ⟨p, hp, hreduced⟩ := h.exists_build hk hstack hstarts (hist.passBefore_eq hstarts.1 hk)
  exact ⟨p, hp, h.prefixOf hk ht hp hist hreduced⟩

/-- Cut off before the step at which it fails a reconstruction does not fail. -/
theorem Sources.Cut.build_of_failed_later (h : src.Cut src' (k + 1))
    (hstack : ∀ i, i < src.context.trace.length → ∃ m, src.stackLengthAt i = .ok m)
    (hcode : src.CodeGoesOn) (he : src.build = .failed e) (hlt : k < e.step) :
    ∃ p, src'.build = .ready p := by
  by_cases hstarts : ∃ root, src.Starts root
  · obtain ⟨root, hstarts⟩ := hstarts
    obtain ⟨hstep, ⟨q, hq⟩, -⟩ := passBefore_of_failed hcode hstarts he
    obtain ⟨r, hr⟩ := exists_passBefore_of_le hlt hq
    have hk := hlt.trans hstep
    obtain ⟨p, hp, -⟩ := h.exists_build hk (hstack k hk) hstarts hr
    exact ⟨p, hp⟩
  · rw [step_of_not_starts he fun root hroot => hstarts ⟨root, hroot⟩] at hlt
    exact absurd hlt (Nat.not_lt_zero k)

/-- Where the first step is not reached it does not matter what follows. -/
theorem Sources.Cut.build_of_not_starts (h : src.Cut src' n) (hn : 0 < n)
    (hpos : 0 < src.context.trace.length) (hno : ∀ root, ¬ src.Starts root) :
    src'.build = src.build := by
  have hne := List.ne_nil_of_length_pos hpos
  have hne' := h.nonempty hn hpos
  rw [Sources.build, Sources.build, if_neg (by simpa using hne'), if_neg (by simpa using hne),
    h.codeAt hn hpos]
  cases hroot : src.codeAt 0 with
  | error e => rfl
  | ok root =>
    dsimp only
    rw [h.artifactAt]
    cases hartifact : src.artifactAt 0 root.address with
    | error e => cases e <;> rfl
    | ok artifact => exact absurd ⟨hroot, artifact, hartifact⟩ (hno root)

/-- Cut off after the step at which it fails, with the next one still there, a reconstruction fails
alike. -/
theorem Sources.Cut.build_of_failed_before (h : src.Cut src' n) (hcode : src.CodeGoesOn)
    (he : src.build = .failed e) (hlt : e.step + 2 ≤ n) : src'.build = .failed e := by
  have hn : 0 < n := by omega
  have hpos : 0 < src.context.trace.length := by
    rw [Nat.pos_iff_ne_zero]
    intro hzero
    rw [Sources.build, List.length_eq_zero_iff.1 hzero] at he
    cases he
  by_cases hstarts : ∃ root, src.Starts root
  · obtain ⟨root, hstarts⟩ := hstarts
    obtain ⟨hstep, -, hfailed⟩ := passBefore_of_failed hcode hstarts he
    have hfailed' : src'.passBefore root (e.step + 1) = .error e := by
      rw [h.passBefore root hlt, hfailed]
      rfl
    have hle : e.step + 1 ≤ src'.context.trace.length := by
      rw [h.length]
      omega
    rw [build_of_starts (h.nonempty hn hpos) (h.starts hn hpos hstarts),
      passBefore_eq_error_of_le hle hfailed']
  · rw [h.build_of_not_starts hn hpos fun root hroot => hstarts ⟨root, hroot⟩, he]

end Outcomes

/-! ### Recordings -/

section Recordings

variable (r : Recording) (resolver : Resolver) (converter : Option LineConverter)
  (options : BuildOptions)

theorem cut_truncated (n : Nat) : (r.sources resolver converter options).Cut
    ((r.truncated n).sources resolver converter options) n where
  options := rfl
  converter := rfl
  resolver := rfl
  steps := rfl
  code _ hn hi := Recording.codeAt_truncated hn hi
  stack _ hn := Recording.stackAt_truncated hn

theorem exists_stackLengthAt (hr : r.Complete) (i : Nat) (hi : i < r.trace.length) :
    ∃ m, (r.sources resolver converter options).stackLengthAt i = .ok m := by
  obtain ⟨stack, hstack⟩ := hr.exists_stack hi
  refine ⟨stack.length, ?_⟩
  show ((r.stackAt i).map List.length).mapError _ = _
  rw [hstack]
  rfl

theorem codeAt_sources_eq_ok {i : Nat} {code : CodeAddress} :
    (r.sources resolver converter options).codeAt i = .ok code ↔ r.codeAt i = .ok code := by
  show (r.codeAt i).mapError _ = _ ↔ _
  cases r.codeAt i with
  | error reason => simp [Except.mapError]
  | ok found => simp [Except.mapError]

theorem codeGoesOn_sources : (r.sources resolver converter options).CodeGoesOn := by
  intro i code h hi
  rw [codeAt_sources_eq_ok] at h
  obtain ⟨code', hcode'⟩ := Recording.exists_codeAt_succ h hi
  exact ⟨code', (codeAt_sources_eq_ok r resolver converter options).2 hcode'⟩

/-- Reconstructions of the first steps of a recording. When the whole trace has a tree so have its
first `n` steps, and that tree is a prefix of the whole one. When the whole trace fails at a step
the first steps up to there have a tree, and from the step after it on all fail with that error. -/
theorem build_truncated (hr : r.Complete) :
    (∀ t, (r.sources resolver converter options).build = .ready t →
      ∀ n, 1 ≤ n → n ≤ r.trace.length →
        ∃ p, ((r.truncated n).sources resolver converter options).build = .ready p ∧
          p.PrefixOf t n) ∧
    ∀ e, (r.sources resolver converter options).build = .failed e →
      (∀ n, 1 ≤ n → n ≤ e.step →
        ∃ p, ((r.truncated n).sources resolver converter options).build = .ready p) ∧
      ∀ n, e.step + 2 ≤ n →
        ((r.truncated n).sources resolver converter options).build = .failed e := by
  have hcut := cut_truncated r resolver converter options
  have hstack := exists_stackLengthAt r resolver converter options hr
  have hcode := codeGoesOn_sources r resolver converter options
  refine ⟨?_, fun e he => ⟨?_, ?_⟩⟩
  · intro t ht n hn hle
    obtain ⟨k, rfl⟩ := Nat.exists_eq_add_of_le' hn
    exact (hcut (k + 1)).build_of_ready hle (hstack k hle) ht
  · intro n hn hle
    obtain ⟨k, rfl⟩ := Nat.exists_eq_add_of_le' hn
    exact (hcut (k + 1)).build_of_failed_later hstack hcode he hle
  · intro n hle
    exact (hcut n).build_of_failed_before hcode he hle

/-- The trace of a call inside a function, recorded. -/
def callRecording : Recording := .ofTrace callSources.context.trace ⟨default, false⟩

/-- The first four steps of the recorded call have a tree, which the step at which the callee starts
ends. Where scopes may not lie in one another that deep the reconstruction fails at the call. -/
theorem build_truncated_call : callRecording.Complete ∧
    (∃ t p, (callRecording.sources callSources.resolver callSources.converter {}).build = .ready t ∧
      ((callRecording.truncated 4).sources callSources.resolver callSources.converter {}).build =
        .ready p ∧ p.PrefixOf t 4) ∧
    ∃ e p, (callRecording.sources callSources.resolver callSources.converter
        { maxScopeDepth := 2 }).build = .failed e ∧ e.step = 2 ∧
      ((callRecording.truncated 2).sources callSources.resolver callSources.converter
        { maxScopeDepth := 2 }).build = .ready p ∧
      ((callRecording.truncated 4).sources callSources.resolver callSources.converter
        { maxScopeDepth := 2 }).build = .failed e := by
  have hcomplete : callRecording.Complete := Recording.complete_ofTrace _ _
  refine ⟨hcomplete, ?_, ?_⟩
  · obtain ⟨t, ht⟩ := Outcome.exists_of_isReady
      (show (callRecording.sources callSources.resolver callSources.converter {}).build.isReady by
        decide +kernel)
    have hprefix := (build_truncated callRecording callSources.resolver callSources.converter {}
      hcomplete).1 t ht
    obtain ⟨p, hp, hof⟩ := hprefix 4 (by decide) (by decide)
    exact ⟨t, p, ht, hp, hof⟩
  · have hfailed : (callRecording.sources callSources.resolver callSources.converter
        { maxScopeDepth := 2 }).build = .failed (.recursionLimitExceeded 2 2) := by
      decide +kernel
    obtain ⟨hearly, hlate⟩ := (build_truncated callRecording callSources.resolver
      callSources.converter { maxScopeDepth := 2 } hcomplete).2 _ hfailed
    obtain ⟨p, hp⟩ := hearly 2 (by decide) (by decide)
    exact ⟨_, p, hfailed, rfl, hp, hlate 4 (by decide)⟩

end Recordings

end Build

end TraceTree
