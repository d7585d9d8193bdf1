import Mathlib.Order.Bounds.Defs
import TraceTree.Proofs.Build.Entry

/-!
Where the scope of a function ends. In the midst of a step, once all that opens at it is open, the
open scopes are those around the step in the finished tree (`History.scope_of_mem_inner`,
`History.mem_inner`), so what the step ends can be read off that tree. Main statement: the scope of
a function ends with the first step at which the trace ends, its call frame is left or it returns,
and with no other (`build_lastStep`).
-/
namespace TraceTree

/-! ### The call frame of a scope -/

namespace CallTree

/-- The innermost call frame around a scope. -/
structure EnclosingFrame (t : CallTree) (id : ScopeId) (c : Scope) : Prop where
  found : t.scope? c.id = some c
  frame : c.kind.isFrame
  around : c.id.contains id
  deepest : ∀ {a s}, t.scope? a = some s → s.kind.isFrame → a.contains id → a.contains c.id

/-- Every scope lies in a call frame. -/
theorem WellFormed.exists_enclosingFrame {t : CallTree} (wf : t.WellFormed) {id : ScopeId}
    {s : Scope} (hs : t.scope? id = some s) : ∃ c, t.EnclosingFrame id c := by
  -- The induction is on the length of the id, from the root inwards.
  obtain ⟨n, hn⟩ : ∃ n, id.path.length = n := ⟨_, rfl⟩
  induction n generalizing id s with
  | zero => exact absurd (List.length_eq_zero_iff.1 hn) id.path_ne_nil
  | succ n ih =>
    by_cases hframe : s.kind.isFrame
    · have hkey := wf.keyed hs
      exact ⟨s, hkey.symm ▸ hs, hframe, hkey ▸ ScopeId.contains_refl _,
        fun _ _ hin => hkey.symm ▸ hin⟩
    · rcases ScopeId.eq_root_or_child (wf.belowRoot hs) with rfl | ⟨p, m, rfl, -⟩
      · obtain ⟨r, hr, hkind, -⟩ := wf.root
        rw [show t.root? = t.scope? .root from rfl, hs] at hr
        cases hr
        rw [hkind] at hframe
        exact absurd rfl hframe
      · obtain ⟨q, hq⟩ := Option.isSome_iff_exists.1
          (wf.upward (by rw [hs]; rfl) (ScopeId.contains_child p m))
        obtain ⟨c, hc⟩ := ih hq (by simpa using hn)
        have haround := ScopeId.contains_trans hc.around (ScopeId.contains_child p m)
        refine ⟨c, hc.found, hc.frame, haround, ?_⟩
        intro a r hr hkind hin
        refine hc.deepest hr hkind ((ScopeId.contains_child_iff.1 hin).resolve_left ?_)
        rintro rfl
        rw [hs] at hr
        cases hr
        exact hframe hkind

end CallTree

namespace Build

/-- What ends the scope `f` of a function in the call frame `c`: the end of the trace, a fall of the
depth that leaves the frame, or a return at a step whose innermost scope it is. -/
inductive EndsFunction (src : Sources) (tree : CallTree) (c f : Scope) (step : Nat) : Prop
  | finish (hlast : step + 1 = src.context.trace.length)
  | back (hback : src.context.trace.ComesBackAt step) (hframe : tree.InnermostFrame step c)
  | returns (htop : tree.scopeAt? step = some f)
      (hout : ∃ site, src.IsSite step site ∧ site.raw.jump = .out)
      (hnext : step + 1 < src.context.trace.length)
      (hdepth : src.context.trace.depthAt (step + 1) = src.context.trace.depthAt step)

/-! ### The scopes in the midst of a step -/

/-- The body of a function that lies in all open call frames closes with the innermost of these. -/
theorem Chained.mem_take_of_contains {frames : List Frame} (h : Chained frames) {s : Frame}
    (hs : s ∈ frames) (hbody : ¬ s.kind.isFrame)
    (hin : ∀ r ∈ frames, r.kind.isFrame → r.id.contains s.id) :
    s.id ∈ (frames.take (Layout.callSize frames)).map Frame.id := by
  induction frames with
  | nil => cases hs
  | cons top around ih =>
    cases around with
    | nil =>
      rw [List.mem_singleton.1 hs, h.2] at hbody
      exact absurd rfl hbody
    | cons next around =>
      rw [Layout.callSize]
      split
      · rename_i htop
        rcases List.mem_cons.1 hs with rfl | hs
        · exact absurd htop hbody
        · have hinside := hin top List.mem_cons_self htop
          have hid := ScopeId.contains_antisymm hinside (h.contains_top (List.mem_cons_of_mem _ hs))
          exact absurd hid.symm (h.ne_top hs)
      · rw [List.take_succ_cons, List.map_cons, List.mem_cons]
        rcases List.mem_cons.1 hs with rfl | hs
        · exact .inl rfl
        · exact .inr (ih h.tail hs fun r hr => hin r (List.mem_cons_of_mem _ hr))

section Midst

variable {src : Sources} {tree : CallTree} {pass : Nat → Pass} {step : Nat}

/-- What is open in the midst of a step is around it in the finished tree. -/
theorem History.scope_of_mem_inner (hist : History src tree pass) (wf : tree.WellFormed)
    (hstep : step < src.context.trace.length) (st : Stage src step (pass step) (pass (step + 1)))
    {s : Frame} (hs : s ∈ st.inner.frames) :
    ∃ c, tree.scope? s.id = some c ∧ c.kind = s.kind ∧ c.contains step := by
  obtain ⟨o, ho, hopen⟩ := st.orderedInner.sound.linked.framed hs
  obtain ⟨o', ho', -, hkind, -, hfirst, hend⟩ := (hist.grows_inner hstep st).exists_kept ho
  obtain ⟨c, hc, rfl⟩ := CallTree.exists_scope?_of_outline rfl ho'
  obtain ⟨l, hl, hiff⟩ := wf.contains_iff hc
  refine ⟨c, hc, hkind.trans (st.orderedInner.framed.kind hs ho), (hiff step).2 ⟨?_, ?_⟩⟩
  · exact hfirst.trans_le (st.orderedInner.sound.nested.early ho).1
  · rcases hend with hsame | ⟨-, m, hm, hlast⟩
    · rw [← hsame, show c.outline.lastStep = some l from hl] at hopen
      cases hopen
    · rw [show c.outline.lastStep = some l from hl] at hlast
      cases hlast
      exact hm

/-- What is around a step in the finished tree is open in the midst of it. -/
theorem History.mem_inner (hist : History src tree pass)
    (hstep : step < src.context.trace.length) (st : Stage src step (pass step) (pass (step + 1)))
    {c : Scope} (hc : tree.scope? c.id = some c) (hcov : c.contains step) :
    ∃ s ∈ st.inner.frames, s.id = c.id ∧ s.kind = c.kind := by
  have hgrows := hist.grows_inner hstep st
  have ho := CallTree.outline_of_scope? rfl hc
  simp only [Scope.contains, Bool.and_eq_true, decide_eq_true_eq] at hcov
  cases hr : st.inner.tree.scopes c.id with
  | none =>
    -- It would start at the step as the body of a function, and those have opened.
    obtain ⟨hfirst, hframe⟩ := hgrows.fresh hr ho
    obtain rfl : c.firstStep = step := le_antisymm hcov.1 hfirst
    obtain ⟨r, hr', hkind, -⟩ := hist.exists_started hc hstep
    have hbody : ¬ r.kind.isFrame := by
      rw [hkind]
      exact fun h => lt_irrefl _ (hframe h)
    obtain ⟨s, hs, -⟩ := exists_of_leaves st.parts.leaves hr' hbody
    rw [hr] at hs
    cases hs
  | some o =>
    have hopen : o.lastStep = none := by
      cases hl : o.lastStep with
      | none => rfl
      | some l =>
        have hsame := hgrows.ended hr hl
        rw [ho] at hsame
        cases hsame
        have hlt := (st.orderedInner.sound.nested.ended hr hl).2
        rw [show c.lastStep = some l from hl, Option.all_some, decide_eq_true_eq] at hcov
        omega
    obtain ⟨s, hs, hid⟩ := st.orderedInner.sound.linked.opened hr hopen
    obtain ⟨o', ho', -, hkind, -⟩ := hgrows.exists_kept hr
    rw [ho] at ho'
    cases ho'
    rw [← hid] at hr
    exact ⟨s, hs, hid, (st.orderedInner.framed.kind hs hr).symm.trans hkind.symm⟩

/-- The innermost scope in the midst of a step is the one that is found at the step. -/
theorem History.scopeAt?_eq_iff (hist : History src tree pass) (wf : tree.WellFormed)
    (hcount : tree.stepCount = src.context.trace.length)
    (hstep : step < src.context.trace.length) (st : Stage src step (pass step) (pass (step + 1)))
    {top : Frame} {around : List Frame} (hframes : st.inner.frames = top :: around) {c : Scope}
    (hc : tree.scope? c.id = some c) : tree.scopeAt? step = some c ↔ top.id = c.id := by
  have hchain := st.orderedInner.sound.linked.chained
  rw [hframes] at hchain
  obtain ⟨d, hd, hin⟩ := wf.scopeAt?_innermost (hcount.symm ▸ hstep)
  -- The innermost scope of the finished tree has the id of the innermost frame.
  have hid : top.id = d.id := by
    obtain ⟨r, hr, -, hcov⟩ := hist.scope_of_mem_inner wf hstep st (hframes ▸ List.mem_cons_self)
    obtain ⟨s, hs, hsid, -⟩ := hist.mem_inner hstep st hin.found hin.covers
    rw [hframes] at hs
    exact ScopeId.contains_antisymm (hin.deepest hr hcov) (hsid ▸ hchain.contains_top hs)
  rw [hd, hid]
  constructor
  · rintro h
    rw [Option.some.inj h]
  · intro h
    have hfound := hin.found
    rw [h, hc] at hfound
    exact hfound.symm

/-- What a step ends is ended by it as a function. -/
theorem History.endsFunction_of_ends (hist : History src tree pass) (wf : tree.WellFormed)
    (hcount : tree.stepCount = src.context.trace.length) {c f : Scope}
    (hf : tree.scope? f.id = some f) (hc : tree.EnclosingFrame f.id c) (hcov : f.contains step)
    (hlt : step + 1 < src.context.trace.length)
    (st : Stage src step (pass step) (pass (step + 1))) (hends : st.Ends f.id) :
    EndsFunction src tree c f step := by
  have hstep := Nat.lt_of_succ_lt hlt
  have hback := st.isSite.comesBack_iff
  rcases hends with ⟨hcomes, hmem⟩ | ⟨hnoback, hnodeeper, hout, hframes, -, hid⟩
  · refine .back (hback.1 hcomes) ⟨hc.found, hc.frame, ?_, ?_⟩
    · exact wf.contains_of_contains hc.found hf hc.around hcov
    · intro id s hs hframe hcovers
      have hkey := wf.keyed hs
      rw [← hkey] at hs ⊢
      obtain ⟨r, hr, hid, hsame⟩ := hist.mem_inner hstep st hs hcovers
      refine hc.deepest hs hframe ?_
      rw [← hid]
      exact st.orderedInner.sound.linked.chained.contains_of_mem_take hr (hsame ▸ hframe) hmem
  · refine .returns ((hist.scopeAt?_eq_iff wf hcount hstep st hframes hf).2 hid)
      ⟨st.site, st.isSite, hout⟩ hlt ?_
    rw [hback, Trace.ComesBackAt] at hnoback
    rw [st.isSite.goesDeeper_iff] at hnodeeper
    omega

/-- What ends a function is what the step ends. -/
theorem History.ends_of_endsFunction (hist : History src tree pass) (wf : tree.WellFormed)
    (hcount : tree.stepCount = src.context.trace.length) {c f : Scope}
    (hf : tree.scope? f.id = some f) (hkind : f.kind = .internalFunction)
    (hc : tree.EnclosingFrame f.id c) (hcov : f.contains step)
    (hlt : step + 1 < src.context.trace.length)
    (st : Stage src step (pass step) (pass (step + 1)))
    (hends : EndsFunction src tree c f step) : st.Ends f.id := by
  have hstep := Nat.lt_of_succ_lt hlt
  have hchain := st.orderedInner.sound.linked.chained
  have hback := st.isSite.comesBack_iff
  obtain ⟨s, hs, hid, hskind⟩ := hist.mem_inner hstep st hf hcov
  have hbody : ¬ s.kind.isFrame := by
    rw [hskind, hkind]
    decide
  cases hends with
  | finish hlast => omega
  | back hcomes hframe =>
    refine .back (hback.2 hcomes) (hid ▸ hchain.mem_take_of_contains hs hbody ?_)
    intro r hr hrframe
    obtain ⟨d, hd, hdkind, hdcov⟩ := hist.scope_of_mem_inner wf hstep st hr
    rw [hid]
    exact ScopeId.contains_trans (hframe.deepest hd (hdkind.symm ▸ hrframe) hdcov) hc.around
  | returns htop hout hnext hdepth =>
    obtain ⟨site, hsite, hout⟩ := hout
    rw [hsite.unique st.isSite] at hout
    obtain ⟨top, around, hframes⟩ := st.orderedInner.exists_frames
    have htopid := (hist.scopeAt?_eq_iff wf hcount hstep st hframes hf).1 htop
    have hsame : s = top := by
      rw [hframes] at hs hchain
      rcases List.mem_cons.1 hs with rfl | hs
      · rfl
      · exact absurd (hid.trans htopid.symm) (hchain.ne_top hs)
    cases around with
    | nil =>
      rw [hframes] at hchain
      rw [hsame, hchain.2] at hbody
      exact absurd rfl hbody
    | cons next around =>
      refine .returns ?_ ?_ hout hframes (hsame ▸ hskind.trans hkind) htopid
      · rw [hback, Trace.ComesBackAt]
        omega
      · rw [st.isSite.goesDeeper_iff]
        omega

/-- Before the last step of the trace a function ends with a step exactly when that ends it. -/
theorem History.lastStep_eq_iff (hist : History src tree pass) (wf : tree.WellFormed)
    (hcount : tree.stepCount = src.context.trace.length) {c f : Scope}
    (hf : tree.scope? f.id = some f) (hkind : f.kind = .internalFunction)
    (hc : tree.EnclosingFrame f.id c) (hcov : f.contains step)
    (hlt : step + 1 < src.context.trace.length) :
    f.lastStep = some step ↔ EndsFunction src tree c f step := by
  obtain ⟨st⟩ := hist.stage (Nat.lt_of_succ_lt hlt)
  constructor
  · intro hl
    exact hist.endsFunction_of_ends wf hcount hf hc hcov hlt st
      (st.ends_of_scope (hist.scopes_of_ended wf hf hl hlt) hl)
  · intro hends
    obtain ⟨o, ho, hl⟩ :=
      (hist.ends_of_endsFunction wf hcount hf hkind hc hcov hlt st hends).exists_scope
    have hsame := (hist.grows_tree hlt).ended ho hl
    rw [CallTree.outline_of_scope? rfl hf] at hsame
    rw [← hl, ← Option.some.inj hsame]
    rfl

/-- The scope of a function ends with the first step from its start on that ends it: the last one of
the trace, one at which the depth falls and the function's call frame is the innermost, or a return
at which the function is innermost and the depth stays. -/
theorem build_lastStep (src : Sources) (tree : CallTree) (h : src.build = .ready tree)
    (id : ScopeId) (f : Scope) (hf : tree.scope? id = some f)
    (hkind : f.kind = .internalFunction) :
    ∃ c l, tree.EnclosingFrame id c ∧ f.lastStep = some l ∧
      IsLeast {s | f.firstStep ≤ s ∧ EndsFunction src tree c f s} l := by
  obtain ⟨pass, hist⟩ := exists_history h
  obtain ⟨wf, hpos, hcount⟩ := wellFormed_of_build h
  obtain rfl := wf.keyed hf
  obtain ⟨c, hc⟩ := wf.exists_enclosingFrame hf
  obtain ⟨l, hl, hle, hlast⟩ := wf.closed hf
  have hcov : ∀ s, f.firstStep ≤ s → s ≤ l → f.contains s := by
    intro s hfirst hs
    simp [Scope.contains, hl, hfirst, hs]
  refine ⟨c, l, hc, hl, ⟨hle, ?_⟩, ?_⟩
  · rcases Nat.lt_or_ge (l + 1) src.context.trace.length with hlt | hge
    · exact (hist.lastStep_eq_iff wf hcount hf hkind hc (hcov l hle (le_refl l)) hlt).1 hl
    · exact .finish (by omega)
  · rintro s ⟨hfirst, hends⟩
    by_contra hno
    have hlt : s + 1 < src.context.trace.length := by omega
    have hend := (hist.lastStep_eq_iff wf hcount hf hkind hc (hcov s hfirst (by omega)) hlt).2 hends
    rw [hl] at hend
    cases hend
    exact hno (le_refl l)

end Midst

/-- The function `g` that calls in its midst ends with its return, not with that of the callee. -/
theorem build_lastStep_call : ∃ tree id f c, callSources.build = .ready tree ∧
    tree.scope? id = some f ∧ f.kind = .internalFunction ∧ tree.EnclosingFrame id c ∧
      f.firstStep = 1 ∧ IsLeast {s | 1 ≤ s ∧ EndsFunction callSources tree c f s} 6 := by
  obtain ⟨tree, h⟩ := Outcome.exists_of_isReady isReady_call
  have hfunction : callSources.build.tree?.all (fun t => t.allScopes.any fun s =>
      s.kind == .internalFunction && s.firstStep == 1 && s.lastStep == some 6) := by
    decide +kernel
  rw [h, Outcome.tree?, Option.all_some, List.any_eq_true] at hfunction
  obtain ⟨f, hmem, hf⟩ := hfunction
  simp only [Bool.and_eq_true, beq_iff_eq] at hf
  obtain ⟨⟨hkind, hfirst⟩, hlast⟩ := hf
  obtain ⟨id, hid⟩ := SortedMap.mem_values_iff.1 hmem
  obtain ⟨c, l, hc, hl, hleast⟩ := build_lastStep callSources tree h id f hid hkind
  rw [hlast] at hl
  cases hl
  rw [hfirst] at hleast
  exact ⟨tree, id, f, c, h, hid, hkind, hc, hfirst, hleast⟩

end Build

end TraceTree
