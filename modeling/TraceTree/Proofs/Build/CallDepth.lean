import TraceTree.Proofs.Build.Bracketing
import TraceTree.Proofs.Build.History

/-!
Call frames and the call depth. In a trace whose depth changes by one step at a time and never falls
below where it starts, there is one open call frame for each level of depth, whatever functions and
constructors are open in them (`Stage.callDepth`). Main statements: the number of call frames around
a step is its depth above that of the first step, so steps of one call frame run at one depth
(`build_callDepth`), and a call frame ends exactly where the depth falls
(`History.ended`).
-/
namespace TraceTree

/-! ### Depths -/

namespace Trace

/-- The call depth of a step. -/
def depthAt (t : Trace) (i : Nat) : Nat := (t.steps[i]?.map (·.depth)).getD 0

/-- The step after that one runs less deep. -/
def ComesBackAt (t : Trace) (i : Nat) : Prop := i + 1 < t.length ∧ t.depthAt (i + 1) < t.depthAt i

/-- Consecutive depths differ by at most one and never fall below the first. -/
structure Steady (t : Trace) : Prop where
  rises : ∀ i, i + 1 < t.length → t.depthAt (i + 1) ≤ t.depthAt i + 1
  falls : ∀ i, i + 1 < t.length → t.depthAt i ≤ t.depthAt (i + 1) + 1
  floor : ∀ i, i < t.length → t.depthAt 0 ≤ t.depthAt i

end Trace

namespace CallTree

/-- The innermost call frame around a step. -/
structure InnermostFrame (t : CallTree) (step : Nat) (c : Scope) : Prop where
  found : t.scope? c.id = some c
  frame : c.kind.isFrame
  covers : c.contains step
  deepest : ∀ {id s}, t.scope? id = some s → s.kind.isFrame → s.contains step → id.contains c.id

/-- How many call frames are around a step. -/
def callDepth (t : CallTree) (step : Nat) : Nat :=
  t.allScopes.countP fun s => s.kind.isFrame && s.contains step

end CallTree

namespace Build

theorem Sources.IsSite.depthAt {src : Sources} {i : Nat} {site : Site} (h : src.IsSite i site) :
    src.context.trace.depthAt i = site.current.depth := by
  rw [Trace.depthAt, h.spec.2.1]
  rfl

theorem Sources.IsSite.comesBack_iff {src : Sources} {i : Nat} {site : Site}
    (h : src.IsSite i site) : site.comesBack ↔ src.context.trace.ComesBackAt i := by
  obtain ⟨-, -, hnext, -⟩ := h.spec
  rw [Site.comesBack, Trace.ComesBackAt, h.depthAt, Trace.depthAt, hnext, Trace.length]
  by_cases hi : i + 1 < src.context.trace.steps.length
  · simp [hi]
  · simp [hi]

theorem Sources.IsSite.goesDeeper_iff {src : Sources} {i : Nat} {site : Site}
    (h : src.IsSite i site) : site.goesDeeper ↔
      i + 1 < src.context.trace.length ∧
        src.context.trace.depthAt i < src.context.trace.depthAt (i + 1) := by
  obtain ⟨-, -, hnext, -⟩ := h.spec
  rw [Site.goesDeeper, h.depthAt, Trace.depthAt, hnext, Trace.length]
  by_cases hi : i + 1 < src.context.trace.steps.length
  · simp [hi]
  · simp [hi]

/-! ### The innermost call frame -/

section Frames

variable {frames : List Frame} {k : Layout} {x : Nat}

theorem Chained.nodup (h : Chained frames) : (frames.map Frame.id).Nodup := by
  induction frames with
  | nil => exact .nil
  | cons top around ih =>
    rw [List.map_cons, List.nodup_cons]
    refine ⟨?_, ih h.tail⟩
    intro hmem
    obtain ⟨s, hs, hid⟩ := List.mem_map.1 hmem
    exact h.ne_top hs hid

/-- The innermost call frame with the bodies of functions in it; closing a call closes these, and
the frame too when it is not the outermost. -/
theorem Chained.exists_callFrame (h : Chained frames) (hne : frames ≠ []) :
    ∃ bodies call around, frames = bodies ++ call :: around ∧ (∀ b ∈ bodies, ¬ b.kind.isFrame) ∧
      call.kind.isFrame ∧
      Layout.callSize frames = bodies.length + if around = [] then 0 else 1 := by
  induction frames with
  | nil => exact absurd rfl hne
  | cons top around ih =>
    cases around with
    | nil =>
      have hroot : top.kind.isFrame := by
        rw [h.2]
        rfl
      exact ⟨[], top, [], rfl, by simp, hroot, rfl⟩
    | cons next around =>
      by_cases htop : top.kind.isFrame
      · exact ⟨[], top, next :: around, rfl, by simp, htop, by simp [Layout.callSize, htop]⟩
      · obtain ⟨bodies, call, outer, hframes, hbodies, hcall, hsize⟩ := ih h.tail (by simp)
        refine ⟨top :: bodies, call, outer, by rw [hframes, List.cons_append], ?_, hcall, ?_⟩
        · simpa [htop] using hbodies
        · rw [Layout.callSize, if_neg htop, hsize, List.length_cons]
          omega

/-- Whatever closes with a call lies below all call frames. -/
theorem Chained.contains_of_mem_take (h : Chained frames) {s : Frame} (hs : s ∈ frames)
    (hframe : s.kind.isFrame) {id : ScopeId}
    (hid : id ∈ (frames.take (Layout.callSize frames)).map Frame.id) : s.id.contains id := by
  induction frames with
  | nil => cases hs
  | cons top around ih =>
    cases around with
    | nil => simp [Layout.callSize] at hid
    | cons next around =>
      rw [Layout.callSize] at hid
      split at hid
      · obtain rfl : id = top.id := by simpa using hid
        exact h.contains_top hs
      · rename_i htop
        rw [List.take_succ_cons, List.map_cons, List.mem_cons] at hid
        rcases hid with rfl | hid
        · exact h.contains_top hs
        · rcases List.mem_cons.1 hs with rfl | hs
          · exact absurd hframe htop
          · exact ih h.tail hs hid

theorem frames_close (k : Layout) (x n : Nat) : (k.close x n).frames = k.frames.drop n := by
  induction n generalizing k with
  | zero => rfl
  | succ n ih =>
    rw [Layout.close, ih]
    cases hframes : k.frames with
    | nil => simp [closeTop_of_nil hframes, hframes]
    | cons top around => rw [frames_closeTop hframes, List.drop_succ_cons]

/-- Closing innermost scopes ends exactly these. -/
theorem scopes_close (k : Layout) (x n : Nat) (id : ScopeId) :
    (k.close x n).tree.scopes id =
      if id ∈ (k.frames.take n).map Frame.id then (k.tree.scopes id).map (·.closeAt x)
      else k.tree.scopes id := by
  induction n generalizing k with
  | zero => simp [Layout.close]
  | succ n ih =>
    rw [Layout.close, ih]
    cases hframes : k.frames with
    | nil => simp [closeTop_of_nil hframes, hframes]
    | cons top around =>
      rw [frames_closeTop hframes, scopes_closeTop hframes, List.take_succ_cons, List.map_cons]
      by_cases hid : id = top.id
      · subst hid
        cases hscope : k.tree.scopes top.id <;> simp [Outline.closeAt]
      · simp [hid]

end Frames

/-! ### Call frames through a step -/

namespace Layout

/-- How many call frames are open. -/
def callDepth (k : Layout) : Nat := k.frames.countP (·.kind.isFrame)

theorem callDepth_openScope (k : Layout) (x : Nat) (kind : ScopeKind) (code : CodeAddress)
    (function : Option Nat) : (k.openScope x kind code function).callDepth =
      k.callDepth + if kind.isFrame then 1 else 0 := by
  have hcount : (countChild k.frames).countP (·.kind.isFrame) = k.callDepth := by
    rw [callDepth]
    cases k.frames with
    | nil => rfl
    | cons top around => simp [countChild, List.countP_cons]
  rw [callDepth, openScope, List.countP_cons, hcount]

/-- Closing the innermost call frame closes one call frame, when there is one around it. -/
theorem callDepth_closeCall {k : Layout} {x : Nat} (h : Chained k.frames)
    (hdepth : 1 < k.callDepth) : (k.closeCall x).callDepth + 1 = k.callDepth := by
  have hne : k.frames ≠ [] := by
    intro hnil
    simp [callDepth, hnil] at hdepth
  obtain ⟨bodies, call, around, hframes, hbodies, hcall, hsize⟩ := h.exists_callFrame hne
  have hnone : bodies.countP (·.kind.isFrame) = 0 := List.countP_eq_zero.2 hbodies
  have hcount : k.callDepth = around.countP (·.kind.isFrame) + 1 := by
    simp [callDepth, hframes, List.countP_append, hnone, hcall]
  have haround : around ≠ [] := by
    rintro rfl
    rw [hcount] at hdepth
    exact absurd hdepth (by simp)
  rw [hcount, callDepth, closeCall, frames_close, hsize, if_neg haround, hframes, ← List.drop_drop,
    List.drop_left, List.drop_one, List.tail_cons]

end Layout

theorem callDepth_opensBody {c c' : Scene} {site : Site} {kind : ScopeKind}
    {f : Option FunctionDefinition} (hkind : CallTree.IsBody kind)
    (h : c.OpensBody site kind f c') : c'.callDepth = c.callDepth := by
  cases h with
  | none => rfl
  | @some f a =>
    have hcount := c.toLayout.callDepth_openScope site.step kind site.code (some f.id)
    rw [if_neg (not_isFrame_of_isBody hkind), Nat.add_zero] at hcount
    exact hcount

theorem not_comesBack_of_goesDeeper {site : Site} (h : site.goesDeeper) : ¬ site.comesBack := by
  rw [Site.goesDeeper] at h
  rw [Site.comesBack]
  cases hnext : site.next with
  | none => simp
  | some next =>
    rw [hnext, Option.any_some, decide_eq_true_eq] at h
    rw [Option.any_some, decide_eq_true_eq]
    exact h.le.not_gt

/-- A step that leads deeper opens a call frame, one that comes back closes one, and any other step
leaves them alone. -/
theorem Stage.callDepth {src : Sources} {i : Nat} {p q : Pass} (st : Stage src i p q)
    (hback : st.site.comesBack → 1 < p.layout.callDepth) :
    q.layout.callDepth + (if st.site.comesBack then 1 else 0) =
      p.layout.callDepth + if st.site.goesDeeper then 1 else 0 := by
  have hinner : st.inner.callDepth = p.layout.callDepth :=
    (callDepth_opensBody (.inl rfl) st.parts.enters).trans
      (callDepth_opensBody (.inr rfl) st.parts.builds)
  have hleaves := st.parts.leaves
  generalize hscene : q.scene = c at hleaves
  have hq : q.layout.callDepth = c.callDepth := by rw [← hscene]; rfl
  rw [hq, ← hinner]
  cases hleaves with
  | @deeper callee hdeeper hcode =>
    have hcount := st.inner.toLayout.callDepth_openScope (st.site.step + 1)
      (st.site.calleeKind callee) callee none
    rw [if_pos (st.site.isFrame_calleeKind callee)] at hcount
    rw [if_neg (not_comesBack_of_goesDeeper hdeeper), if_pos hdeeper]
    exact hcount
  | back hback' =>
    rw [if_pos hback', if_neg fun hdeeper => not_comesBack_of_goesDeeper hdeeper hback']
    refine Layout.callDepth_closeCall st.orderedInner.sound.linked.chained ?_
    rw [hinner]
    exact hback hback'
  | returns hnoback hnodeeper hentered hout htop =>
    obtain ⟨top, next, around, hframes, hkind⟩ := htop
    have htop : ¬ top.kind.isFrame := by
      rw [hkind]
      decide
    have hcount : (top :: next :: around).countP (·.kind.isFrame) =
        (next :: around).countP (·.kind.isFrame) := List.countP_cons_of_neg htop
    rw [if_neg hnoback, if_neg hnodeeper]
    show (st.inner.toLayout.closeTop _).callDepth = _
    rw [Layout.callDepth, Layout.callDepth, frames_closeTop hframes, hframes, hcount,
      Nat.add_zero]
  | stays hnoback hnodeeper => rw [if_neg hnoback, if_neg hnodeeper]

/-- There is one open call frame for each level of depth. -/
theorem History.callDepth {src : Sources} {tree : CallTree} {pass : Nat → Pass}
    (hist : History src tree pass) (steady : src.context.trace.Steady) {step : Nat}
    (hstep : step < src.context.trace.length) :
    (pass step).layout.callDepth + src.context.trace.depthAt 0 =
      src.context.trace.depthAt step + 1 := by
  induction step with
  | zero =>
    obtain ⟨root, -, hstart⟩ := hist.start
    have hone : (pass 0).layout.callDepth = 1 := by
      rw [hstart, Pass.layout_start]
      rfl
    omega
  | succ i ih =>
    have hi := Nat.lt_of_succ_lt hstep
    obtain ⟨st⟩ := hist.stage hi
    have hbefore := ih hi
    have hrises := steady.rises i hstep
    have hfalls := steady.falls i hstep
    have hfloor := steady.floor (i + 1) hstep
    have hback := st.isSite.comesBack_iff
    have hdeeper := st.isSite.goesDeeper_iff
    simp only [Trace.ComesBackAt, hstep, true_and] at hback hdeeper
    have hcount := st.callDepth fun h => by
      have := hback.1 h
      omega
    simp only [hback, hdeeper] at hcount
    split_ifs at hcount <;> omega

/-! ### What ends with a step -/

/-- What ends with a step: where the depth falls all that is open in the innermost call frame, and
at a return that stays at its depth the innermost scope, when it is that of a function. -/
inductive Stage.Ends {src : Sources} {i : Nat} {p q : Pass} (st : Stage src i p q)
    (id : ScopeId) : Prop
  | back (hback : st.site.comesBack)
      (hmem : id ∈ (st.inner.frames.take (Layout.callSize st.inner.frames)).map Frame.id)
  | returns (hback : ¬ st.site.comesBack) (hdeeper : ¬ st.site.goesDeeper)
      (hout : st.site.raw.jump = .out) {top next : Frame} {around : List Frame}
      (hframes : st.inner.frames = top :: next :: around) (hkind : top.kind = .internalFunction)
      (hid : top.id = id)

section Ends

variable {src : Sources} {i : Nat} {p q : Pass} {id : ScopeId}

/-- A return enters nothing. -/
theorem Stage.entered_of_out (st : Stage src i p q) (hout : st.site.raw.jump = .out) :
    st.entered = none := by
  cases hentered : st.entered with
  | none => rfl
  | some g =>
    obtain ⟨f, henters, -⟩ := (st.parts.entry g).1 hentered
    exact absurd hout henters.jump

/-- What ends with a step has it as its last step. -/
theorem Stage.Ends.exists_scope {st : Stage src i p q} (h : st.Ends id) :
    ∃ o, q.layout.tree.scopes id = some o ∧ o.lastStep = some i := by
  have hsound := st.orderedInner.sound
  have hstep : st.site.step = i := st.isSite.spec.1
  have hleaves := st.parts.leaves
  show ∃ o, q.scene.tree.scopes id = some o ∧ _
  cases h with
  | back hback hmem =>
    obtain ⟨s, hs, rfl⟩ := List.mem_map.1 hmem
    obtain ⟨o, ho, -⟩ := hsound.linked.framed (List.mem_of_mem_take hs)
    generalize q.scene = c at hleaves
    cases hleaves with
    | deeper hdeeper => exact absurd hback (not_comesBack_of_goesDeeper hdeeper)
    | returns hnoback => exact absurd hback hnoback
    | stays hnoback => exact absurd hback hnoback
    | back =>
      refine ⟨o.closeAt st.site.step, ?_, congrArg some hstep⟩
      show (st.inner.toLayout.close st.site.step _).tree.scopes s.id = _
      rw [scopes_close, if_pos hmem, ho]
      rfl
  | @returns hback hdeeper hout top next around hframes hkind hid =>
    obtain ⟨o, ho, -⟩ := hsound.linked.framedTop hframes
    have hentered := st.entered_of_out hout
    generalize q.scene = c at hleaves
    cases hleaves with
    | deeper hdeeper' => exact absurd hdeeper' hdeeper
    | back hback' => exact absurd hback' hback
    | stays _ _ hreturn =>
      exact absurd hkind (hreturn (by simp [hentered]) hout top next around hframes)
    | returns =>
      refine ⟨o.closeAt st.site.step, ?_, congrArg some hstep⟩
      show (st.inner.toLayout.closeTop _).tree.scopes id = _
      rw [scopes_closeTop hframes, if_pos hid.symm, ho]
      rfl

/-- What has a step as its last step ends with it. -/
theorem Stage.ends_of_scope (st : Stage src i p q) {o : Outline}
    (ho : q.layout.tree.scopes id = some o) (hl : o.lastStep = some i) : st.Ends id := by
  have hleaves := st.parts.leaves
  -- Nothing had ended with the step before it leaves.
  have hold : st.inner.tree.scopes id ≠ some o := by
    intro hno
    exact absurd (st.orderedInner.sound.nested.ended hno hl).2 (lt_irrefl i)
  replace ho : q.scene.tree.scopes id = some o := ho
  generalize q.scene = c at hleaves ho
  cases hleaves with
  | deeper =>
    rcases of_openScope ho with ⟨-, rfl⟩ | ⟨-, ho⟩
    · cases hl
    · exact absurd ho hold
  | stays => exact absurd ho hold
  | returns hnoback hnodeeper hentered hout htop =>
    obtain ⟨top, next, around, hframes, hkind⟩ := htop
    rcases of_closeTop hframes ho with ⟨hid, -⟩ | ⟨-, ho⟩
    · exact .returns hnoback hnodeeper hout hframes hkind hid.symm
    · exact absurd ho hold
  | back hback =>
    refine .back hback ?_
    by_contra hno
    replace ho : (st.inner.toLayout.close st.site.step
      (Layout.callSize st.inner.frames)).tree.scopes id = some o := ho
    rw [scopes_close, if_neg hno] at ho
    exact hold ho

/-- A call frame ends with a step only when the next one runs less deep, and then all that ends with
the step lies below all call frames that were open before it. -/
theorem Stage.ended (st : Stage src i p q) {o : Outline}
    (ho : q.layout.tree.scopes id = some o) (hl : o.lastStep = some i) :
    (o.kind.isFrame → st.site.comesBack) ∧
      (st.site.comesBack → ∀ s ∈ p.layout.frames, s.kind.isFrame → s.id.contains id) := by
  cases st.ends_of_scope ho hl with
  | back hback hmem =>
    refine ⟨fun _ => hback, fun _ s hs hframe => ?_⟩
    obtain ⟨r, hr, hid, hkind, -⟩ := Ordered.exists_mem_opensBody hs st.parts.builds
    obtain ⟨r', hr', hid', hkind', -⟩ := Ordered.exists_mem_opensBody hr st.parts.enters
    rw [← hid, ← hid']
    exact st.orderedInner.sound.linked.chained.contains_of_mem_take hr'
      (by rw [hkind', hkind]; exact hframe) hmem
  | @returns hnoback hnodeeper hout top next around hframes hkind hid =>
    refine ⟨fun hframe => ?_, fun hback => absurd hback hnoback⟩
    obtain ⟨s, hs, -⟩ := st.orderedInner.sound.linked.framedTop hframes
    obtain ⟨o', ho', -, hsame, -⟩ :=
      (grows_leaves st.orderedInner st.isSite st.parts.leaves).exists_kept hs
    replace ho' : q.layout.tree.scopes top.id = some o' := ho'
    rw [hid, ho] at ho'
    cases ho'
    rw [hsame, st.orderedInner.framed.kind (by simp [hframes]) hs, hkind] at hframe
    cases hframe

end Ends

/-- A scope that ends before the last step has ended when its last step is over. -/
theorem History.scopes_of_ended {src : Sources} {tree : CallTree} {pass : Nat → Pass}
    (hist : History src tree pass) (wf : tree.WellFormed) {id : ScopeId} {c : Scope} {l : Nat}
    (hc : tree.scope? id = some c) (hl : c.lastStep = some l)
    (hlt : l + 1 < src.context.trace.length) :
    (pass (l + 1)).layout.tree.scopes id = some c.outline := by
  have hgrows := hist.grows_tree hlt
  have ho := CallTree.outline_of_scope? rfl hc
  have hfirst : c.firstStep ≤ l := (wf.ends_inside hc hl).1
  show (pass (l + 1)).tree.skeleton.scopes id = _
  cases hk : (pass (l + 1)).tree.skeleton.scopes id with
  | none =>
    have hstart : l + 1 ≤ c.firstStep := (hgrows.fresh hk ho).1
    omega
  | some o =>
    rcases hgrows.kept hk with hsame | ⟨-, m, hm, hsame⟩
    · rw [ho] at hsame
      exact hsame.symm
    · rw [ho] at hsame
      have hlast : c.lastStep = some m := congrArg Outline.lastStep (Option.some.inj hsame)
      rw [hl] at hlast
      cases hlast
      omega

/-- What ends with a step before the last one: a call frame only when the depth falls there, and
where it falls, only what lies below all call frames around the step. -/
theorem History.ended {src : Sources} {tree : CallTree} {pass : Nat → Pass}
    (hist : History src tree pass) (wf : tree.WellFormed) {id : ScopeId} {c : Scope} {l : Nat}
    (hc : tree.scope? id = some c) (hl : c.lastStep = some l)
    (hlt : l + 1 < src.context.trace.length) :
    (c.kind.isFrame → src.context.trace.ComesBackAt l) ∧
      (src.context.trace.ComesBackAt l → ∀ a s, tree.scope? a = some s → s.kind.isFrame →
        s.contains l → a.contains id) := by
  obtain ⟨st⟩ := hist.stage (Nat.lt_of_succ_lt hlt)
  obtain ⟨hframe, hbelow⟩ := st.ended (hist.scopes_of_ended wf hc hl hlt) hl
  rw [st.isSite.comesBack_iff] at hframe hbelow
  refine ⟨hframe, fun hback a s hs hkind hcontains => ?_⟩
  obtain ⟨r, hr, rfl, hsame, -⟩ :=
    hist.mem_frames (Nat.lt_of_succ_lt hlt) hs ⟨hcontains, .inl hkind⟩
  exact hbelow hback r hr (hsame ▸ hkind)

/-! ### The finished tree -/

section Finished

variable {src : Sources} {tree : CallTree} {pass : Nat → Pass} {step : Nat}

theorem nodup_ids (wf : tree.WellFormed) : (tree.allScopes.map (·.id)).Nodup := by
  have hids : tree.allScopes.map (·.id) = tree.scopes.entries.map (·.1) := by
    rw [CallTree.allScopes, SortedMap.values, List.map_map]
    refine List.map_congr_left fun e he => ?_
    exact wf.keyed (SortedMap.find?_eq_some_iff.2 he)
  rw [hids, List.Nodup, List.pairwise_map]
  refine tree.scopes.ascending.imp ?_
  intro a b hlt heq
  simp [heq] at hlt

theorem mem_allScopes (wf : tree.WellFormed) {c : Scope} :
    c ∈ tree.allScopes ↔ tree.scope? c.id = some c := by
  rw [CallTree.allScopes, SortedMap.mem_values_iff]
  constructor
  · rintro ⟨id, hid⟩
    rw [wf.keyed hid]
    exact hid
  · intro h
    exact ⟨c.id, h⟩

/-- The call frames around a step are those that are open before it. -/
theorem History.callDepth_eq (hist : History src tree pass) (wf : tree.WellFormed)
    (hstep : step < src.context.trace.length) :
    tree.callDepth step = (pass step).layout.callDepth := by
  have hchain := (hist.ordered hstep.le).sound.linked.chained
  rw [CallTree.callDepth, Layout.callDepth, List.countP_eq_length_filter,
    List.countP_eq_length_filter, ← List.length_map Scope.id, ← List.length_map Frame.id]
  refine ((List.perm_ext_iff_of_nodup ?_ ?_).2 ?_).length_eq
  · exact (nodup_ids wf).sublist (List.filter_sublist.map _)
  · exact hchain.nodup.sublist (List.filter_sublist.map _)
  · intro id
    simp only [List.mem_map, List.mem_filter, Bool.and_eq_true, mem_allScopes wf]
    constructor
    · rintro ⟨c, ⟨hc, hframe, hcontains⟩, rfl⟩
      obtain ⟨s, hs, hid, hkind, -⟩ := hist.mem_frames hstep hc ⟨hcontains, .inl hframe⟩
      exact ⟨s, ⟨hs, hkind ▸ hframe⟩, hid⟩
    · rintro ⟨s, ⟨hs, hframe⟩, rfl⟩
      obtain ⟨c, hc, hopen, hid, hkind, -⟩ := hist.frame hstep hs
      exact ⟨c, ⟨hc, hkind.symm ▸ hframe, hopen.1⟩, hid⟩

/-- The call frames around a step are those around its innermost call frame. -/
theorem callDepth_of_innermostFrame (wf : tree.WellFormed) {c : Scope}
    (h : tree.InnermostFrame step c) : tree.callDepth step =
      tree.allScopes.countP fun s => s.kind.isFrame && s.id.contains c.id := by
  refine List.countP_congr ?_
  intro s hs
  rw [mem_allScopes wf] at hs
  simp only [Bool.and_eq_true]
  refine and_congr_right fun hframe => ⟨fun hcontains => h.deepest hs hframe hcontains, ?_⟩
  intro hcontains
  exact wf.contains_of_contains hs h.found hcontains h.covers

/-- In a trace whose depth changes by at most one from step to step and never falls below the first,
the number of call frames around a step is the depth of the step above the first, and one. Steps
with the same innermost call frame run at the same depth. -/
theorem build_callDepth (src : Sources) (tree : CallTree) (h : src.build = .ready tree)
    (steady : src.context.trace.Steady) :
    (∀ step, step < src.context.trace.length → tree.callDepth step =
      src.context.trace.depthAt step - src.context.trace.depthAt 0 + 1) ∧
    ∀ c s u, s < src.context.trace.length → u < src.context.trace.length →
      tree.InnermostFrame s c → tree.InnermostFrame u c →
        src.context.trace.depthAt s = src.context.trace.depthAt u := by
  obtain ⟨pass, hist⟩ := exists_history h
  obtain ⟨wf, -, -⟩ := wellFormed_of_build h
  have hcount : ∀ step, step < src.context.trace.length → tree.callDepth step =
      src.context.trace.depthAt step - src.context.trace.depthAt 0 + 1 := by
    intro step hstep
    have hdepth := hist.callDepth steady hstep
    have hfloor := steady.floor step hstep
    rw [hist.callDepth_eq wf hstep]
    omega
  refine ⟨hcount, ?_⟩
  intro c s u hs hu hcs hcu
  have hsame := (callDepth_of_innermostFrame wf hcs).trans (callDepth_of_innermostFrame wf hcu).symm
  rw [hcount s hs, hcount u hu] at hsame
  have hfloor := steady.floor s hs
  have hfloor' := steady.floor u hu
  omega

end Finished

/-! ### A run with a call inside a function -/

instance (t : Trace) : Decidable t.Steady :=
  decidable_of_iff ((∀ i < t.length, i + 1 < t.length → t.depthAt (i + 1) ≤ t.depthAt i + 1 ∧
      t.depthAt i ≤ t.depthAt (i + 1) + 1) ∧ ∀ i < t.length, t.depthAt 0 ≤ t.depthAt i) <| by
    constructor
    · rintro ⟨hnear, hfloor⟩
      exact ⟨fun i hi => (hnear i (Nat.lt_of_succ_lt hi) hi).1,
        fun i hi => (hnear i (Nat.lt_of_succ_lt hi) hi).2, hfloor⟩
    · intro h
      exact ⟨fun i _ hi => ⟨h.rises i hi, h.falls i hi⟩, h.floor⟩

theorem isReady_call : callSources.build.isReady := by decide +kernel

theorem build_callDepth_call : ∃ tree, callSources.build = .ready tree ∧
    callSources.context.trace.Steady ∧ tree.callDepth 1 = 1 ∧ tree.callDepth 4 = 2 ∧
      tree.callDepth 5 = 1 := by
  obtain ⟨tree, h⟩ := Outcome.exists_of_isReady isReady_call
  have steady : callSources.context.trace.Steady := by decide
  have hcount := (build_callDepth callSources tree h steady).1
  exact ⟨tree, h, steady, hcount 1 (by decide), hcount 4 (by decide), hcount 5 (by decide)⟩

end Build

end TraceTree
