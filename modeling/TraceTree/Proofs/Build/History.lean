import TraceTree.Proofs.Build.Stage

/-!
The passes of a reconstruction, one before each step, and what the finished tree keeps of each. A
tree only grows: scopes stay as they are up to their end, and none comes into being or ends in the
past (`Skeleton.Grows`). Main statements: a reconstruction has a history (`exists_history`), and the
scopes that are open before a step are those of the finished tree that say so (`History.frame`,
`History.mem_frames`).
-/
namespace TraceTree

/-- Up to the end that it gets an open scope takes the steps that it took. -/
theorem Outline.contains_closeAt {o : Outline} {step l : Nat} (hopen : o.lastStep = none)
    (hle : step ≤ l) : (o.closeAt l).contains step = o.contains step := by
  show (decide (o.firstStep ≤ step) && decide (step ≤ l)) = _
  simp [contains, hopen, hle]

/-! ### Growing trees -/

/-- What later trees keep of a tree: scopes stay, but those that are open may end, at `gone` or
later. Scopes that come new start at `now` or later, and call frames after `now`. -/
structure Skeleton.Grows (now gone : Nat) (k k' : Skeleton) : Prop where
  kept : ∀ {id o}, k.scopes id = some o → k'.scopes id = some o ∨
    o.lastStep = none ∧ ∃ l, gone ≤ l ∧ k'.scopes id = some (o.closeAt l)
  fresh : ∀ {id o}, k.scopes id = none → k'.scopes id = some o →
    now ≤ o.firstStep ∧ (o.kind.isFrame → now < o.firstStep)
  activations : ∀ {id}, (k.scopes id).isSome → k'.activations.find? id = k.activations.find? id

namespace Skeleton.Grows

variable {now gone m n : Nat} {k k' k'' : Skeleton} {id : ScopeId} {o o' : Outline}

theorem refl (k : Skeleton) : Grows now gone k k where
  kept ho := .inl ho
  fresh hnone ho := by
    rw [hnone] at ho
    cases ho
  activations _ := rfl

theorem mono (h : Grows now gone k k') (hnow : m ≤ now) (hgone : n ≤ gone) : Grows m n k k' where
  kept ho := by
    rcases h.kept ho with h | ⟨hopen, l, hl, h⟩
    · exact .inl h
    · exact .inr ⟨hopen, l, hgone.trans hl, h⟩
  fresh hnone ho :=
    ⟨hnow.trans (h.fresh hnone ho).1, fun hframe => hnow.trans_lt ((h.fresh hnone ho).2 hframe)⟩
  activations := h.activations

/-- A scope that was there has the same id, kind, code and first step, and its end if it had one. -/
theorem exists_kept (h : Grows now gone k k') (ho : k.scopes id = some o) :
    ∃ o', k'.scopes id = some o' ∧ o'.id = o.id ∧ o'.kind = o.kind ∧ o'.code = o.code ∧
      o'.firstStep = o.firstStep ∧
      (o' = o ∨ o.lastStep = none ∧ ∃ l, gone ≤ l ∧ o'.lastStep = some l) := by
  rcases h.kept ho with h | ⟨hopen, l, hl, h⟩
  · exact ⟨o, h, rfl, rfl, rfl, rfl, .inl rfl⟩
  · exact ⟨_, h, rfl, rfl, rfl, rfl, .inr ⟨hopen, l, hl, rfl⟩⟩

theorem ended (h : Grows now gone k k') (ho : k.scopes id = some o) {l : Nat}
    (hl : o.lastStep = some l) : k'.scopes id = some o := by
  rcases h.kept ho with h | ⟨hopen, -⟩
  · exact h
  · rw [hl] at hopen
    cases hopen

theorem isSome (h : Grows now gone k k') (hk : (k.scopes id).isSome) : (k'.scopes id).isSome := by
  obtain ⟨o, ho⟩ := Option.isSome_iff_exists.1 hk
  obtain ⟨o', ho', -⟩ := h.exists_kept ho
  rw [ho']
  rfl

theorem trans (h : Grows now gone k k') (h' : Grows now gone k' k'') : Grows now gone k k'' where
  kept ho := by
    rcases h.kept ho with hk | ⟨hopen, l, hl, hk⟩
    · exact h'.kept hk
    · rcases h'.kept hk with hk' | ⟨hopen', -⟩
      · exact .inr ⟨hopen, l, hl, hk'⟩
      · cases hopen'
  fresh {id o} hnone ho := by
    cases hk : k'.scopes id with
    | none => exact h'.fresh hk ho
    | some s =>
      obtain ⟨o', ho', -, hkind, -, hfirst, -⟩ := h'.exists_kept hk
      rw [ho] at ho'
      cases ho'
      rw [hkind, hfirst]
      exact h.fresh hnone hk
  activations hk := (h'.activations (h.isSome hk)).trans (h.activations hk)

/-- Up to the point where open scopes may end, the steps of a scope stay the same. -/
theorem contains_eq (h : Grows now gone k k') (ho : k.scopes id = some o)
    (ho' : k'.scopes id = some o') {step : Nat} (hstep : step ≤ gone) :
    o'.contains step = o.contains step := by
  rcases h.kept ho with hk | ⟨hopen, l, hl, hk⟩
  · rw [hk] at ho'
    cases ho'
    rfl
  · rw [hk] at ho'
    cases ho'
    exact Outline.contains_closeAt hopen (hstep.trans hl)

end Skeleton.Grows

/-! ### Scopes that are open before a step -/

/-- The scope is open before anything happens at the step: it takes the step, and if it is the body
of a function it started before. -/
def Outline.OpenBefore (o : Outline) (step : Nat) : Prop :=
  o.contains step ∧ (o.kind.isFrame ∨ o.firstStep < step)

/-- The scope is open before anything happens at the step. -/
def Scope.OpenBefore (s : Scope) (step : Nat) : Prop :=
  s.contains step ∧ (s.kind.isFrame ∨ s.firstStep < step)

theorem Outline.openBefore_of_grows {now gone step : Nat} {k k' : Skeleton}
    (h : k.Grows now gone k') {id : ScopeId} {o o' : Outline} (ho : k.scopes id = some o)
    (ho' : k'.scopes id = some o') (hstep : step ≤ gone) :
    o'.OpenBefore step ↔ o.OpenBefore step := by
  obtain ⟨r, hr, -, hkind, -, hfirst, -⟩ := h.exists_kept ho
  rw [ho'] at hr
  cases hr
  rw [OpenBefore, OpenBefore, h.contains_eq ho ho' hstep, hkind, hfirst]

/-- A scope that is open before a step was there before it. -/
theorem Outline.OpenBefore.isSome {now gone step : Nat} {k k' : Skeleton}
    (h : k.Grows now gone k') (hstep : step ≤ now) {id : ScopeId} {o' : Outline}
    (ho' : k'.scopes id = some o') (hopen : o'.OpenBefore step) : (k.scopes id).isSome := by
  cases hk : k.scopes id with
  | some o => rfl
  | none =>
    obtain ⟨hfirst, hframe⟩ := h.fresh hk ho'
    obtain ⟨hcontains, hkind⟩ := hopen
    simp only [contains, Bool.and_eq_true, decide_eq_true_eq] at hcontains
    have hle := hcontains.1
    rcases hkind with hkind | hlt
    · have := hframe hkind
      omega
    · omega

namespace Build

open CallTree (IsBody)

/-! ### How a step grows a tree -/

section Steps

variable {src : Sources} {site : Site} {c c' : Scene} {k : Layout} {i n now gone x : Nat}

theorem grows_openScope {kind : ScopeKind} {code : CodeAddress} {function : Option Nat}
    (hfresh : k.tree.scopes k.nextId = none) (hnow : now ≤ x) (hframe : kind.isFrame → now < x) :
    k.tree.Grows now gone (k.openScope x kind code function).tree where
  kept ho := .inl (scopes_openScope_of_some hfresh ho)
  fresh hnone ho := by
    rcases of_openScope ho with ⟨-, rfl⟩ | ⟨-, ho⟩
    · exact ⟨hnow, hframe⟩
    · rw [hnone] at ho
      cases ho
  activations _ := rfl

theorem grows_close (link : Linked k) (hgone : gone ≤ x) (n : Nat) :
    k.tree.Grows now gone (k.close x n).tree := by
  refine (close_induction (P := fun k' => Linked k' ∧ k.tree.Grows now gone k'.tree) ?_
    ⟨link, .refl _⟩ n).2
  rintro k' top around hframes ⟨link, hgrows⟩
  refine ⟨link.closeTop hframes, hgrows.trans ⟨?_, ?_, ?_⟩⟩
  · intro id o ho
    by_cases hid : id = top.id
    · subst hid
      obtain ⟨s, hs, hopen⟩ := link.framedTop hframes
      rw [ho] at hs
      cases hs
      exact .inr ⟨hopen, x, hgone, by rw [scopes_closeTop hframes, if_pos rfl, ho]; rfl⟩
    · exact .inl (by rw [scopes_closeTop hframes, if_neg hid, ho])
  · intro id o hnone ho
    obtain ⟨s, hs, -⟩ := exists_of_closeTop hframes ho
    rw [hnone] at hs
    cases hs
  · intro id _
    rw [Activated.activations_closeTop]

theorem grows_opensBody {kind : ScopeKind} {f : Option FunctionDefinition}
    (h : Ordered src i n c.toLayout) (hsite : src.IsSite i site) (hkind : IsBody kind)
    (hopens : c.OpensBody site kind f c') : c.tree.Grows i i c'.tree := by
  cases hopens with
  | none => exact .refl _
  | @some f a hfunction hscope hentry hconstructor =>
    obtain ⟨top, around, hframes⟩ := h.exists_frames
    have hfresh := h.sound.numbered.fresh hframes
    obtain ⟨rfl, -⟩ := hsite.spec
    have hgrows : c.tree.Grows site.step site.step
        (c.toLayout.openScope site.step kind site.code (some f.id)).tree :=
      grows_openScope hfresh (le_refl _) fun hframe =>
        absurd hframe (not_isFrame_of_isBody hkind)
    refine ⟨hgrows.kept, hgrows.fresh, ?_⟩
    intro id hid
    show (c.tree.activations.insert a.scope a).find? id = _
    rw [SortedMap.find?_insert, if_neg]
    rintro rfl
    rw [hscope, hfresh] at hid
    cases hid

theorem grows_leaves {entered : Bool} (h : Ordered src i n c.toLayout) (hsite : src.IsSite i site)
    (hleaves : c.Leaves src site entered c') : c.tree.Grows i i c'.tree := by
  obtain ⟨top, around, hframes⟩ := h.exists_frames
  obtain ⟨rfl, -⟩ := hsite.spec
  cases hleaves with
  | deeper hdeeper hcode =>
    exact grows_openScope (h.sound.numbered.fresh hframes) (Nat.le_succ _)
      fun _ => Nat.lt_succ_self _
  | back hback => exact grows_close h.sound.linked (le_refl _) _
  | returns => exact grows_close h.sound.linked (le_refl _) 1
  | stays => exact .refl _

theorem Stage.grows {p q : Pass} (st : Stage src i p q) :
    p.tree.skeleton.Grows i i q.tree.skeleton := by
  have hbuilt := grows_opensBody st.ordered.next st.isSite (.inr rfl) st.parts.builds
  have hentered := grows_opensBody st.orderedInside st.isSite (.inl rfl) st.parts.enters
  exact (hbuilt.trans hentered).trans (grows_leaves st.orderedInner st.isSite st.parts.leaves)

end Steps

/-- Before a step exactly the scopes that have not ended are open. -/
theorem Ordered.openBefore_iff {id : ScopeId} {o : Outline} (h : Ordered src i i k)
    (ho : k.tree.scopes id = some o) : o.OpenBefore i ↔ o.lastStep = none := by
  constructor
  · rintro ⟨hcontains, -⟩
    cases hl : o.lastStep with
    | none => rfl
    | some l =>
      have hlt := (h.sound.nested.ended ho hl).2
      simp only [Outline.contains, hl, Option.all_some, Bool.and_eq_true, decide_eq_true_eq]
        at hcontains
      omega
  · intro hopen
    have hfirst := (h.sound.nested.early ho).1
    refine ⟨by simp [Outline.contains, hopen, hfirst], ?_⟩
    by_cases hframe : o.kind.isFrame
    · exact .inl hframe
    · exact .inr (h.framed.begun ho hframe)

/-! ### Histories -/

/-- The passes of a reconstruction: the one with number `i` stands before the step `i`, and the last
one after all steps. -/
structure History (src : Sources) (tree : CallTree) (pass : Nat → Pass) : Prop where
  start : ∃ root, src.codeAt 0 = .ok root ∧ pass 0 = .start root src.context.trace.length
  nonempty : src.context.trace.steps ≠ []
  stage : ∀ {i}, i < src.context.trace.length → Nonempty (Stage src i (pass i) (pass (i + 1)))
  finish : (pass src.context.trace.length).close = tree

/-- Up to the step `i` there are the passes of a history, and `p` is the last of them. -/
def Reaches (src : Sources) (i : Nat) (p : Pass) : Prop :=
  Ordered src i i p.layout ∧ ∃ pass : Nat → Pass,
    (∃ root, src.codeAt 0 = .ok root ∧ pass 0 = .start root src.context.trace.length) ∧
      pass i = p ∧ ∀ j < i, Nonempty (Stage src j (pass j) (pass (j + 1)))

theorem reaches_start {src : Sources} {root : CodeAddress} (hne : src.context.trace.steps ≠ [])
    (hroot : src.codeAt 0 = .ok root) :
    Reaches src 0 (.start root src.context.trace.length) :=
  ⟨ordered_start hne hroot, fun _ => .start root _, ⟨root, hroot, rfl⟩, rfl,
    fun j hj => absurd hj (Nat.not_lt_zero j)⟩

theorem reaches_step {src : Sources} {i : Nat} {site : Site} {p q : Pass}
    (hsite : src.IsSite i site) (hp : Reaches src i p) (hstep : p.step src site = .ok q) :
    Reaches src (i + 1) q := by
  obtain ⟨hordered, pass, hstart, rfl, hstage⟩ := hp
  obtain ⟨st⟩ := exists_stage hsite hordered hstep
  have hold : ∀ j ≤ i, Function.update pass (i + 1) q j = pass j :=
    fun j hj => Function.update_of_ne (by omega) _ _
  refine ⟨st.orderedAfter, Function.update pass (i + 1) q, ?_, Function.update_self _ _ _, ?_⟩
  · rw [hold 0 (Nat.zero_le i)]
    exact hstart
  · intro j hj
    rcases Nat.lt_succ_iff_lt_or_eq.1 hj with hlt | rfl
    · rw [hold j hlt.le, hold (j + 1) hlt]
      exact hstage j hlt
    · rw [hold j (le_refl j), Function.update_self]
      exact ⟨st⟩

theorem exists_history {src : Sources} {tree : CallTree} (h : src.build = .ready tree) :
    ∃ pass, History src tree pass := by
  obtain ⟨q, ⟨-, pass, hstart, rfl, hstage⟩, hclose⟩ :=
    build_induction h reaches_start reaches_step
  exact ⟨pass, hstart, (build_eq_ready h).1, fun hi => hstage _ hi, hclose⟩

namespace History

variable {src : Sources} {tree : CallTree} {pass : Nat → Pass} {i j step : Nat}

theorem ordered (hist : History src tree pass) (hi : i ≤ src.context.trace.length) :
    Ordered src i i (pass i).layout := by
  cases i with
  | zero =>
    obtain ⟨root, hroot, hstart⟩ := hist.start
    rw [hstart]
    exact ordered_start hist.nonempty hroot
  | succ i =>
    obtain ⟨st⟩ := hist.stage hi
    exact st.orderedAfter

theorem grows (hist : History src tree pass) (hij : i ≤ j) (hj : j ≤ src.context.trace.length) :
    (pass i).tree.skeleton.Grows i i (pass j).tree.skeleton := by
  induction j, hij using Nat.le_induction with
  | base => exact .refl _
  | succ j hij ih =>
    obtain ⟨st⟩ := hist.stage hj
    exact (ih (Nat.le_of_succ_le hj)).trans (st.grows.mono hij hij)

/-- All that the end of the trace does to the tree is to close scopes. -/
theorem grows_finish (hist : History src tree pass) (now : Nat) :
    (pass src.context.trace.length).tree.skeleton.Grows now (src.context.trace.length - 1)
      tree.skeleton := by
  have hlast := hist.ordered (le_refl _)
  have hcount : (pass src.context.trace.length).tree.stepCount = src.context.trace.length :=
    hlast.sound.stepCount
  have htree := (pass src.context.trace.length).layout_finish.2
  rw [hist.finish, hcount] at htree
  rw [← htree]
  exact grows_close hlast.sound.linked (le_refl _) _

theorem grows_tree (hist : History src tree pass) (hstep : step < src.context.trace.length) :
    (pass step).tree.skeleton.Grows step step tree.skeleton :=
  (hist.grows hstep.le (le_refl _)).trans
    ((hist.grows_finish step).mono (le_refl _) (Nat.le_sub_one_of_lt hstep))

/-- What is open after a step may end with it, when it is the last one. -/
theorem grows_after (hist : History src tree pass) (hstep : step < src.context.trace.length) :
    (pass (step + 1)).tree.skeleton.Grows (step + 1) step tree.skeleton :=
  ((hist.grows hstep (le_refl _)).mono (le_refl _) (Nat.le_succ step)).trans
    ((hist.grows_finish (step + 1)).mono (le_refl _) (Nat.le_sub_one_of_lt hstep))

/-- An open scope of a pass is one of the finished tree, of that kind and with that function. -/
theorem frame (hist : History src tree pass) (hstep : step < src.context.trace.length) {s : Frame}
    (hs : s ∈ (pass step).layout.frames) :
    ∃ c, tree.scope? c.id = some c ∧ c.OpenBefore step ∧ c.id = s.id ∧ c.kind = s.kind ∧
      (tree.activation? c.id).map (·.functionId) = s.function := by
  have hordered := hist.ordered hstep.le
  have hgrows := hist.grows_tree hstep
  obtain ⟨o, ho, hopen⟩ := hordered.sound.linked.framed hs
  obtain ⟨o', ho', hid, hkind, -⟩ := hgrows.exists_kept ho
  obtain ⟨c, hc, rfl⟩ := CallTree.exists_scope?_of_outline rfl ho'
  have hkey : c.id = s.id := hid.trans (hordered.sound.numbered.keyed ho)
  rw [← hkey] at hc
  refine ⟨c, hc, ?_, hkey, hkind.trans (hordered.framed.kind hs ho), ?_⟩
  · exact (Outline.openBefore_of_grows hgrows ho ho' (le_refl step)).2
      ((hordered.openBefore_iff ho).2 hopen)
  · rw [← hordered.framed.function hs, hkey]
    exact congrArg _ (hgrows.activations (Option.isSome_iff_exists.2 ⟨o, ho⟩))

/-- A scope of the finished tree that is open before a step is open in the pass there. -/
theorem mem_frames (hist : History src tree pass) (hstep : step < src.context.trace.length)
    {id : ScopeId} {c : Scope} (hc : tree.scope? id = some c) (hopen : c.OpenBefore step) :
    ∃ s ∈ (pass step).layout.frames, s.id = id ∧ s.kind = c.kind ∧
      s.function = (tree.activation? id).map (·.functionId) := by
  have hordered := hist.ordered hstep.le
  have hgrows := hist.grows_tree hstep
  have ho' := CallTree.outline_of_scope? rfl hc
  obtain ⟨o, ho⟩ := Option.isSome_iff_exists.1
    (Outline.OpenBefore.isSome hgrows (le_refl step) ho' hopen)
  have hnone := (hordered.openBefore_iff ho).1
    ((Outline.openBefore_of_grows hgrows ho ho' (le_refl step)).1 hopen)
  obtain ⟨s, hs, rfl⟩ := hordered.sound.linked.opened ho hnone
  obtain ⟨d, hd, -, hid, hkind, hfunction⟩ := hist.frame hstep hs
  rw [hid, hc] at hd
  cases hd
  rw [hid] at hfunction
  exact ⟨s, hs, rfl, hkind.symm, hfunction.symm⟩

end History

end Build

end TraceTree
