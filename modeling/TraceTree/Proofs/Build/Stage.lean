import TraceTree.Proofs.Build.Scene
import TraceTree.Proofs.Build.WellFormed

/-!
One step of a pass with all that is known of it. The frames tell the kinds and the functions of the
open scopes (`Framed`), which with the order of the scopes holds before every step and in the midst
of it (`Ordered`). Main statement: before every step the scopes are in order with their frames, and
the step goes through its parts (`exists_stage`).
-/
namespace TraceTree.Build

open CallTree (IsBody)

theorem not_isFrame_of_isBody {kind : ScopeKind} (h : IsBody kind) : ¬ kind.isFrame := by
  rcases h with rfl | rfl <;> decide

theorem ne_root_of_isBody {kind : ScopeKind} (h : IsBody kind) : kind ≠ .root := by
  rcases h with rfl | rfl <;> decide

/-! ### Frames and their scopes -/

/-- The frames tell the kinds and the functions of the open scopes, and bodies of functions start
before the step `n`. -/
structure Framed (n : Nat) (k : Layout) : Prop where
  kind : ∀ {s o}, s ∈ k.frames → k.tree.scopes s.id = some o → o.kind = s.kind
  function : ∀ {s}, s ∈ k.frames →
    (k.tree.activations.find? s.id).map (·.functionId) = s.function
  begun : ∀ {id o}, k.tree.scopes id = some o → ¬ o.kind.isFrame → o.firstStep < n

namespace Framed

variable {src : Sources} {k : Layout} {top : Frame} {around : List Frame} {kind : ScopeKind}
  {code : CodeAddress} {now gone n x : Nat}

theorem mono {m : Nat} (h : Framed n k) (hle : n ≤ m) : Framed m k :=
  ⟨h.kind, h.function, fun ho hbody => (h.begun ho hbody).trans_le hle⟩

theorem start (root : CodeAddress) (steps : Nat) : Framed 0 (.start root steps) where
  kind hs ho := by
    rw [(of_start ho).2, List.mem_singleton.1 hs]
  function hs := by
    rw [List.mem_singleton.1 hs]
    rfl
  begun ho hbody := by
    rw [(of_start ho).2] at hbody
    exact absurd rfl hbody

/-- A frame after a scope has opened is the new one, or tells what one told before. -/
theorem of_mem_openScope {function : Option Nat} {s : Frame}
    (hs : s ∈ (k.openScope x kind code function).frames) :
    s = { id := k.nextId, kind, function } ∨
      ∃ r ∈ k.frames, r.id = s.id ∧ r.kind = s.kind ∧ r.function = s.function := by
  rw [Layout.openScope] at hs
  rcases List.mem_cons.1 hs with rfl | hs
  · exact .inl rfl
  · cases hframes : k.frames with
    | nil => simp [hframes, Layout.countChild] at hs
    | cons top around =>
      rw [hframes, Layout.countChild, List.mem_cons] at hs
      rcases hs with rfl | hs
      · exact .inr ⟨top, by simp, rfl, rfl, rfl⟩
      · exact .inr ⟨s, by simp [hs], rfl, rfl, rfl⟩

theorem ne_nextId (hsound : Sound src now gone k) {s : Frame} (hs : s ∈ k.frames) :
    s.id ≠ k.nextId := by
  obtain ⟨top, around, hframes⟩ := List.exists_cons_of_ne_nil (List.ne_nil_of_mem hs)
  obtain ⟨o, ho, -⟩ := hsound.linked.framed hs
  intro hid
  rw [hid, hsound.numbered.fresh hframes] at ho
  cases ho

theorem openScope_kind (h : Framed n k) (hsound : Sound src now gone k) {function : Option Nat}
    {s : Frame} {o : Outline} (hs : s ∈ (k.openScope x kind code function).frames)
    (ho : (k.openScope x kind code function).tree.scopes s.id = some o) : o.kind = s.kind := by
  rcases of_mem_openScope hs with rfl | ⟨r, hr, hid, hkind, -⟩
  · rw [scopes_openScope, if_pos rfl] at ho
    cases ho
    rfl
  · rw [← hid, scopes_openScope, if_neg (ne_nextId hsound hr)] at ho
    rw [← hkind]
    exact h.kind hr ho

/-- A call frame opens without a function. -/
theorem openFrame (h : Framed n k) (hsound : Sound src now gone k) (act : Activated k)
    (hframes : k.frames = top :: around) (hkind : kind.isFrame) :
    Framed n (k.openScope x kind code none) where
  kind := h.openScope_kind hsound
  function {s} hs := by
    show (k.tree.activations.find? s.id).map (·.functionId) = s.function
    rcases of_mem_openScope hs with rfl | ⟨r, hr, hid, -, hfunction⟩
    · rw [act.fresh hsound.numbered hframes]
      rfl
    · rw [← hid, ← hfunction]
      exact h.function hr
  begun ho hbody := by
    rcases of_openScope ho with ⟨-, rfl⟩ | ⟨-, ho⟩
    · exact absurd hkind hbody
    · exact h.begun ho hbody

/-- A function opens with its activation. -/
theorem openBody (h : Framed n k) (hsound : Sound src now gone k) (hx : x < n)
    {a : FunctionActivation} {f : Nat} (hscope : a.scope = k.nextId) (hfunction : a.functionId = f) :
    Framed n ((k.openScope x kind code (some f)).addActivation a) where
  kind := h.openScope_kind hsound
  function {s} hs := by
    show ((k.tree.activations.insert a.scope a).find? s.id).map (·.functionId) = s.function
    rw [SortedMap.find?_insert, hscope]
    replace hs : s ∈ (k.openScope x kind code (some f)).frames := hs
    rcases of_mem_openScope hs with rfl | ⟨r, hr, hid, -, hsame⟩
    · rw [if_pos rfl, ← hfunction]
      rfl
    · rw [← hid, ← hsame, if_neg (ne_nextId hsound hr)]
      exact h.function hr
  begun {id o} ho hbody := by
    replace ho : (k.openScope x kind code (some f)).tree.scopes id = some o := ho
    rcases of_openScope ho with ⟨-, rfl⟩ | ⟨-, ho⟩
    · exact hx
    · exact h.begun ho hbody

theorem closeTop (h : Framed n k) (hframes : k.frames = top :: around) :
    Framed n (k.closeTop x) where
  kind {s o} hs ho := by
    rw [frames_closeTop hframes] at hs
    obtain ⟨r, hr, -, hkind, -⟩ := exists_of_closeTop hframes ho
    rw [← hkind]
    exact h.kind (by simp [hframes, hs]) hr
  function {s} hs := by
    rw [frames_closeTop hframes] at hs
    rw [Activated.activations_closeTop]
    exact h.function (by simp [hframes, hs])
  begun ho hbody := by
    obtain ⟨r, hr, -, hkind, -, hfirst⟩ := exists_of_closeTop hframes ho
    rw [← hfirst]
    exact h.begun hr (hkind.symm ▸ hbody)

end Framed

/-! ### Scopes in order with their frames -/

/-- Before the step `n`, or in the midst of the one before, the scopes are in order with their
activations and frames, and some are open; none starts after `now`. -/
structure Ordered (src : Sources) (now n : Nat) (k : Layout) : Prop where
  sound : Sound src now now k
  activated : Activated k
  framed : Framed n k
  live : k.frames ≠ []

theorem Sources.IsSite.step_lt {src : Sources} {i : Nat} {site : Site} (h : src.IsSite i site) :
    i < src.context.trace.length := (List.getElem?_eq_some_iff.1 h.spec.2.1).1

theorem Sources.IsSite.unique {src : Sources} {i : Nat} {site site' : Site}
    (h : src.IsSite i site) (h' : src.IsSite i site') : site = site' := by
  obtain ⟨current, hcurrent, hsite⟩ := h
  obtain ⟨current', hcurrent', hsite'⟩ := h'
  rw [hcurrent] at hcurrent'
  cases hcurrent'
  rw [hsite] at hsite'
  exact Except.ok.inj hsite'

theorem Sources.IsSite.resolved {src : Sources} {i : Nat} {site : Site} (h : src.IsSite i site) :
    src.resolver site.code.address = .ok (some site.artifact) := by
  obtain ⟨-, -, -, -, hartifact⟩ := h.spec
  exact artifactAt_eq_ok.1 hartifact

namespace Ordered

variable {src : Sources} {site : Site} {c c' : Scene} {p q : Pass} {i n : Nat}

theorem exists_frames {k : Layout} (h : Ordered src i n k) :
    ∃ top around, k.frames = top :: around :=
  List.exists_cons_of_ne_nil h.live

theorem next {k : Layout} (h : Ordered src i n k) : Ordered src i (n + 1) k :=
  { h with framed := h.framed.mono (Nat.le_succ n) }

/-- The body of a function opens in order. -/
theorem opensBody {kind : ScopeKind} {f : Option FunctionDefinition}
    (h : Ordered src i n c.toLayout) (hsite : src.IsSite i site) (hkind : IsBody kind) (hi : i < n)
    (hopens : c.OpensBody site kind f c') : Ordered src i n c'.toLayout := by
  cases hopens with
  | none => exact h
  | @some f a hfunction hscope hentry hconstructor =>
    obtain ⟨top, around, hframes⟩ := h.exists_frames
    obtain ⟨rfl, -, -, hcode, -⟩ := hsite.spec
    have hsound : Sound src site.step site.step
        (c.toLayout.openScope site.step kind site.code (some f.id)) :=
      h.sound.openScope hframes (ne_root_of_isBody hkind) hsite.step_lt hcode
    refine ⟨?_, h.activated.openBody hkind hscope hentry hconstructor,
      h.framed.openBody h.sound hi hscope hfunction, List.cons_ne_nil _ _⟩
    -- An activation changes nothing that the order of the scopes speaks of.
    exact { hsound with
      linked := { hsound.linked with }
      numbered := { hsound.numbered with }
      nested := { hsound.nested with }
      started := { hsound.started with } }

/-- The frames that were there still are when a body opens, with the same kind and function. -/
theorem exists_mem_opensBody {kind : ScopeKind} {f : Option FunctionDefinition} {s : Frame}
    (hs : s ∈ c.frames) (hopens : c.OpensBody site kind f c') :
    ∃ r ∈ c'.frames, r.id = s.id ∧ r.kind = s.kind ∧ r.function = s.function := by
  cases hopens with
  | none => exact ⟨s, hs, rfl, rfl, rfl⟩
  | @some f a =>
    obtain ⟨top, around, hframes⟩ := List.exists_cons_of_ne_nil (List.ne_nil_of_mem hs)
    have hmem : ∀ r, r = { top with children := top.children + 1 } ∨ r ∈ around →
        r ∈ (c.toLayout.openScope site.step kind site.code (some f.id)).frames := by
      intro r hr
      exact (mem_frames_openScope hframes).2 (.inr hr)
    rw [hframes] at hs
    rcases List.mem_cons.1 hs with rfl | hs
    · exact ⟨_, hmem _ (.inl rfl), rfl, rfl, rfl⟩
    · exact ⟨s, hmem _ (.inr hs), rfl, rfl, rfl⟩

/-- However a step leaves, the frames tell what they should. -/
theorem framed_leaves {entered : Bool} (h : Ordered src i n c.toLayout)
    (hleaves : c.Leaves src site entered c') : Framed n c'.toLayout := by
  obtain ⟨top, around, hframes⟩ := h.exists_frames
  cases hleaves with
  | deeper hdeeper hcode =>
    exact h.framed.openFrame h.sound h.activated hframes (site.isFrame_calleeKind _)
  | back hback => exact close_induction (fun hframes h => h.closeTop hframes) h.framed _
  | returns => exact h.framed.closeTop hframes
  | stays => exact h.framed

end Ordered

/-! ### Stages -/

/-- A step of a pass by its parts: the constructor that it took and the function that it entered, if
any, with the scenes in between. -/
structure Stage (src : Sources) (i : Nat) (p q : Pass) where
  site : Site
  taken : Pass
  built : Option FunctionDefinition
  entered : Option FunctionDefinition
  inside : Scene
  inner : Scene
  isSite : src.IsSite i site
  steps : p.step src site = .ok q
  takes : (p.arrive src site).takeAwaited site = (taken, built)
  parts : Scene.Parts src site { p.observed src site with awaited := taken.awaited } built entered
    inside inner q.scene
  ordered : Ordered src i i p.layout
  orderedInside : Ordered src i (i + 1) inside.toLayout
  orderedInner : Ordered src i (i + 1) inner.toLayout
  orderedAfter : Ordered src (i + 1) (i + 1) q.layout

theorem ordered_start {src : Sources} {root : CodeAddress} (hne : src.context.trace.steps ≠ [])
    (hroot : src.codeAt 0 = .ok root) :
    Ordered src 0 0 (Pass.start root src.context.trace.length).layout := by
  have hvalid := valid_start hne hroot
  refine ⟨hvalid.sound, hvalid.activated, ?_, ?_⟩
  · rw [Pass.layout_start]
    exact .start root _
  · rw [Pass.layout_start]
    exact List.cons_ne_nil _ _

/-- A step from scopes in order goes through its parts, and the scopes stay in order. -/
theorem exists_stage {src : Sources} {site : Site} {i : Nat} {p q : Pass}
    (hsite : src.IsSite i site) (hp : Ordered src i i p.layout) (hstep : p.step src site = .ok q) :
    Nonempty (Stage src i p q) := by
  obtain ⟨r, built, entered, c₁, c₂, htakes, hparts⟩ := Pass.step_scene hstep
  have hinside : Ordered src i (i + 1) c₁.toLayout :=
    hp.next.opensBody hsite (.inr rfl) (Nat.lt_succ_self i) hparts.builds
  have hinner : Ordered src i (i + 1) c₂.toLayout :=
    hinside.opensBody hsite (.inl rfl) (Nat.lt_succ_self i) hparts.enters
  have hvalid := valid_step hsite ⟨hp.sound, hp.activated⟩ hstep
  obtain ⟨around, hframes⟩ := q.layout_frames
  exact ⟨{
    site, taken := r, built, entered, inside := c₁, inner := c₂
    isSite := hsite
    steps := hstep
    takes := htakes
    parts := hparts
    ordered := hp
    orderedInside := hinside
    orderedInner := hinner
    orderedAfter := ⟨hvalid.sound, hvalid.activated, hinner.framed_leaves hparts.leaves,
      by simp [hframes]⟩ }⟩

end TraceTree.Build
