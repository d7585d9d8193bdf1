import TraceTree.Proofs.Build.CallDepth

/-!
What the open scopes remember. A scope remembers the location of the latest step at which a valid
one was noted that has not been lost since. A location is lost when a scope that was open at its
step ends because the depth falls; a function that returns hands it back. Main statements: this
holds before every step (`History.memory`), and so the location of a step is that of the latest
valid step that is carried to it, in any trace (`History.location`).
-/
namespace TraceTree.Build

open CallTree (IsBody)

/-! ### Latest finds -/

/-- What `found` gives at the greatest number below `n` that satisfies `P` and where it gives
something, if there is such a number. -/
def Latest {α : Type} (found : Nat → Option α) (P : Nat → Prop) (n : Nat) : Option α → Prop
  | none => ∀ t, t < n → P t → found t = none
  | some a => ∃ t, t < n ∧ P t ∧ found t = some a ∧ ∀ u, t < u → u < n → P u → found u = none

namespace Latest

variable {α : Type} {found : Nat → Option α} {P Q : Nat → Prop} {n : Nat} {v : Option α} {a : α}

theorem congr (h : Latest found P n v) (hPQ : ∀ t, t < n → (Q t ↔ P t)) : Latest found Q n v := by
  cases v with
  | none => exact fun t ht hQ => h t ht ((hPQ t ht).1 hQ)
  | some a =>
    obtain ⟨t, ht, hP, hfound, hlatest⟩ := h
    exact ⟨t, ht, (hPQ t ht).2 hP, hfound,
      fun u htu hu hQ => hlatest u htu hu ((hPQ u hu).1 hQ)⟩

theorem found_here (hP : P n) (hfound : found n = some a) : Latest found P (n + 1) (some a) :=
  ⟨n, Nat.lt_succ_self n, hP, hfound, fun u hnu hu _ => by omega⟩

theorem succ (h : Latest found P n v) (hnone : P n → found n = none) :
    Latest found P (n + 1) v := by
  have hlast : ∀ {t}, t < n + 1 → P t → (t < n → P t → found t = none) → found t = none := by
    intro t ht hP hbelow
    rcases Nat.lt_succ_iff_lt_or_eq.1 ht with hlt | rfl
    · exact hbelow hlt hP
    · exact hnone hP
  cases v with
  | none => exact fun t ht hP => hlast ht hP (h t)
  | some a =>
    obtain ⟨t, ht, hP, hfound, hlatest⟩ := h
    exact ⟨t, by omega, hP, hfound, fun u htu hu hPu => hlast hu hPu (hlatest u htu)⟩

end Latest

/-! ### Locations that are kept -/

/-- The source location of a step, when it is valid. -/
def Sources.validRaw? (src : Sources) (i : Nat) : Option SourceLocation :=
  (src.site? i).bind fun site => if site.isValid then some site.raw else none

theorem Sources.IsSite.validRaw?_eq {src : Sources} {i : Nat} {site : Site}
    (h : src.IsSite i site) : src.validRaw? i = if site.isValid then some site.raw else none := by
  rw [Sources.validRaw?, site?_eq_some_iff.2 h, Option.bind_some]

/-- A location that was noted at the step `t` is kept in the scope `id`: every scope that was open
before that step is around `id`, or it has ended and the depth did not fall there. -/
def Keeps (src : Sources) (k : Skeleton) (id : ScopeId) (t : Nat) : Prop :=
  ∀ c o, k.scopes c = some o → o.OpenBefore t →
    (o.lastStep = none → c.contains id) ∧
      ∀ l, o.lastStep = some l → ¬ src.context.trace.ComesBackAt l

/-- The same but for one scope. -/
def KeepsBut (src : Sources) (k : Skeleton) (but id : ScopeId) (t : Nat) : Prop :=
  ∀ c o, c ≠ but → k.scopes c = some o → o.OpenBefore t →
    (o.lastStep = none → c.contains id) ∧
      ∀ l, o.lastStep = some l → ¬ src.context.trace.ComesBackAt l

/-- Each open scope remembers the latest valid location before the step `n` that is kept in it. -/
def Memory (src : Sources) (n : Nat) (k : Layout) (lastValid : List (Option SourceLocation)) :
    Prop :=
  List.Forall₂ (fun id v => Latest src.validRaw? (Keeps src k.tree id) n v)
    (k.frames.map Frame.id) lastValid

section Keeps

variable {src : Sources} {k : Layout} {top next : Frame} {around : List Frame} {o : Outline}
  {id : ScopeId} {t x n : Nat}

/-- What is kept while the innermost scope is open. -/
theorem keeps_iff (ho : k.tree.scopes top.id = some o) (hopen : o.lastStep = none) :
    Keeps src k.tree id t ↔
      KeepsBut src k.tree top.id id t ∧ (o.OpenBefore t → top.id.contains id) := by
  constructor
  · intro h
    exact ⟨fun c r _ hr hbefore => h c r hr hbefore, fun hbefore => (h top.id o ho hbefore).1 hopen⟩
  · rintro ⟨hbut, htop⟩ c r hr hbefore
    by_cases hc : c = top.id
    · subst hc
      rw [ho] at hr
      cases hr
      refine ⟨fun _ => htop hbefore, fun l hl => ?_⟩
      rw [hopen] at hl
      cases hl
    · exact hbut c r hc hr hbefore

/-- What is kept once it has closed. -/
theorem keeps_closeTop_iff (hframes : k.frames = top :: around)
    (ho : k.tree.scopes top.id = some o) (hopen : o.lastStep = none) (ht : t ≤ x) :
    Keeps src (k.closeTop x).tree id t ↔
      KeepsBut src k.tree top.id id t ∧
        (o.OpenBefore t → ¬ src.context.trace.ComesBackAt x) := by
  have hbefore : (o.closeAt x).OpenBefore t ↔ o.OpenBefore t := by
    rw [Outline.OpenBefore, Outline.contains_closeAt hopen ht]
    rfl
  constructor
  · intro h
    refine ⟨?_, ?_⟩
    · intro c r hc hr
      exact h c r (by rw [scopes_closeTop hframes, if_neg hc, hr])
    · intro hb
      refine (h top.id (o.closeAt x) ?_ (hbefore.2 hb)).2 x rfl
      rw [scopes_closeTop hframes, if_pos rfl, ho]
      rfl
  · rintro ⟨hbut, htop⟩ c r hr hb
    rcases of_closeTop hframes hr with ⟨rfl, s, hs, rfl⟩ | ⟨hc, hr⟩
    · rw [ho] at hs
      cases hs
      refine ⟨?_, fun l hl => ?_⟩
      · intro hnone
        cases hnone
      · cases hl
        exact htop (hbefore.1 hb)
    · exact hbut c r hc hr hb

/-- The scope around the innermost one is kept from whatever that is kept from. -/
theorem keepsBut_next_iff (hid : top.id = next.id.child next.children) :
    KeepsBut src k.tree top.id next.id t ↔ KeepsBut src k.tree top.id top.id t := by
  refine forall_congr' fun c => forall_congr' fun r => forall_congr' fun hc =>
    forall_congr' fun _ => forall_congr' fun _ => ?_
  have hcontains : c.contains next.id ↔ c.contains top.id := by
    rw [hid, ScopeId.contains_child_iff, ← hid]
    simp [hc]
  rw [hcontains]

/-- Opening a scope that does not start too early changes nothing for the others. -/
theorem keeps_openScope_iff {kind : ScopeKind} {code : CodeAddress} {function : Option Nat}
    (hfresh : k.tree.scopes k.nextId = none)
    (hlate : x ≤ t → ¬ kind.isFrame ∧ t ≤ x) :
    Keeps src (k.openScope x kind code function).tree id t ↔ Keeps src k.tree id t := by
  constructor
  · intro h c r hr
    exact h c r (scopes_openScope_of_some hfresh hr)
  · intro h c r hr hbefore
    rcases of_openScope hr with ⟨-, rfl⟩ | ⟨-, hr⟩
    · obtain ⟨hcontains, hkind⟩ := hbefore
      simp only [Outline.contains, Bool.and_eq_true, decide_eq_true_eq] at hcontains
      obtain ⟨hbody, hle⟩ := hlate hcontains.1
      rcases hkind with hkind | hlt
      · exact absurd hkind hbody
      · exact absurd hlt (Nat.not_lt.2 hle)
    · exact h c r hr hbefore

/-- The scope that opens keeps what its parent keeps. -/
theorem keeps_nextId_iff (hframes : k.frames = top :: around)
    (hfresh : k.tree.scopes k.nextId = none) :
    Keeps src k.tree k.nextId t ↔ Keeps src k.tree top.id t := by
  refine forall_congr' fun c => forall_congr' fun r => forall_congr' fun hr =>
    forall_congr' fun _ => ?_
  have hcontains : c.contains k.nextId ↔ c.contains top.id := by
    have hne : c ≠ k.nextId := by
      rintro rfl
      rw [hfresh] at hr
      cases hr
    rw [nextId_cons hframes, ScopeId.contains_child_iff, ← nextId_cons hframes]
    simp [hne]
  rw [hcontains]

end Keeps

/-! ### Memory through a step -/

section Memory

variable {src : Sources} {k : Layout} {c c' : Scene} {site : Site} {i n x : Nat}
  {lastValid : List (Option SourceLocation)}

theorem map_id_countChild (frames : List Frame) :
    (Layout.countChild frames).map Frame.id = frames.map Frame.id := by
  cases frames <;> rfl

theorem forall₂_imp_mem {α β : Type} {R S : α → β → Prop} {l : List α} {u : List β}
    (h : List.Forall₂ R l u) (himp : ∀ a ∈ l, ∀ b, R a b → S a b) : List.Forall₂ S l u := by
  have hmem : List.Forall₂ (fun a b => a ∈ l ∧ R a b) l u :=
    (List.forall₂_and_left l u).2 ⟨fun _ ha => ha, h⟩
  exact hmem.imp fun a b hab => himp a hab.1 b hab.2

/-- A location that is noted is the latest of the innermost scope; in the others it is not kept. -/
theorem Memory.note (h : Memory src i c.toLayout c.lastValid)
    (hordered : Ordered src i i c.toLayout) (hsite : src.IsSite i site) :
    Memory src (i + 1) c.toLayout (c.note site).lastValid := by
  obtain ⟨top, around, hframes⟩ := hordered.exists_frames
  have hchain := hframes ▸ hordered.sound.linked.chained
  obtain ⟨o, ho, hopen⟩ := hordered.sound.linked.framedTop hframes
  have hbefore : o.OpenBefore i := (hordered.openBefore_iff ho).2 hopen
  have hfound := hsite.validRaw?_eq
  rw [Memory, hframes, List.map_cons] at h ⊢
  obtain ⟨v, vs, hv, hvs, hlist⟩ := List.forall₂_cons_left_iff.1 h
  rw [Scene.note, hlist, List.modifyHead_cons]
  refine .cons ?_ ?_
  · by_cases hvalid : site.isValid
    · rw [if_pos hvalid] at hfound ⊢
      refine Latest.found_here ?_ hfound
      intro id r hr hb
      have hnone := (hordered.openBefore_iff hr).1 hb
      refine ⟨fun _ => hordered.sound.linked.contains_top hframes hr hnone, fun l hl => ?_⟩
      rw [hnone] at hl
      cases hl
    · rw [if_neg hvalid] at hfound ⊢
      exact hv.succ fun _ => hfound
  · -- The innermost scope is open before the step, and it is not around those further out.
    have hlost : ∀ id ∈ around.map Frame.id, ¬ Keeps src c.tree id i := by
      intro id hid hkeeps
      obtain ⟨s, hs, rfl⟩ := List.mem_map.1 hid
      have hin := (hkeeps top.id o ho hbefore).1 hopen
      have hout := hchain.contains_top (List.mem_cons_of_mem _ hs)
      exact hchain.ne_top hs (ScopeId.contains_antisymm hout hin)
    refine forall₂_imp_mem hvs fun id hid v hv => ?_
    exact hv.succ fun hkeeps => absurd hkeeps (hlost id hid)

/-- A scope that opens remembers what its parent does. -/
theorem Memory.openScope {kind : ScopeKind} {code : CodeAddress} {function : Option Nat} {m : Nat}
    (h : Memory src n c.toLayout c.lastValid) (hordered : Ordered src i m c.toLayout)
    (hlate : ∀ t, t < n → x ≤ t → ¬ kind.isFrame ∧ t ≤ x) :
    Memory src n (c.toLayout.openScope x kind code function)
      (c.openScope x kind code function).lastValid := by
  obtain ⟨top, around, hframes⟩ := hordered.exists_frames
  have hfresh := hordered.sound.numbered.fresh hframes
  have hids : (c.toLayout.openScope x kind code function).frames.map Frame.id =
      c.nextId :: c.frames.map Frame.id := by
    rw [Layout.openScope, List.map_cons, map_id_countChild]
  rw [Memory, hids, Scene.openScope]
  rw [Memory] at h
  refine .cons ?_ ?_
  · rw [hframes, List.map_cons] at h
    obtain ⟨v, vs, hv, -, hlist⟩ := List.forall₂_cons_left_iff.1 h
    rw [hlist]
    refine hv.congr fun t ht => ?_
    exact (keeps_openScope_iff hfresh (hlate t ht)).trans (keeps_nextId_iff hframes hfresh)
  · refine h.imp fun id v hv => ?_
    exact hv.congr fun t ht => keeps_openScope_iff hfresh (hlate t ht)

theorem Memory.opensBody {kind : ScopeKind} {f : Option FunctionDefinition} {m : Nat}
    (h : Memory src (i + 1) c.toLayout c.lastValid) (hordered : Ordered src i m c.toLayout)
    (hsite : src.IsSite i site) (hkind : IsBody kind) (hopens : c.OpensBody site kind f c') :
    Memory src (i + 1) c'.toLayout c'.lastValid := by
  obtain ⟨rfl, -⟩ := hsite.spec
  cases hopens with
  | none => exact h
  | some =>
    exact h.openScope hordered fun t ht _ =>
      ⟨not_isFrame_of_isBody hkind, Nat.le_of_lt_succ ht⟩

/-- When the innermost scope closes because the depth falls, what was kept in it only is lost. -/
theorem Memory.closeTop_back {top : Frame} {around : List Frame} (h : Memory src n k lastValid)
    (link : Linked k) (hframes : k.frames = top :: around) (hx : n ≤ x + 1)
    (hback : src.context.trace.ComesBackAt x) :
    Memory src n (k.closeTop x) lastValid.tail := by
  have hchain := hframes ▸ link.chained
  obtain ⟨o, ho, hopen⟩ := link.framedTop hframes
  rw [Memory, hframes, List.map_cons] at h
  obtain ⟨v, vs, -, hvs, rfl⟩ := List.forall₂_cons_left_iff.1 h
  rw [Memory, frames_closeTop hframes, List.tail_cons]
  refine forall₂_imp_mem hvs fun id hid w hw => hw.congr fun t ht => ?_
  obtain ⟨s, hs, rfl⟩ := List.mem_map.1 hid
  have hout : ¬ top.id.contains s.id := fun hin => hchain.ne_top hs
    (ScopeId.contains_antisymm (hchain.contains_top (List.mem_cons_of_mem _ hs)) hin)
  rw [keeps_closeTop_iff hframes ho hopen (by omega), keeps_iff ho hopen]
  simp [hback, hout]

theorem Memory.close_back (h : Memory src n k lastValid) (link : Linked k) (hx : n ≤ x + 1)
    (hback : src.context.trace.ComesBackAt x) (m : Nat) :
    Memory src n (k.close x m) (lastValid.drop m) := by
  induction m generalizing k lastValid with
  | zero => exact h
  | succ m ih =>
    rw [Layout.close]
    cases hframes : k.frames with
    | nil =>
      have hnil : lastValid = [] := by simpa [Memory, hframes] using h
      have hrest := ih h link
      rw [closeTop_of_nil hframes]
      simpa [hnil] using hrest
    | cons top around =>
      rw [← List.drop_tail]
      exact ih (h.closeTop_back link hframes hx hback) (link.closeTop hframes)

/-- What the scope around a function keeps once that has returned is what the function kept, and the
scopes further out keep what they kept. -/
theorem keeps_return {top next : Frame} {around : List Frame} {m t : Nat}
    (hordered : Ordered src i m k) (hframes : k.frames = top :: next :: around)
    (htop : top.kind = .internalFunction) (hback : ¬ src.context.trace.ComesBackAt i)
    (ht : t ≤ i) :
    (Keeps src (k.closeTop i).tree next.id t ↔ Keeps src k.tree top.id t) ∧
      ∀ s ∈ around, Keeps src (k.closeTop i).tree s.id t ↔ Keeps src k.tree s.id t := by
  have hchain := hframes ▸ hordered.sound.linked.chained
  obtain ⟨o, ho, hopen⟩ := hordered.sound.linked.framedTop hframes
  refine ⟨?_, ?_⟩
  · rw [keeps_closeTop_iff hframes ho hopen ht, keeps_iff ho hopen, keepsBut_next_iff hchain.1]
    simp [hback]
  · intro s hs
    -- The scope around the function was open whenever the function was, and is not around `s`.
    have hlost : KeepsBut src k.tree top.id s.id t → ¬ o.OpenBefore t := by
      rintro hbut ⟨hcontains, hkind⟩
      obtain ⟨r, hr, hopen'⟩ := hordered.sound.linked.framed
        (show next ∈ k.frames by simp [hframes])
      have hbody : ¬ o.kind.isFrame := by
        rw [hordered.framed.kind (by simp [hframes]) ho, htop]
        decide
      have hle : r.firstStep ≤ o.firstStep := by
        rw [hchain.1] at ho
        exact (hordered.sound.nested.inside hr ho).1
      have hlt := hkind.resolve_left hbody
      have hbefore : r.OpenBefore t := by
        refine ⟨?_, .inr (hle.trans_lt hlt)⟩
        simp [Outline.contains, hopen', (hle.trans_lt hlt).le]
      have hin := (hbut next.id r (hchain.ne_top (by simp)) hr hbefore).1 hopen'
      have hout := hchain.tail.contains_top (List.mem_cons_of_mem _ hs)
      exact hchain.tail.ne_top hs (ScopeId.contains_antisymm hout hin)
    rw [keeps_closeTop_iff hframes ho hopen ht, keeps_iff ho hopen]
    refine and_congr_right fun hbut => ?_
    simp [hlost hbut]

/-- A function that returns hands back what it remembers. -/
theorem Memory.closeFunction {top next : Frame} {around : List Frame} {m : Nat}
    (h : Memory src (i + 1) c.toLayout c.lastValid) (hordered : Ordered src i m c.toLayout)
    (hframes : c.frames = top :: next :: around) (htop : top.kind = .internalFunction)
    (hback : ¬ src.context.trace.ComesBackAt i) :
    Memory src (i + 1) (c.toLayout.closeTop i) (Scene.handBack c.lastValid) := by
  have hkeeps := fun t (ht : t < i + 1) =>
    keeps_return hordered hframes htop hback (Nat.le_of_lt_succ ht)
  have hchain := hframes ▸ hordered.sound.linked.chained
  rw [Memory, hframes, List.map_cons, List.map_cons] at h
  obtain ⟨v, vs, hv, hvs, hlist⟩ := List.forall₂_cons_left_iff.1 h
  obtain ⟨w, ws, hw, hws, rfl⟩ := List.forall₂_cons_left_iff.1 hvs
  rw [Memory, frames_closeTop hframes, List.map_cons, hlist, Scene.handBack, List.modifyHead_cons]
  refine .cons ?_ (forall₂_imp_mem hws fun id hid u hu => ?_)
  · have hv' := hv.congr fun t ht => (hkeeps t ht).1
    cases v with
    | some l => exact hv'
    | none =>
      -- What the function has not, the scope around it has not either.
      cases w with
      | none => exact hv'
      | some l =>
        obtain ⟨t, ht, hkept, hfound, -⟩ := hw
        have hinner : Keeps src c.tree top.id t := by
          intro a o ho hbefore
          obtain ⟨hopen, hended⟩ := hkept a o ho hbefore
          refine ⟨fun hnone => ScopeId.contains_trans (hopen hnone) ?_, hended⟩
          rw [hchain.1]
          exact ScopeId.contains_child _ _
        rw [hv t ht hinner] at hfound
        cases hfound
  · obtain ⟨s, hs, rfl⟩ := List.mem_map.1 hid
    exact hu.congr fun t ht => (hkeeps t ht).2 s hs

/-- However a step leaves, each open scope remembers what it should. -/
theorem Memory.leaves {entered : Bool} {m : Nat} (h : Memory src (i + 1) c.toLayout c.lastValid)
    (hordered : Ordered src i m c.toLayout) (hsite : src.IsSite i site)
    (hleaves : c.Leaves src site entered c') : Memory src (i + 1) c'.toLayout c'.lastValid := by
  have hcomesBack := hsite.comesBack_iff
  obtain ⟨rfl, -⟩ := hsite.spec
  cases hleaves with
  | deeper hdeeper hcode => exact h.openScope hordered fun t ht hle => by omega
  | back hback =>
    exact h.close_back hordered.sound.linked (le_refl _) (hcomesBack.1 hback) _
  | returns hback hdeeper hentered hout htop =>
    obtain ⟨top, next, around, hframes, hkind⟩ := htop
    exact h.closeFunction hordered hframes hkind fun hno => hback (hcomesBack.2 hno)
  | stays => exact h

theorem Stage.memory {p q : Pass} (st : Stage src i p q)
    (h : Memory src i p.layout p.scene.lastValid) :
    Memory src (i + 1) q.layout q.scene.lastValid := by
  have hnoted : Memory src (i + 1) p.layout (p.observed src st.site).lastValid :=
    Memory.note (c := p.scene) h st.ordered st.isSite
  have hbuilt := Memory.opensBody hnoted st.ordered.next st.isSite (.inr rfl) st.parts.builds
  have hentered := hbuilt.opensBody st.orderedInside st.isSite (.inl rfl) st.parts.enters
  exact hentered.leaves st.orderedInner st.isSite st.parts.leaves

/-- Before every step each open scope remembers the latest valid location that is kept in it. -/
theorem History.memory {tree : CallTree} {pass : Nat → Pass} (hist : History src tree pass)
    (hi : i ≤ src.context.trace.length) :
    Memory src i (pass i).layout (pass i).scene.lastValid := by
  induction i with
  | zero =>
    obtain ⟨root, -, hstart⟩ := hist.start
    rw [hstart]
    exact .cons (fun t ht => absurd ht (Nat.not_lt_zero t)) .nil
  | succ i ih =>
    obtain ⟨st⟩ := hist.stage hi
    exact st.memory (ih (Nat.le_of_succ_le hi))

end Memory

/-! ### Locations of the finished tree -/

section Locations

variable {src : Sources} {tree : CallTree} {pass : Nat → Pass} {step : Nat} {site : Site}

/-- A location that was noted at the step `t` is carried to the step `s`: every scope that was open
before `t` takes `s` too, or it has ended and the depth did not fall there. -/
def Carried (src : Sources) (tree : CallTree) (s t : Nat) : Prop :=
  ∀ id c, tree.scope? id = some c → c.OpenBefore t →
    c.contains s ∨ ∃ l, c.lastStep = some l ∧ ¬ src.context.trace.ComesBackAt l

/-- What the innermost scope keeps before a step is what is carried there. -/
theorem History.keeps_iff_carried (hist : History src tree pass)
    (hstep : step < src.context.trace.length) {top : Frame} {around : List Frame}
    (hframes : (pass step).layout.frames = top :: around) {t : Nat} (ht : t < step) :
    Keeps src (pass step).layout.tree top.id t ↔ Carried src tree step t := by
  have hordered := hist.ordered hstep.le
  have hgrows := hist.grows_tree hstep
  constructor
  · intro h id c hc hbefore
    have ho' := CallTree.outline_of_scope? rfl hc
    obtain ⟨o, ho⟩ := Option.isSome_iff_exists.1
      (Outline.OpenBefore.isSome hgrows ht.le ho' hbefore)
    have hkept := h id o ho ((Outline.openBefore_of_grows hgrows ho ho' ht.le).1 hbefore)
    cases hl : o.lastStep with
    | none =>
      refine .inl ?_
      have hopen := (Outline.openBefore_of_grows hgrows ho ho' (le_refl step)).2
        ((hordered.openBefore_iff ho).2 hl)
      exact hopen.1
    | some l =>
      have hsame := hgrows.ended ho hl
      rw [ho'] at hsame
      exact .inr ⟨l, (congrArg Outline.lastStep (Option.some.inj hsame)).trans hl, hkept.2 l hl⟩
  · intro h id o ho hbefore
    refine ⟨fun hnone => hordered.sound.linked.contains_top hframes ho hnone, fun l hl => ?_⟩
    obtain ⟨c, hc, rfl⟩ := CallTree.exists_scope?_of_outline rfl (hgrows.ended ho hl)
    have hlast : c.lastStep = some l := hl
    rcases h id c hc hbefore with hcontains | ⟨m, hm, hback⟩
    · have hlt := (hordered.sound.nested.ended ho hl).2
      simp only [Scope.contains, hlast, Option.all_some, Bool.and_eq_true, decide_eq_true_eq]
        at hcontains
      omega
    · rw [hlast] at hm
      cases hm
      exact hback

theorem carried_self (src : Sources) (tree : CallTree) (s : Nat) : Carried src tree s s :=
  fun _ _ _ hbefore => .inl hbefore.1

/-! ### What is recorded -/

theorem locations_opensBody {c c' : Scene} {kind : ScopeKind} {f : Option FunctionDefinition}
    (h : c.OpensBody site kind f c') : c'.locations = c.locations := by
  cases h <;> rfl

theorem locations_leaves {c c' : Scene} {entered : Bool} (h : c.Leaves src site entered c') :
    c'.locations = c.locations := by
  cases h <;> rfl

/-- A step records its location and leaves those of earlier steps. -/
theorem Stage.locations {i : Nat} {p q : Pass} (st : Stage src i p q) :
    q.tree.locations = p.tree.locations.push (p.locationAt src st.site) := by
  have hbuilt := locations_opensBody st.parts.builds
  have hentered := locations_opensBody st.parts.enters
  exact (locations_leaves st.parts.leaves).trans (hentered.trans hbuilt)

theorem History.size_locations (hist : History src tree pass) {i : Nat}
    (hi : i ≤ src.context.trace.length) : (pass i).tree.locations.size = i := by
  induction i with
  | zero =>
    obtain ⟨root, -, hstart⟩ := hist.start
    rw [hstart]
    rfl
  | succ i ih =>
    obtain ⟨st⟩ := hist.stage hi
    rw [st.locations, Array.size_push, ih (Nat.le_of_succ_le hi)]

theorem History.locations_eq (hist : History src tree pass) (hsite : src.IsSite step site)
    {i : Nat} (hlt : step < i) (hi : i ≤ src.context.trace.length) :
    (pass i).tree.locations[step]? = some ((pass step).locationAt src site) := by
  induction i, hlt using Nat.le_induction with
  | base =>
    obtain ⟨st⟩ := hist.stage hi
    have hsize := hist.size_locations (Nat.le_of_succ_le hi)
    rw [st.locations, Array.getElem?_push, if_pos hsize.symm, hsite.unique st.isSite]
  | succ i hlt ih =>
    obtain ⟨st⟩ := hist.stage hi
    have hsize := hist.size_locations (Nat.le_of_succ_le hi)
    rw [st.locations, Array.getElem?_push, if_neg (by omega)]
    exact ih (Nat.le_of_succ_le hi)

/-- Exactly the steps of the trace have locations. -/
theorem History.locationAt?_eq (hist : History src tree pass) (hsite : src.IsSite step site) :
    tree.locationAt? step = some ((pass step).locationAt src site) := by
  rw [CallTree.locationAt?, ← hist.finish, Pass.close, Pass.locations_closeAll]
  exact hist.locations_eq hsite hsite.step_lt (le_refl _)

theorem History.locationAt?_eq_none (hist : History src tree pass)
    (hstep : src.context.trace.length ≤ step) : tree.locationAt? step = none := by
  rw [CallTree.locationAt?, ← hist.finish, Pass.close, Pass.locations_closeAll]
  exact Array.getElem?_eq_none (by rw [hist.size_locations (le_refl _)]; exact hstep)

/-- The location that is recorded at a step when `v` is the latest valid one. -/
def shownLocation (src : Sources) (site : Site) (v : Option SourceLocation) : StepLocation :=
  { code := site.code
    opcode := site.current.opcode
    raw := site.raw
    valid := v.getD site.raw
    lineColumn := v.bind fun l => src.converter.bind fun convert =>
      convert site.artifact site.bytecode l }

theorem History.location_of_valid (hist : History src tree pass) (hsite : src.IsSite step site)
    (hvalid : site.isValid) :
    tree.locationAt? step = some (shownLocation src site (some site.raw)) := by
  rw [hist.locationAt?_eq hsite]
  simp [Pass.locationAt, shownLocation, SourceLocation.orLastValid, hvalid]

/-- The location of a step is that of the latest valid step that is carried to it, if there is one,
and its own if there is none. Its lines are looked up in what runs at the step. -/
theorem History.location (hist : History src tree pass) (hsite : src.IsSite step site) :
    ∃ v, Latest src.validRaw? (Carried src tree step) (step + 1) v ∧
      tree.locationAt? step = some (shownLocation src site v) := by
  have hstep := hsite.step_lt
  obtain ⟨around, hframes⟩ := (pass step).layout_frames
  obtain ⟨others, hvalid⟩ := (pass step).lastValid_scene
  have hmemory := hist.memory hstep.le
  rw [Memory, hframes, hvalid, List.map_cons, List.forall₂_cons] at hmemory
  have hlatest := hmemory.1.congr fun t ht => (hist.keeps_iff_carried hstep hframes ht).symm
  have hfound := hsite.validRaw?_eq
  by_cases hsitevalid : site.isValid
  · rw [if_pos hsitevalid] at hfound
    exact ⟨some site.raw, Latest.found_here (carried_self src tree step) hfound,
      hist.location_of_valid hsite hsitevalid⟩
  · rw [if_neg hsitevalid] at hfound
    refine ⟨_, hlatest.succ fun _ => hfound, ?_⟩
    rw [hist.locationAt?_eq hsite]
    cases hlast : (pass step).scopes.top.lastValid <;>
      simp [Pass.locationAt, shownLocation, SourceLocation.orLastValid, hsitevalid, hlast]

end Locations

end TraceTree.Build
