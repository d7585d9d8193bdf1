import Mathlib.Data.Prod.Lex
import Mathlib.Order.WellFounded
import TraceTree.Proofs.Build.Entry
import TraceTree.Proofs.Build.LastStep
import TraceTree.Proofs.Build.Passes

/-!
What the limit on open scopes does to a reconstruction. The id of a scope has as many ordinals as
scopes are open when it has opened, so a limit decides by the lengths of ids alone. Main statement:
a reconstruction that ends in a tree ends in the same tree under every limit that the ids of the
tree keep to, and under any other it fails at the step at which the first scope too deep would open
(`build_withLimit`).
-/
namespace TraceTree

/-! ### Heights and openings -/

/-- How many ordinals the longest id of a scope has. -/
def CallTree.height (t : CallTree) : Nat := (t.scopes.keys.map (·.path.length)).foldr max 0

theorem CallTree.height_le_iff {t : CallTree} {n : Nat} :
    t.height ≤ n ↔ ∀ id, (t.scope? id).isSome → id.path.length ≤ n := by
  have hfold : ∀ l : List Nat, l.foldr max 0 ≤ n ↔ ∀ a ∈ l, a ≤ n := by
    intro l
    induction l with
    | nil => simp
    | cons a l ih => rw [List.foldr_cons, Nat.max_le, ih, List.forall_mem_cons]
  rw [height, hfold, List.forall_mem_map]
  exact forall_congr' fun id => by rw [SortedMap.mem_keys_iff, scope?]

/-- The step at which a scope opens: the frame of a call opens at the step before its first one. -/
def Scope.openingStep (s : Scope) : Nat :=
  if s.kind.isFrame then s.firstStep - 1 else s.firstStep

/-- The scope opens before `r`: at an earlier step, or at the same step around it. -/
def Scope.OpensBefore (s r : Scope) : Prop :=
  s.openingStep < r.openingStep ∨ s.openingStep = r.openingStep ∧ s.id.isAncestorOf r.id

namespace Build

/-- The same with another limit on the scopes that are open at a time. -/
def Sources.withLimit (src : Sources) (m : Nat) : Sources :=
  { src with options := { src.options with maxScopeDepth := m } }

/-! ### Lengths of ids -/

section Lengths

variable {k : Layout} {top : Frame} {around : List Frame} {m : Nat}

theorem Chained.length_path (h : Chained (top :: around)) :
    top.id.path.length = around.length + 1 := by
  induction around generalizing top with
  | nil =>
    rw [h.1]
    rfl
  | cons next around ih =>
    rw [h.1, ScopeId.child, List.length_append, ih h.tail, List.length_singleton,
      List.length_cons]

/-- The next scope has one ordinal more than scopes are open. -/
theorem Chained.length_nextId (h : Chained k.frames) (hlive : k.frames ≠ []) :
    k.nextId.path.length = k.frames.length + 1 := by
  obtain ⟨top, around, hframes⟩ := List.exists_cons_of_ne_nil hlive
  rw [hframes] at h
  rw [nextId_cons hframes, ScopeId.child, List.length_append, h.length_path,
    List.length_singleton, hframes, List.length_cons]

/-- The ids of all scopes keep to the limit `m`; that of the root always does. -/
def Layout.Fits (m : Nat) (k : Layout) : Prop :=
  ∀ id, (k.tree.scopes id).isSome → id.path.length ≤ max m 1

/-- One more scope keeps to the limit exactly when there is room for it. -/
theorem fits_openScope {x : Nat} {kind : ScopeKind} {code : CodeAddress} {function : Option Nat}
    (h : Chained k.frames) (hlive : k.frames ≠ []) :
    (k.openScope x kind code function).Fits m ↔ k.Fits m ∧ k.frames.length < m := by
  have hlength := h.length_nextId hlive
  have hpos := List.length_pos_iff.2 hlive
  constructor
  · intro hfits
    refine ⟨fun id hid => hfits id ((isSome_openScope id).2 (.inr hid)), ?_⟩
    have hle := hfits k.nextId ((isSome_openScope _).2 (.inl rfl))
    omega
  · rintro ⟨hfits, hroom⟩ id hid
    rcases (isSome_openScope id).1 hid with rfl | hid
    · omega
    · exact hfits id hid

theorem isSome_close (k : Layout) (x n : Nat) (id : ScopeId) :
    ((k.close x n).tree.scopes id).isSome ↔ (k.tree.scopes id).isSome := by
  rw [scopes_close]
  split
  · rw [Option.isSome_map]
  · rfl

theorem fits_close (k : Layout) (x n : Nat) : (k.close x n).Fits m ↔ k.Fits m :=
  forall_congr' fun id => by rw [isSome_close]

end Lengths

/-! ### Steps under another limit -/

/-- With room `x` gives `a`; without it fails at the step for want of room. -/
structure Guarded {α : Type} (m step : Nat) (room : Prop) (x : Except BuildError α) (a : α) :
    Prop where
  goes : room → x = .ok a
  stops : ¬ room → x = .error (.recursionLimitExceeded step m)

namespace Guarded

variable {α β : Type} {m step : Nat} {room room' : Prop} {x : Except BuildError α} {a : α}

theorem of_eq_ok (h : x = .ok a) (hroom : room) : Guarded m step room x a :=
  ⟨fun _ => h, fun hno => absurd hroom hno⟩

/-- What comes second needs more room than what comes first. -/
theorem bind {f : α → Except BuildError β} {b : β} (hx : Guarded m step room x a)
    (hmore : room' → room) (hf : room → Guarded m step room' (f a) b) :
    Guarded m step room' (x >>= f) b where
  goes h := by
    rw [hx.goes (hmore h)]
    exact (hf (hmore h)).goes h
  stops h := by
    by_cases hroom : room
    · rw [hx.goes hroom]
      exact (hf hroom).stops h
    · rw [hx.stops hroom]
      rfl

theorem map (hx : Guarded m step room x a) (f : α → β) :
    Guarded m step room (x.map f) (f a) where
  goes h := by
    rw [hx.goes h]
    rfl
  stops h := by
    rw [hx.stops h]
    rfl

end Guarded

namespace Pass

variable {p q : Pass} {src : Sources} {site : Site} {m : Nat}

theorem frames_ne_nil (p : Pass) : p.layout.frames ≠ [] := by
  obtain ⟨around, h⟩ := p.layout_frames
  simp [h]

theorem Alike.fits (h : Alike p q) : q.layout.Fits m ↔ p.layout.Fits m := by rw [h.layout]

theorem guarded_openScope {step firstStep : Nat} {kind : ScopeKind} {code : CodeAddress}
    {function : Option Nat} (hchain : Chained p.layout.frames) (hp : p.layout.Fits m)
    (h : p.openScope src step firstStep kind code function = .ok q) :
    Guarded m step (q.layout.Fits m)
      (p.openScope (src.withLimit m) step firstStep kind code function) q := by
  have hfits : q.layout.Fits m ↔ p.scopes.size < m := by
    rw [layout_openScope h, fits_openScope hchain p.frames_ne_nil, length_frames]
    exact and_iff_right hp
  rw [hfits]
  constructor
  · intro hroom
    rw [openScope] at h ⊢
    rw [if_neg (Nat.not_le.2 (room_of_openScope h))] at h
    exact (if_neg (Nat.not_le.2 hroom)).trans h
  · intro hfull
    rw [openScope]
    exact if_pos (Nat.not_lt.1 hfull)

theorem guarded_openCall {kind : CodeAddress → ScopeKind} (hchain : Chained p.layout.frames)
    (hp : p.layout.Fits m) (h : p.openCall src site kind = .ok q) :
    Guarded m site.step (q.layout.Fits m) (p.openCall (src.withLimit m) site kind) q := by
  obtain ⟨callee, hcode, h⟩ := bind_eq_ok.1 h
  have hcode' : (src.withLimit m).codeAt (site.step + 1) = .ok callee := hcode
  rw [openCall, hcode']
  exact guarded_openScope hchain hp h

theorem guarded_openFunction {f : FunctionDefinition} {kind : ScopeKind}
    (hchain : Chained p.layout.frames) (hp : p.layout.Fits m)
    (h : p.openFunction src site f kind = .ok q) :
    Guarded m site.step (q.layout.Fits m) (p.openFunction (src.withLimit m) site f kind) q := by
  obtain ⟨a, -, -, -, -, hlayout⟩ := layout_openFunction h
  obtain ⟨r, hr, h⟩ := bind_eq_ok.1 h
  obtain ⟨n, hn, h⟩ := bind_eq_ok.1 h
  -- The activation and the parameters change nothing about ids.
  have hsame : q.layout.Fits m ↔ r.layout.Fits m := by
    rw [hlayout, layout_openScope hr]
    rfl
  rw [hsame]
  refine (guarded_openScope hchain hp hr).bind id fun hroom => ?_
  exact .of_eq_ok (bind_eq_ok.2 ⟨n, hn, h⟩) hroom

theorem chained_openFunction {f : FunctionDefinition} {kind : ScopeKind}
    (hchain : Chained p.layout.frames) (hkind : kind ≠ .root)
    (h : p.openFunction src site f kind = .ok q) : Chained q.layout.frames := by
  obtain ⟨a, -, -, -, -, hlayout⟩ := layout_openFunction h
  obtain ⟨around, hframes⟩ := p.layout_frames
  have hpush := (hframes ▸ hchain).push { id := p.layout.nextId, kind, function := some f.id }
    (nextId_cons hframes) hkind
  rw [← hframes] at hpush
  rw [hlayout]
  exact hpush

theorem fits_of_openFunction {f : FunctionDefinition} {kind : ScopeKind}
    (hchain : Chained p.layout.frames) (h : p.openFunction src site f kind = .ok q)
    (hq : q.layout.Fits m) : p.layout.Fits m := by
  obtain ⟨a, -, -, -, -, hlayout⟩ := layout_openFunction h
  rw [hlayout] at hq
  replace hq : (p.layout.openScope site.step kind site.code (some f.id)).Fits m := hq
  exact ((fits_openScope hchain p.frames_ne_nil).1 hq).1

theorem fits_of_openCall {kind : CodeAddress → ScopeKind} (hchain : Chained p.layout.frames)
    (h : p.openCall src site kind = .ok q) (hq : q.layout.Fits m) : p.layout.Fits m := by
  obtain ⟨callee, -, hlayout⟩ := layout_openCall h
  rw [hlayout] at hq
  exact ((fits_openScope hchain p.frames_ne_nil).1 hq).1

theorem fits_closeCall (p : Pass) (lastStep : Nat) :
    (p.closeCall lastStep).layout.Fits m ↔ p.layout.Fits m := by
  rw [layout_closeCall]
  exact fits_close _ _ _

theorem fits_closeFunction (p : Pass) (lastStep : Nat) :
    (p.closeFunction lastStep).layout.Fits m ↔ p.layout.Fits m := by
  by_cases hnested : p.scopes.nested = []
  · rw [closeFunction, hnested]
  · rw [layout_closeFunction hnested]
    exact fits_close _ _ 1

/-- However a step leaves, no scope is gone after it. -/
theorem Leaves.fits {opened : Bool} (h : p.Leaves src site opened q)
    (hchain : Chained p.layout.frames) (hq : q.layout.Fits m) : p.layout.Fits m := by
  cases h with
  | comesBack => exact (fits_closeCall p _).1 hq
  | goesDeeper hback hdeeper hopen => exact fits_of_openCall hchain hopen hq
  | opened => exact hq
  | returns => exact (fits_closeFunction p _).1 hq
  | declares hback hdeeper hopened hreturn hlocals =>
    rcases hlocals with rfl | hlocals
    · exact hq
    · exact (alike_declareLocals hlocals).fits.1 hq

theorem guarded_enter {entry : Option Nat} {r : Pass} {opened : Bool}
    (hchain : Chained p.layout.frames) (hp : p.layout.Fits m)
    (h : p.enter src site entry = .ok (r, opened)) :
    Guarded m site.step (r.layout.Fits m) (p.enter (src.withLimit m) site entry) (r, opened) := by
  rw [enter] at h ⊢
  cases hf : entry.bind site.artifact.functionDefinition? with
  | none =>
    rw [hf] at h
    cases h
    exact .of_eq_ok rfl hp
  | some f =>
    rw [hf] at h
    dsimp only at h ⊢
    by_cases hbody : f.isConstructor
    · rw [if_pos hbody] at h ⊢
      cases h
      exact .of_eq_ok rfl hp
    · rw [if_neg hbody] at h ⊢
      cases hopen : p.openFunction src site f .internalFunction with
      | error e =>
        rw [hopen] at h
        cases h
      | ok s =>
        rw [hopen] at h
        cases h
        exact (guarded_openFunction hchain hp hopen).map _

theorem enter_chained {entry : Option Nat} {r : Pass} {opened : Bool}
    (hchain : Chained p.layout.frames) (h : p.enter src site entry = .ok (r, opened)) :
    Chained r.layout.frames := by
  rcases enter_cases h with ⟨rfl, -, -⟩ | ⟨f, -, -, -, hopen⟩
  · exact hchain
  · exact chained_openFunction hchain (by decide) hopen

theorem fits_of_finish (h : p.finish src site = .ok q) (hp : p.layout.Fits m) :
    q.layout.Fits m := by
  rw [finish] at h
  split_ifs at h
  · cases h
    exact (fits_closeFunction p _).2 hp
  · exact (alike_declareLocals h).fits.2 hp
  · cases h
    exact hp

theorem guarded_leave {opened : Bool} (hchain : Chained p.layout.frames) (hp : p.layout.Fits m)
    (h : p.leave src site opened = .ok q) :
    Guarded m site.step (q.layout.Fits m) (p.leave (src.withLimit m) site opened) q := by
  rw [leave] at h ⊢
  split_ifs at h ⊢
  · cases h
    exact .of_eq_ok rfl ((fits_closeCall p _).2 hp)
  · exact guarded_openCall hchain hp h
  · cases h
    exact .of_eq_ok rfl hp
  · exact .of_eq_ok h (fits_of_finish h hp)

theorem guarded_advance {entry : Option Nat} {gas : Nat} (hchain : Chained p.layout.frames)
    (hp : p.layout.Fits m) (h : p.advance src site entry gas = .ok q) :
    Guarded m site.step (q.layout.Fits m) (p.advance (src.withLimit m) site entry gas) q := by
  by_cases hcall : site.current.opcode.opensFrame ∧ site.goesDeeper
  · rw [advance_of_call hcall] at h ⊢
    rw [← layout_credit p gas] at hchain hp
    exact guarded_openCall hchain hp h
  · rw [advance_of_no_call hcall] at h ⊢
    obtain ⟨⟨r, opened⟩, hr, h⟩ := bind_eq_ok.1 h
    have hchain' : Chained (r.credit gas).layout.frames := by
      rw [layout_credit]
      exact enter_chained hchain hr
    refine (guarded_enter hchain hp hr).bind ?_ fun hroom => ?_
    · intro hq
      rw [← layout_credit r gas]
      exact (leaves_of_leave h).fits hchain' hq
    · rw [← layout_credit r gas] at hroom
      exact guarded_leave hchain' hroom h

theorem fits_of_advance {entry : Option Nat} {gas : Nat} (hchain : Chained p.layout.frames)
    (h : p.advance src site entry gas = .ok q) (hq : q.layout.Fits m) : p.layout.Fits m := by
  rcases advance_cases h with ⟨-, -, hopen⟩ | ⟨-, r, opened, hr, hleaves⟩
  · rw [← layout_credit p gas] at hchain ⊢
    exact fits_of_openCall hchain hopen hq
  · have hr' : r.layout.Fits m := by
      rw [← layout_credit r gas]
      refine hleaves.fits ?_ hq
      rw [layout_credit]
      exact enter_chained hchain hr
    rcases enter_cases hr with ⟨rfl, -, -⟩ | ⟨f, -, -, -, hopen⟩
    · exact hr'
    · exact fits_of_openFunction hchain hopen hr'

/-- Under another limit a step goes as before while all ids keep to it, and fails where one would
not. -/
theorem guarded_step (hchain : Chained p.layout.frames) (hp : p.layout.Fits m)
    (h : p.step src site = .ok q) :
    Guarded m site.step (q.layout.Fits m) (p.step (src.withLimit m) site) q := by
  have htaken := layout_taken p src site
  rcases step_cases h with ⟨r, hr, hadv⟩ | ⟨r, f, s, hr, hs, hadv⟩
  · have hr' : (p.arrive (src.withLimit m) site).takeAwaited site = (r, none) := hr
    rw [hr] at htaken
    rw [← htaken] at hchain hp
    rw [step_of_none hr']
    exact guarded_advance hchain hp hadv
  · have hr' : (p.arrive (src.withLimit m) site).takeAwaited site = (r, some f) := hr
    rw [hr] at htaken
    rw [← htaken] at hchain hp
    have hchain' := chained_openFunction hchain (by decide) hs
    rw [← layout_inside s site site.gas] at hchain'
    rw [step_of_some hr']
    refine (guarded_openFunction hchain hp hs).bind ?_ ?_
    · rw [← layout_inside s site site.gas]
      exact fits_of_advance hchain' hadv
    · rw [← layout_inside s site site.gas]
      exact fun hroom => guarded_advance hchain' hroom hadv

end Pass

/-! ### Scopes that open at the same step -/

section SameStep

variable {src : Sources} {site : Site} {c c' : Scene} {id : ScopeId}

/-- A step leaves behind what was there and at most the frame of a callee. -/
theorem isSome_of_leaves {entered : Bool} (h : c.Leaves src site entered c')
    (hid : (c'.tree.scopes id).isSome) : (c.tree.scopes id).isSome ∨ id = c.nextId := by
  cases h with
  | deeper => exact ((isSome_openScope id).1 hid).symm
  | back => exact .inl ((isSome_close c.toLayout site.step _ id).1 hid)
  | returns => exact .inl ((isSome_close c.toLayout site.step 1 id).1 hid)
  | stays => exact .inl hid

/-- The scopes that a step opens lie in one another, and all are around the place at which a callee
would open. -/
theorem Stage.contains_nextId {i : Nat} {p q : Pass} (st : Stage src i p q)
    (hbefore : ¬ (p.layout.tree.scopes id).isSome) (hafter : (q.layout.tree.scopes id).isSome) :
    id.contains st.inner.nextId := by
  obtain ⟨top, around, hframes⟩ := st.orderedInner.exists_frames
  have hopen : ∀ s ∈ st.inner.frames, s.id = id → id.contains st.inner.nextId := by
    rintro s hs rfl
    exact st.orderedInner.sound.linked.contains_nextId hframes hs
  rcases isSome_of_leaves st.parts.leaves hafter with hinner | rfl
  · obtain ⟨o, ho⟩ := Option.isSome_iff_exists.1 hinner
    rcases of_opensBody st.parts.enters ho with hinside | ⟨hentered, rfl, -⟩
    · rcases of_opensBody st.parts.builds hinside with hold | ⟨hbuilt, rfl, -⟩
      · exact absurd (Option.isSome_iff_exists.2 ⟨o, hold⟩) hbefore
      · obtain ⟨f, hf⟩ := Option.isSome_iff_exists.1 hbuilt
        obtain ⟨-, -, s, outer, hs, hid⟩ := exists_opensBody (hf ▸ st.parts.builds)
        obtain ⟨r, hr, hrid, -⟩ := Ordered.exists_mem_opensBody (s := s) (by simp [hs])
          st.parts.enters
        exact hopen r hr (hrid.trans hid)
    · obtain ⟨f, hf⟩ := Option.isSome_iff_exists.1 hentered
      obtain ⟨-, -, s, outer, hs, hid⟩ := exists_opensBody (hf ▸ st.parts.enters)
      exact hopen s (by simp [hs]) hid
  · exact ScopeId.contains_refl _

end SameStep

/-! ### Reconstructions under another limit -/

namespace History

variable {src : Sources} {t : CallTree} {pass : Nat → Pass} {m i j : Nat} {root : CodeAddress}
  {id : ScopeId} {s : Scope}

theorem chained (hist : History src t pass) (hi : i ≤ src.context.trace.length) :
    Chained (pass i).layout.frames := (hist.ordered hi).sound.linked.chained

theorem fits_of_le (hist : History src t pass) (hij : i ≤ j) (hj : j ≤ src.context.trace.length)
    (hfits : (pass j).layout.Fits m) : (pass i).layout.Fits m :=
  fun id hid => hfits id ((hist.grows hij hj).isSome hid)

theorem grows_end (hist : History src t pass) (hi : i ≤ src.context.trace.length) :
    (pass i).layout.tree.Grows i 0 t.skeleton :=
  ((hist.grows hi (le_refl _)).mono (le_refl _) (Nat.zero_le _)).trans
    ((hist.grows_finish i).mono (le_refl _) (Nat.zero_le _))

/-- All scopes of the finished tree are there after the last step. -/
theorem isSome_last (hist : History src t pass) (id : ScopeId) :
    ((pass src.context.trace.length).layout.tree.scopes id).isSome ↔ (t.scope? id).isSome := by
  constructor
  · intro h
    simpa [CallTree.skeleton, CallTree.scope?] using (hist.grows_end (le_refl _)).isSome h
  · intro h
    obtain ⟨s, hs⟩ := Option.isSome_iff_exists.1 h
    cases hlast : (pass src.context.trace.length).layout.tree.scopes id with
    | some o => rfl
    | none =>
      have ho := CallTree.outline_of_scope? rfl hs
      exact absurd ((hist.grows_finish (s.firstStep + 1)).fresh hlast ho).1
        (Nat.not_succ_le_self _)

/-- Under another limit the passes are the same as long as all ids keep to it. -/
theorem passBefore_withLimit (hist : History src t pass) (hroot : src.codeAt 0 = .ok root)
    (hi : i ≤ src.context.trace.length) (hfits : (pass i).layout.Fits m) :
    (src.withLimit m).passBefore root i = .ok (pass i) := by
  induction i with
  | zero => exact hist.passBefore_eq hroot hi
  | succ i ih =>
    have hfits' := hist.fits_of_le (Nat.le_succ i) hi hfits
    obtain ⟨st⟩ := hist.stage hi
    have hsite : (src.withLimit m).IsSite i st.site := st.isSite
    rw [Sources.passBefore, ih (Nat.le_of_succ_le hi) hfits']
    refine (stepAt_of_isSite hsite).trans ?_
    exact (Pass.guarded_step (hist.chained (Nat.le_of_succ_le hi)) hfits' st.steps).goes hfits

/-- It fails at the first step after which an id does not. -/
theorem passBefore_withLimit_eq_error (hist : History src t pass) (hroot : src.codeAt 0 = .ok root)
    (hi : i < src.context.trace.length) (hfits : (pass i).layout.Fits m)
    (hno : ¬ (pass (i + 1)).layout.Fits m) :
    (src.withLimit m).passBefore root (i + 1) = .error (.recursionLimitExceeded i m) := by
  obtain ⟨st⟩ := hist.stage hi
  have hsite : (src.withLimit m).IsSite i st.site := st.isSite
  rw [Sources.passBefore, hist.passBefore_withLimit hroot hi.le hfits]
  refine (stepAt_of_isSite hsite).trans ?_
  have hstops := (Pass.guarded_step (hist.chained hi.le) hfits st.steps).stops hno
  rwa [st.isSite.spec.1] at hstops

/-- Other scopes than the root open after the start. -/
theorem scopes_zero (hist : History src t pass) (hid : id ≠ .root) :
    (pass 0).layout.tree.scopes id = none := by
  obtain ⟨root, -, hstart⟩ := hist.start
  rw [hstart, Pass.layout_start, scopes_start, if_neg hid]

/-- A scope is there before a step exactly when it opened at an earlier one. -/
theorem isSome_iff (hist : History src t pass) (hs : t.scope? id = some s) (hid : id ≠ .root)
    (hi : i ≤ src.context.trace.length) :
    ((pass i).layout.tree.scopes id).isSome ↔ s.openingStep < i := by
  have ho := CallTree.outline_of_scope? rfl hs
  rw [Scope.openingStep]
  cases hbefore : (pass i).layout.tree.scopes id with
  | none =>
    obtain ⟨hle, hframe⟩ := (hist.grows_end hi).fresh hbefore ho
    simp only [Option.isSome_none, Bool.false_eq_true, false_iff, not_lt]
    split_ifs with hkind
    · exact Nat.le_sub_one_of_lt (hframe hkind)
    · exact hle
  | some o =>
    obtain ⟨o', ho', -, hkind, -, hfirst, -⟩ := (hist.grows_end hi).exists_kept hbefore
    rw [ho] at ho'
    cases ho'
    have hle := ((hist.ordered hi).sound.nested.early hbefore).1
    have hbegun := (hist.ordered hi).framed.begun hbefore
    rw [← hkind, ← hfirst] at hbegun
    rw [← hfirst] at hle
    replace hle : s.firstStep ≤ i := hle
    simp only [Option.isSome_some, true_iff]
    split_ifs with hframe
    · have hpos := ((hist.grows_end (Nat.zero_le _)).fresh (hist.scopes_zero hid) ho).2 hframe
      replace hpos : 0 < s.firstStep := hpos
      omega
    · exact hbegun hframe

/-- Of two scopes that open at the same step one is around the other. -/
theorem contains_of_openingStep_eq {r : Scope} {id' : ScopeId} (hist : History src t pass)
    (hs : t.scope? id = some s) (hr : t.scope? id' = some r) (hid : id ≠ .root) (hid' : id' ≠ .root)
    (hsame : s.openingStep = r.openingStep) : id.contains id' ∨ id'.contains id := by
  have hlast : s.openingStep < src.context.trace.length :=
    (hist.isSome_iff hs hid (le_refl _)).1 ((hist.isSome_last id).2 (by simp [hs]))
  obtain ⟨st⟩ := hist.stage hlast
  refine ScopeId.contains_total (st.contains_nextId ?_ ?_) (st.contains_nextId ?_ ?_)
  · rw [hist.isSome_iff hs hid hlast.le]
    exact lt_irrefl _
  · rw [hist.isSome_iff hs hid hlast]
    exact Nat.lt_succ_self _
  · rw [hist.isSome_iff hr hid' hlast.le, hsame]
    exact lt_irrefl _
  · rw [hist.isSome_iff hr hid' hlast, hsame]
    exact Nat.lt_succ_self _

theorem fits_last_iff (hist : History src t pass) :
    (pass src.context.trace.length).layout.Fits m ↔ t.height ≤ max m 1 := by
  rw [CallTree.height_le_iff]
  exact forall_congr' fun id => by rw [hist.isSome_last]

end History

theorem ne_root_of_length {id : ScopeId} {m : Nat} (h : max m 1 < id.path.length) : id ≠ .root := by
  rintro rfl
  exact absurd (Nat.le_max_right m 1) (Nat.not_le.2 h)

/-- Where not all ids keep to the limit there is a first scope whose id does not. -/
theorem History.exists_first {src : Sources} {t : CallTree} {pass : Nat → Pass} {m : Nat}
    (hist : History src t pass) (wf : t.WellFormed) (hm : max m 1 < t.height) :
    ∃ s, t.scope? s.id = some s ∧ max m 1 < s.id.path.length ∧
      ∀ r, t.scope? r.id = some r → max m 1 < r.id.path.length → r = s ∨ s.OpensBefore r := by
  let tooDeep : Set Scope := { s | t.scope? s.id = some s ∧ max m 1 < s.id.path.length }
  have hsome : tooDeep.Nonempty := by
    have hno := mt CallTree.height_le_iff.2 (Nat.not_le.2 hm)
    push Not at hno
    obtain ⟨id, hid, hlength⟩ := hno
    obtain ⟨s, hs⟩ := Option.isSome_iff_exists.1 hid
    obtain rfl := wf.keyed hs
    exact ⟨s, hs, hlength⟩
  -- Of those that open first the outermost one is taken.
  let order : Scope → Lex (Nat × Nat) := fun s => toLex (s.openingStep, s.id.path.length)
  obtain ⟨hs, hlength⟩ := Function.argminOn_mem order tooDeep hsome
  refine ⟨Function.argminOn order tooDeep hsome, hs, hlength, fun r hr hrlength => ?_⟩
  have hle := Function.argminOn_le order tooDeep (show r ∈ tooDeep from ⟨hr, hrlength⟩)
  generalize Function.argminOn order tooDeep hsome = s at hs hlength hle ⊢
  rcases Prod.Lex.toLex_le_toLex.1 hle with hlt | ⟨hsame, hshort⟩
  · exact .inr (.inl hlt)
  · by_cases hid : s.id = r.id
    · rw [hid, hr] at hs
      exact .inl (Option.some.inj hs)
    · rcases hist.contains_of_openingStep_eq hs hr (ne_root_of_length hlength)
        (ne_root_of_length hrlength) hsame with hin | hin
      · exact .inr (.inr ⟨hsame, ScopeId.isAncestorOf_iff.2 ⟨hin, hid⟩⟩)
      · have hpath := (ScopeId.contains_iff.1 hin).eq_of_length_le hshort
        exact absurd (ScopeId.ext_path hpath).symm hid

/-- The limit on open scopes is nothing but a guard. Let a reconstruction end in a tree. Under any
other limit that the ids of the tree keep to, or when there is no scope but the root, it ends in the
same tree. Under all others it fails at the step at which the first scope opens whose id is longer
than the limit allows. -/
theorem build_withLimit (src : Sources) (t : CallTree) (m : Nat) (h : src.build = .ready t) :
    (t.height ≤ m ∨ t.height = 1 → (src.withLimit m).build = .ready t) ∧
      (¬ (t.height ≤ m ∨ t.height = 1) → ∃ s, t.scope? s.id = some s ∧
        max m 1 < s.id.path.length ∧
        (∀ r, t.scope? r.id = some r → max m 1 < r.id.path.length → r = s ∨ s.OpensBefore r) ∧
        (src.withLimit m).build = .failed (.recursionLimitExceeded s.openingStep m)) := by
  obtain ⟨pass, hist⟩ := exists_history h
  obtain ⟨wf, -, -⟩ := wellFormed_of_build h
  obtain ⟨root, hstarts⟩ := hist.starts
  have hne : (src.withLimit m).context.trace.steps ≠ [] := hist.nonempty
  have hstarts' : (src.withLimit m).Starts root := hstarts
  have hpos : 1 ≤ t.height := by
    obtain ⟨s, hs, -⟩ := wf.root
    exact CallTree.height_le_iff.1 (le_refl _) .root (Option.isSome_iff_exists.2 ⟨s, hs⟩)
  refine ⟨fun hheight => ?_, fun hheight => ?_⟩
  · have hfits := hist.fits_last_iff.2 (show t.height ≤ max m 1 by omega)
    have hpass := hist.passBefore_withLimit hstarts.1 (le_refl _) hfits
    rw [← hist.finish]
    exact build_of_passBefore hne hstarts' hpass
  · obtain ⟨s, hs, hlength, hfirst⟩ := hist.exists_first wf (show max m 1 < t.height by omega)
    have hid := ne_root_of_length hlength
    have hlast : s.openingStep < src.context.trace.length :=
      (hist.isSome_iff hs hid (le_refl _)).1 ((hist.isSome_last _).2 (by simp [hs]))
    refine ⟨s, hs, hlength, hfirst, ?_⟩
    have hbefore : (pass s.openingStep).layout.Fits m := by
      intro id hin
      by_contra hlong
      rw [not_le] at hlong
      obtain ⟨r, hr⟩ := Option.isSome_iff_exists.1 ((hist.isSome_last id).1
        ((hist.grows hlast.le (le_refl _)).isSome hin))
      obtain rfl := wf.keyed hr
      rw [hist.isSome_iff hr (ne_root_of_length hlong) hlast.le] at hin
      rcases hfirst r hr hlong with rfl | hlt | ⟨heq, -⟩
      · exact lt_irrefl _ hin
      · exact lt_asymm hlt hin
      · exact heq.not_gt hin
    have hafter : ¬ (pass (s.openingStep + 1)).layout.Fits m := by
      intro hfits
      refine absurd (hfits s.id ?_) (Nat.not_le.2 hlength)
      rw [hist.isSome_iff hs hid hlast]
      exact Nat.lt_succ_self _
    exact build_of_passBefore_error hne hstarts' hlast
      (hist.passBefore_withLimit_eq_error hstarts.1 hlast hbefore hafter)

/-- The trace of a call inside a function has scopes of four ordinals. Where only two may be open
there is no room for the frame of the callee, which opens at the call. -/
theorem build_withLimit_call : ∃ t s, callSources.build = .ready t ∧
    (callSources.withLimit 4).build = .ready t ∧ t.scope? s.id = some s ∧ 2 < s.id.path.length ∧
      (∀ r, t.scope? r.id = some r → 2 < r.id.path.length → r = s ∨ s.OpensBefore r) ∧
      (callSources.withLimit 2).build = .failed (.recursionLimitExceeded s.openingStep 2) := by
  have hheight : callSources.build.tree?.any fun t => t.height == 4 := by decide +kernel
  obtain ⟨t, ht⟩ := Outcome.exists_of_isReady isReady_call
  rw [ht] at hheight
  replace hheight : t.height = 4 := by simpa [Outcome.tree?] using hheight
  obtain ⟨s, hs, hlength, hfirst, hfailed⟩ :=
    (build_withLimit callSources t 2 ht).2 (by simp [hheight])
  exact ⟨t, s, ht, (build_withLimit callSources t 4 ht).1 (by simp [hheight]), hs, hlength, hfirst,
    hfailed⟩

end Build

end TraceTree
