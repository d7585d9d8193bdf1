import Mathlib.Order.Bounds.Defs
import TraceTree.Proofs.Build.Constructors
import TraceTree.Proofs.Build.LastValid
import TraceTree.Proofs.Build.Records

/-!
The breakpoints of a trace. Every open scope tracks the range of the last breakpoint in it, also
while others are open inside of it, and a step that stays in the range of the scope in which it is
processed adds none. Main statement: the breakpoints ascend from the first step on, the queries
answer with the nearest ones, and a step that is none lies in the range of an earlier breakpoint in
its scope, with all steps in between that are processed there (`build_breakpoints`).
-/
namespace TraceTree

/-! ### Nearest breakpoints -/

namespace CallTree

/-- The scopes in which a step is processed: the innermost that is open before the step, and that of
a constructor which opens at it. -/
def ProcessedIn (t : CallTree) (step : Nat) (d : Scope) : Prop :=
  t.InnermostBefore step d ∨
    t.scope? d.id = some d ∧ d.kind = .constructor ∧ d.firstStep = step

section Nearest

variable {t : CallTree} {b step : Nat}

theorem nextBreakpoint?_eq_some_iff (h : t.reducedTrace.toList.Pairwise (· < ·)) :
    t.nextBreakpoint? step = some b ↔ IsLeast {x | x ∈ t.reducedTrace.toList ∧ step < x} b := by
  rw [nextBreakpoint?, List.find?_eq_some_iff_append]
  constructor
  · rintro ⟨hlt, before, after, hsplit, hbefore⟩
    rw [hsplit, List.pairwise_append, List.pairwise_cons] at h
    refine ⟨⟨by simp [hsplit], of_decide_eq_true hlt⟩, ?_⟩
    rintro x ⟨hmem, hx⟩
    rw [hsplit, List.mem_append, List.mem_cons] at hmem
    rcases hmem with hmem | rfl | hmem
    · have := hbefore x hmem
      simp only [Bool.not_eq_true', decide_eq_false_iff_not] at this
      exact absurd hx this
    · exact le_refl _
    · exact (h.2.1.1 x hmem).le
  · rintro ⟨⟨hmem, hlt⟩, hleast⟩
    obtain ⟨before, after, hsplit⟩ := List.append_of_mem hmem
    refine ⟨decide_eq_true hlt, before, after, hsplit, ?_⟩
    intro x hx
    rw [hsplit, List.pairwise_append] at h
    have hxb := h.2.2 x hx b List.mem_cons_self
    simp only [Bool.not_eq_true', decide_eq_false_iff_not]
    intro hstep
    have hle := hleast ⟨by simp [hsplit, hx], hstep⟩
    omega

theorem nextBreakpoint?_eq_none_iff :
    t.nextBreakpoint? step = none ↔ ∀ x ∈ t.reducedTrace.toList, ¬ step < x := by
  rw [nextBreakpoint?, List.find?_eq_none]
  simp

theorem previousBreakpoint?_eq (h : t.reducedTrace.toList.Pairwise (· < ·)) (step : Nat) :
    t.previousBreakpoint? step = (t.reducedTrace.toList.filter (· < step)).getLast? := by
  rw [previousBreakpoint?, SortedMap.takeWhile_eq_filter]
  refine h.imp fun hab hb => ?_
  rw [decide_eq_true_eq] at hb ⊢
  exact hab.trans hb

theorem previousBreakpoint?_eq_some_iff (h : t.reducedTrace.toList.Pairwise (· < ·)) :
    t.previousBreakpoint? step = some b ↔
      IsGreatest {x | x ∈ t.reducedTrace.toList ∧ x < step} b := by
  have hmem : ∀ x, x ∈ t.reducedTrace.toList.filter (· < step) ↔
      x ∈ t.reducedTrace.toList ∧ x < step := by simp
  rw [previousBreakpoint?_eq h, List.getLast?_eq_some_iff]
  have hsorted := h.filter (p := (· < step))
  constructor
  · rintro ⟨before, hsplit⟩
    have hb := (hmem b).1 (by simp [hsplit])
    refine ⟨hb, fun x hx => ?_⟩
    have hin := (hmem x).2 hx
    rw [hsplit] at hin hsorted
    rcases List.mem_append.1 hin with hin | hin
    · exact ((List.pairwise_append.1 hsorted).2.2 x hin b List.mem_cons_self).le
    · exact (List.mem_singleton.1 hin).le
  · rintro ⟨hb, hgreatest⟩
    obtain ⟨before, after, hsplit⟩ := List.append_of_mem ((hmem b).2 hb)
    rw [hsplit] at hsorted
    cases after with
    | nil => exact ⟨before, hsplit⟩
    | cons x after =>
      have hlt := (List.pairwise_cons.1 (List.pairwise_append.1 hsorted).2.1).1 x List.mem_cons_self
      have hle := hgreatest ((hmem x).1 (by simp [hsplit]))
      omega

theorem previousBreakpoint?_eq_none_iff (h : t.reducedTrace.toList.Pairwise (· < ·)) :
    t.previousBreakpoint? step = none ↔ ∀ x ∈ t.reducedTrace.toList, ¬ x < step := by
  rw [previousBreakpoint?_eq h, List.getLast?_eq_none_iff, List.filter_eq_nil_iff]
  simp

end Nearest

end CallTree

namespace Build

/-! ### What open scopes track -/

namespace Pass

/-- The open scopes from the inside out, each with the range that it tracks. -/
def tracks (p : Pass) : List (ScopeId × Option SourceLocation) :=
  p.scopes.toList.map fun s => (s.id, s.tracked)

variable {p q r : Pass} {src : Sources} {site : Site} {e : ScopeId × Option SourceLocation}

theorem tracks_cons (p : Pass) : ∃ around, p.tracks = (p.scope, p.scopes.top.tracked) :: around := by
  obtain ⟨around, h⟩ := p.scopes.toList_eq
  exact ⟨around.map fun s => (s.id, s.tracked), by rw [tracks, h]; rfl⟩

theorem map_tracks (p : Pass) : p.tracks.map (·.1) = p.layout.frames.map Frame.id := by
  rw [tracks, layout, List.map_map, List.map_map]
  rfl

theorem tracks_modifyScope (p : Pass) {f : OpenScope → OpenScope}
    (hf : ∀ s, (f s).id = s.id ∧ (f s).tracked = s.tracked) : (p.modifyScope f).tracks = p.tracks := by
  obtain ⟨around, h⟩ := p.scopes.toList_eq
  rw [tracks, tracks, modifyScope, ScopeStack.toList_modifyTop, h]
  simp [hf]

theorem tracks_noteValid (p : Pass) (site : Site) : (p.noteValid site).tracks = p.tracks := by
  rw [noteValid]
  split
  · exact p.tracks_modifyScope fun _ => ⟨rfl, rfl⟩
  · rfl

theorem tracks_observe (p : Pass) (src : Sources) (site : Site) :
    (p.observe src site).tracks = p.tracks := tracks_noteValid _ site

theorem tracks_await (p : Pass) (site : Site) : (p.await site).tracks = p.tracks := by
  rw [await]
  split
  · split <;> rfl
  · rfl

theorem tracks_takeAwaited (p : Pass) (site : Site) : (p.takeAwaited site).1.tracks = p.tracks := by
  rw [takeAwaited]
  split
  · rfl
  · split
    · rfl
    · dsimp only
      split <;> rfl

theorem tracks_openScope {step firstStep : Nat} {kind : ScopeKind} {code : CodeAddress}
    {function : Option Nat} (h : p.openScope src step firstStep kind code function = .ok q) :
    q.tracks = (p.layout.nextId, none) :: p.tracks := by
  rw [nextId_layout]
  rw [openScope] at h
  split at h
  · cases h
  · cases h
    exact congrArg _ (p.tracks_modifyScope (f := fun s => { s with children := s.children + 1 })
      fun _ => ⟨rfl, rfl⟩)

theorem tracks_openFunction {f : FunctionDefinition} {kind : ScopeKind}
    (h : p.openFunction src site f kind = .ok q) :
    q.tracks = (p.layout.nextId, none) :: p.tracks := by
  obtain ⟨r, hopen, h⟩ := bind_eq_ok.1 h
  obtain ⟨n, -, h⟩ := bind_eq_ok.1 h
  cases h
  have hopened : r.tracks = (p.layout.nextId, none) :: p.tracks := tracks_openScope hopen
  exact hopened

theorem mem_tracks_openCall {kind : CodeAddress → ScopeKind} (h : p.openCall src site kind = .ok q)
    (he : e ∈ q.tracks) : e.2 = none ∨ e ∈ p.tracks := by
  obtain ⟨callee, -, h⟩ := bind_eq_ok.1 h
  rw [tracks_openScope h] at he
  rcases List.mem_cons.1 he with rfl | he
  · exact .inl rfl
  · exact .inr he

theorem mem_tracks_closeCall {lastStep : Nat} (he : e ∈ (p.closeCall lastStep).tracks) :
    e ∈ p.tracks := by
  have hsplit : p.scopes.toList = (ScopeStack.splitCall p.scopes.nested).1 ++
      ((ScopeStack.splitCall p.scopes.nested).2 ++ [p.scopes.root]) := by
    rw [← List.append_assoc, ScopeStack.splitCall_append, ScopeStack.toList]
  rw [tracks, hsplit, List.map_append]
  exact List.mem_append_right _ he

theorem mem_tracks_closeFunction {lastStep : Nat} (he : e ∈ (p.closeFunction lastStep).tracks) :
    e ∈ p.tracks := by
  rw [closeFunction] at he
  split at he
  · exact he
  · rename_i inner outer hnested
    have hin : p.tracks = (inner.id, inner.tracked) ::
        ({ p with scopes := { p.scopes with nested := outer } } : Pass).tracks := by
      rw [tracks, ScopeStack.toList, hnested]
      rfl
    rw [hin]
    dsimp only at he
    split at he
    · rename_i l _
      have hhanded : ∀ r : Pass,
          (r.modifyScope fun s => { s with lastValid := some l }).tracks = r.tracks :=
        fun r => r.tracks_modifyScope fun _ => ⟨rfl, rfl⟩
      rw [hhanded] at he
      exact List.mem_cons_of_mem _ he
    · exact List.mem_cons_of_mem _ he

theorem tracks_declareLocals (h : p.declareLocals src site = .ok q) : q.tracks = p.tracks := by
  rw [declareLocals] at h
  split at h
  · cases h
    rfl
  · obtain ⟨n, -, h⟩ := bind_eq_ok.1 h
    cases h
    rfl

/-- While a step advances no range comes up that was not tracked. -/
theorem mem_tracks_advance {entry : Option Nat} {gas : Nat}
    (h : p.advance src site entry gas = .ok q) (he : e ∈ q.tracks) : e.2 = none ∨ e ∈ p.tracks := by
  rcases advance_cases h with ⟨-, -, hopen⟩ | ⟨-, r, opened, henter, hleaves⟩
  · have hcalled : e.2 = none ∨ e ∈ (p.credit gas).tracks := mem_tracks_openCall hopen he
    exact hcalled
  · have hentered : e ∈ (r.credit gas).tracks → e.2 = none ∨ e ∈ p.tracks := by
      intro he
      rcases enter_cases henter with ⟨rfl, -⟩ | ⟨f, -, -, -, hopen⟩
      · exact .inr he
      · replace he : e ∈ r.tracks := he
        rw [tracks_openFunction hopen] at he
        rcases List.mem_cons.1 he with rfl | he
        · exact .inl rfl
        · exact .inr he
    cases hleaves with
    | comesBack => exact hentered (mem_tracks_closeCall he)
    | goesDeeper _ _ hopen => exact (mem_tracks_openCall hopen he).elim .inl hentered
    | opened => exact hentered he
    | returns => exact hentered (mem_tracks_closeFunction he)
    | declares _ _ _ _ hlocals =>
      rcases hlocals with rfl | hlocals
      · exact hentered he
      · rw [tracks_declareLocals hlocals] at he
        exact hentered he

/-- A step that lies in the range of its scope leaves it; else it is a breakpoint and its own range
is tracked from then on. -/
theorem track_cases (p : Pass) (site : Site) :
    ((∃ range, p.scopes.top.tracked = some range ∧ range.includes site.raw) ∧ p.track site = p) ∨
      site.step ∈ (p.track site).tree.reducedTrace ∧ ∀ around,
        p.tracks = (p.scope, p.scopes.top.tracked) :: around →
          (p.track site).tracks = (p.scope, some site.raw) :: around := by
  rw [track]
  split
  · rename_i hany
    exact .inl ⟨(Option.any_eq_true _ _).1 hany, rfl⟩
  · refine .inr ⟨?_, ?_⟩
    · show site.step ∈ (p.tree.addBreakpoint site.step).reducedTrace
      rw [CallTree.addBreakpoint]
      split
      · rename_i hback
        exact Array.mem_of_back? hback
      · exact Array.mem_push_self
    · intro around haround
      obtain ⟨others, h⟩ := p.scopes.toList_eq
      rw [tracks, h, List.map_cons, List.cons.injEq] at haround
      rw [tracks, modifyScope, ScopeStack.toList_modifyTop, h, List.modifyHead_cons, List.map_cons,
        haround.2]
      rfl

/-- Before a step advances or opens a constructor, it stays in the range of its scope, or it is a
breakpoint and its own range is tracked. -/
theorem taken_cases {built : Option FunctionDefinition}
    (h : (p.arrive src site).takeAwaited site = (r, built)) :
    ((∃ range, p.scopes.top.tracked = some range ∧ range.includes site.raw) ∧
        r.tracks = p.tracks) ∨
      site.step ∈ r.tree.reducedTrace ∧ ∀ around,
        p.tracks = (p.scope, p.scopes.top.tracked) :: around →
          r.tracks = (p.scope, some site.raw) :: around := by
  have hobserve := p.tracks_observe src site
  obtain ⟨around, hp⟩ := p.tracks_cons
  obtain ⟨others, ho⟩ := (p.observe src site).tracks_cons
  rw [hobserve, hp, List.cons.injEq, Prod.mk.injEq] at ho
  obtain ⟨⟨hscope, htracked⟩, hothers⟩ := ho
  have hr : r = ((p.arrive src site).takeAwaited site).1 := (congrArg Prod.fst h).symm
  have htracks : r.tracks = ((p.observe src site).track site).tracks := by
    rw [hr, tracks_takeAwaited, arrive, tracks_await]
  have hreduced : r.tree.reducedTrace = ((p.observe src site).track site).tree.reducedTrace := by
    rw [hr, reducedTrace_takeAwaited, arrive, (sameRecords_await _ site).reducedTrace]
  rw [htracks, hreduced, htracked]
  rcases (p.observe src site).track_cases site with ⟨hrange, hsame⟩ | ⟨hmem, hrange⟩
  · exact .inl ⟨hrange, by rw [hsame, hobserve]⟩
  · refine .inr ⟨hmem, fun around haround => ?_⟩
    rw [hscope] at haround ⊢
    exact hrange around (hobserve.trans haround)

/-- What a step does to the ranges that are tracked: those that it leaves are tracked on, as long as
it lies in that of its scope, and one that comes up is its own. -/
structure Tracks (p q : Pass) (site : Site) (built : Option FunctionDefinition) : Prop where
  stays : site.step ∈ q.tree.reducedTrace ∨
    built = none ∧ ∃ range, p.scopes.top.tracked = some range ∧ range.includes site.raw
  tracked : ∀ {id range}, (id, some range) ∈ q.tracks →
    ((id, some range) ∈ p.tracks ∧ (id = p.scope → range.includes site.raw)) ∨
      range = site.raw ∧ site.step ∈ q.tree.reducedTrace ∧
        (id = p.scope ∨ built.isSome ∧ id = p.layout.nextId)

theorem tracks_taken {built : Option FunctionDefinition} (hnodup : (p.tracks.map (·.1)).Nodup)
    (h : (p.arrive src site).takeAwaited site = (r, built)) : Tracks p r site none := by
  obtain ⟨around, hp⟩ := p.tracks_cons
  rw [hp, List.map_cons, List.nodup_cons] at hnodup
  have hscope : ∀ {o}, (p.scope, o) ∉ around := fun hmem =>
    hnodup.1 (List.mem_map.2 ⟨_, hmem, rfl⟩)
  rcases taken_cases h with ⟨hrange, hsame⟩ | ⟨hmem, hnew⟩
  · refine ⟨.inr ⟨rfl, hrange⟩, fun {id range} he => .inl ?_⟩
    rw [hsame] at he
    refine ⟨he, ?_⟩
    rintro rfl
    rw [hp] at he
    rcases List.mem_cons.1 he with he | he
    · obtain ⟨range', hrange', hincludes⟩ := hrange
      rw [← (Prod.mk.inj he).2] at hrange'
      cases hrange'
      exact hincludes
    · exact absurd he hscope
  · refine ⟨.inl hmem, fun {id range} he => ?_⟩
    rw [hnew around hp] at he
    rcases List.mem_cons.1 he with he | he
    · cases he
      exact .inr ⟨rfl, hmem, .inl rfl⟩
    · refine .inl ⟨by simp [hp, he], ?_⟩
      rintro rfl
      exact absurd he hscope

theorem Tracks.advance {s : Pass} {built : Option FunctionDefinition} {entry : Option Nat} {gas : Nat}
    (h : Tracks p s site built) (hadv : s.advance src site entry gas = .ok q) :
    Tracks p q site built where
  stays := by
    rw [(sameRecords_advance hadv).reducedTrace]
    exact h.stays
  tracked he := by
    rw [(sameRecords_advance hadv).reducedTrace]
    rcases mem_tracks_advance hadv he with hnone | he
    · cases hnone
    · exact h.tracked he

/-- The scope of a constructor tracks the range of the step that it opens at. -/
theorem Tracks.construct {s : Pass} {f : FunctionDefinition} (h : Tracks p r site none)
    (hlayout : r.layout = p.layout) (hopen : r.openFunction src site f .constructor = .ok s) :
    Tracks p (((s.credit site.gas).noteValid site).track site) site (some f) := by
  have hs := tracks_openFunction hopen
  rw [hlayout] at hs
  let inside := (s.credit site.gas).noteValid site
  have hinside : inside.tracks = (p.layout.nextId, none) :: r.tracks :=
    (tracks_noteValid _ site).trans hs
  obtain ⟨around, hcons⟩ := inside.tracks_cons
  have hhead := hcons
  rw [hinside, List.cons.injEq, Prod.mk.injEq] at hhead
  obtain ⟨⟨hid, hnone⟩, rfl⟩ := hhead
  rcases inside.track_cases site with ⟨⟨range, hrange, -⟩, -⟩ | ⟨hmem, hnew⟩
  · rw [← hnone] at hrange
    cases hrange
  · refine ⟨.inl hmem, fun {id range} he => ?_⟩
    rw [hnew _ hcons] at he
    rcases List.mem_cons.1 he with he | he
    · cases he
      exact .inr ⟨rfl, hmem, .inr ⟨rfl, hid.symm⟩⟩
    · rcases h.tracked he with hold | ⟨hraw, -, hscope⟩
      · exact .inl hold
      · exact .inr ⟨hraw, hmem, hscope.elim .inl fun hbuilt => absurd hbuilt.1 (by simp)⟩

end Pass

theorem Stage.tracks {src : Sources} {i : Nat} {p q : Pass} (st : Stage src i p q) :
    Pass.Tracks p q st.site st.built := by
  have hnodup : (p.tracks.map (·.1)).Nodup := by
    rw [p.map_tracks]
    exact st.ordered.sound.linked.chained.nodup
  have htaken := Pass.tracks_taken hnodup st.takes
  have hlayout : st.taken.layout = p.layout := by
    have hlayout := Pass.layout_taken p src st.site
    rwa [st.takes] at hlayout
  rcases Pass.step_cases st.steps with ⟨r, hr, hadv⟩ | ⟨r, f, s, hr, hs, hadv⟩
  · obtain ⟨rfl, hbuilt⟩ := Prod.mk.inj (st.takes.symm.trans hr)
    rw [hbuilt]
    exact htaken.advance hadv
  · obtain ⟨rfl, hbuilt⟩ := Prod.mk.inj (st.takes.symm.trans hr)
    rw [hbuilt]
    exact (htaken.construct hlayout hs).advance hadv

/-! ### Where steps are processed -/

section Processed

variable {src : Sources} {tree : CallTree} {pass : Nat → Pass} {step i : Nat} {d : Scope}

theorem ProcessedIn.found (h : tree.ProcessedIn step d) : tree.scope? d.id = some d :=
  h.elim (·.found) (·.1)

theorem ProcessedIn.unique {d' : Scope} (h : tree.ProcessedIn step d)
    (h' : tree.ProcessedIn i d') (hid : d'.id = d.id) : d' = d := by
  have hfound := ProcessedIn.found h'
  rw [hid, ProcessedIn.found h] at hfound
  exact (Option.some.inj hfound).symm

/-- A step is processed in the innermost open scope of the pass, and in the one that it opens for a
constructor. -/
theorem History.processedIn_iff (hist : History src tree pass) (wf : tree.WellFormed)
    (hstep : step < src.context.trace.length)
    (st : Stage src step (pass step) (pass (step + 1))) (hd : tree.scope? d.id = some d) :
    tree.ProcessedIn step d ↔ d.id = (pass step).scope ∨
      st.built.isSome ∧ d.id = (pass step).layout.nextId := by
  obtain ⟨c, hc, hcid⟩ := hist.exists_innermostBefore hstep
  constructor
  · rintro (hinner | ⟨-, hkind, hfirst⟩)
    · refine .inl (hcid ▸ ScopeId.contains_antisymm ?_ ?_)
      · exact hc.deepest hd hinner.opened
      · exact hinner.deepest hc.found hc.opened
    · have hbody : ¬ d.kind.isFrame := by
        rw [hkind]
        decide
      rcases hist.opened_of_starts hstep st hd hbody hfirst with ⟨hbuilt, -, hid⟩ | ⟨-, hno, -⟩
      · exact .inr ⟨hbuilt, hid⟩
      · rw [hkind] at hno
        cases hno
  · rintro (hid | ⟨hbuilt, hid⟩)
    · have hfound := hc.found
      rw [hcid, ← hid, hd] at hfound
      cases hfound
      exact .inl hc
    · obtain ⟨g, hg⟩ := Option.isSome_iff_exists.1 hbuilt
      obtain ⟨r, hr, hfirst, -, hrid⟩ := hist.exists_constructorScope wf hstep st hg
      have hfound := hr.found
      rw [hrid, ← hid, hd] at hfound
      cases hfound
      exact .inr ⟨hd, hr.kind, hfirst⟩

theorem History.exists_processedIn (hist : History src tree pass) (wf : tree.WellFormed)
    (hstep : step < src.context.trace.length)
    (st : Stage src step (pass step) (pass (step + 1))) {id : ScopeId}
    (hid : id = (pass step).scope ∨ st.built.isSome ∧ id = (pass step).layout.nextId) :
    ∃ d, tree.ProcessedIn step d ∧ d.id = id := by
  rcases hid with rfl | ⟨hbuilt, rfl⟩
  · obtain ⟨d, hd, hid⟩ := hist.exists_innermostBefore hstep
    exact ⟨d, .inl hd, hid⟩
  · obtain ⟨g, hg⟩ := Option.isSome_iff_exists.1 hbuilt
    obtain ⟨d, hd, hfirst, -, hid⟩ := hist.exists_constructorScope wf hstep st hg
    exact ⟨d, .inr ⟨hd.found, hd.kind, hfirst⟩, hid⟩

/-! ### Breakpoints over all steps -/

theorem History.reducedTrace_lt (hist : History src tree pass) (hi : i ≤ src.context.trace.length) :
    ∀ x ∈ (pass i).tree.reducedTrace.toList, x < i := by
  rw [← hist.filter_reducedTrace hi]
  intro x hx
  exact of_decide_eq_true (List.mem_filter.1 hx).2

theorem History.reducedTrace_ascending (hist : History src tree pass)
    (hi : i ≤ src.context.trace.length) :
    (pass i).tree.reducedTrace.toList.Pairwise (· < ·) := by
  induction i with
  | zero =>
    obtain ⟨root, -, hstart⟩ := hist.start
    rw [hstart]
    exact .nil
  | succ i ih =>
    obtain ⟨st⟩ := hist.stage hi
    have hle := Nat.le_of_succ_le hi
    rcases Pass.reducedTrace_step st.steps with hsame | hpush
    · rw [hsame]
      exact ih hle
    · rw [hpush, st.isSite.spec.1, Array.toList_push]
      refine List.pairwise_append.2 ⟨ih hle, List.pairwise_singleton _ _, fun x hx y hy => ?_⟩
      rw [List.mem_singleton.1 hy]
      exact hist.reducedTrace_lt hle x hx

/-- The breakpoints of a pass are those of the finished tree before its step. -/
theorem History.mem_reducedTrace_iff (hist : History src tree pass)
    (hi : i ≤ src.context.trace.length) {b : Nat} :
    b ∈ (pass i).tree.reducedTrace ↔ b ∈ tree.reducedTrace ∧ b < i := by
  rw [← Array.mem_toList_iff, ← hist.filter_reducedTrace hi, List.mem_filter, Array.mem_toList_iff,
    decide_eq_true_eq]

/-- The range that a scope tracks is that of an earlier breakpoint in it, and takes all steps in it
from there on. -/
theorem History.range_of_tracks (hist : History src tree pass) (wf : tree.WellFormed)
    (hi : i ≤ src.context.trace.length) {id : ScopeId} {range : SourceLocation}
    (he : (id, some range) ∈ (pass i).tracks) : ∃ b origin,
      b < i ∧ b ∈ tree.reducedTrace ∧ src.IsSite b origin ∧ origin.raw = range ∧
        (∃ d, tree.ProcessedIn b d ∧ d.id = id) ∧
        ∀ u site d, b < u → u < i → src.IsSite u site → tree.ProcessedIn u d → d.id = id →
          range.includes site.raw := by
  induction i generalizing id range with
  | zero =>
    obtain ⟨root, -, hstart⟩ := hist.start
    rw [hstart] at he
    cases List.mem_singleton.1 he
  | succ i ih =>
    obtain ⟨st⟩ := hist.stage hi
    have hstep : st.site.step = i := st.isSite.spec.1
    rcases st.tracks.tracked he with ⟨hold, hincludes⟩ | ⟨rfl, hmem, hid⟩
    · obtain ⟨b, origin, hlt, hb, horigin, hraw, hin, hcovers⟩ := ih (Nat.le_of_succ_le hi) hold
      refine ⟨b, origin, hlt.trans (Nat.lt_succ_self i), hb, horigin, hraw, hin, ?_⟩
      intro u site d hbu hui hsite hd hdid
      rcases Nat.lt_succ_iff_lt_or_eq.1 hui with hlt | rfl
      · exact hcovers u site d hbu hlt hsite hd hdid
      · rw [hsite.unique st.isSite]
        refine hincludes ?_
        rcases (hist.processedIn_iff wf hi st (ProcessedIn.found hd)).1 hd with hscope | ⟨-, hnext⟩
        · exact hdid.symm.trans hscope
        · -- The scope that opens for a constructor was not open before.
          have hframe : id ∈ (pass u).layout.frames.map Frame.id := by
            rw [← Pass.map_tracks]
            exact List.mem_map.2 ⟨_, hold, rfl⟩
          obtain ⟨f, hf, rfl⟩ := List.mem_map.1 hframe
          exact absurd (hdid.symm.trans hnext) (Framed.ne_nextId st.ordered.sound hf)
    · rw [hstep, hist.mem_reducedTrace_iff hi] at hmem
      refine ⟨i, st.site, Nat.lt_succ_self i, hmem.1, st.isSite, rfl,
        hist.exists_processedIn wf hi st hid, ?_⟩
      intro u site d hiu hui
      omega

/-- A step that is no breakpoint lies in the range of an earlier breakpoint in its scope, and so do
all steps in between that are processed there. -/
theorem History.covered (hist : History src tree pass) (wf : tree.WellFormed)
    (hstep : step < src.context.trace.length) (hno : step ∉ tree.reducedTrace) :
    ∃ d, (∀ d', tree.ProcessedIn step d' ↔ d' = d) ∧
      ∃ b l l', b < step ∧ b ∈ tree.reducedTrace ∧ tree.ProcessedIn b d ∧
        tree.locationAt? b = some l ∧ tree.locationAt? step = some l' ∧ l.raw.includes l'.raw ∧
        ∀ u, b < u → u < step → tree.ProcessedIn u d →
          ∃ k, tree.locationAt? u = some k ∧ l.raw.includes k.raw := by
  obtain ⟨st⟩ := hist.stage hstep
  rcases st.tracks.stays with hmem | ⟨hbuilt, range, htracked, hincludes⟩
  · rw [st.isSite.spec.1, hist.mem_reducedTrace_iff hstep] at hmem
    exact absurd hmem.1 hno
  · obtain ⟨around, htracks⟩ := (pass step).tracks_cons
    have he : ((pass step).scope, some range) ∈ (pass step).tracks := by
      rw [htracks, htracked]
      exact List.mem_cons_self
    obtain ⟨b, origin, hlt, hb, horigin, rfl, ⟨d, hd, hdid⟩, hcovers⟩ :=
      hist.range_of_tracks wf hstep.le he
    refine ⟨d, fun d' => ⟨fun hd' => ?_, ?_⟩, b, _, _, hlt, hb, hd, hist.locationAt?_eq horigin,
      hist.locationAt?_eq st.isSite, hincludes, ?_⟩
    · rcases (hist.processedIn_iff wf hstep st (ProcessedIn.found hd')).1 hd' with hid | ⟨hsome, -⟩
      · exact ProcessedIn.unique hd hd' (hid.trans hdid.symm)
      · rw [hbuilt] at hsome
        cases hsome
    · rintro rfl
      exact (hist.processedIn_iff wf hstep st (ProcessedIn.found hd)).2 (.inl hdid)
    · intro u hbu hus hu
      obtain ⟨stage⟩ := hist.stage (hus.trans hstep)
      exact ⟨_, hist.locationAt?_eq stage.isSite,
        hcovers u stage.site d hbu hus stage.isSite hu hdid⟩

/-- The first breakpoint is the first step. -/
theorem History.getElem?_reducedTrace_zero (hist : History src tree pass) (wf : tree.WellFormed)
    (hpos : 0 < src.context.trace.length) (h : tree.reducedTrace.toList.Pairwise (· < ·)) :
    tree.reducedTrace[0]? = some 0 := by
  have hzero : 0 ∈ tree.reducedTrace.toList := by
    by_contra hno
    obtain ⟨-, -, b, -, -, hlt, -⟩ := hist.covered wf hpos fun hmem => hno (Array.mem_toList_iff.2 hmem)
    exact absurd hlt (Nat.not_lt_zero b)
  rw [← Array.getElem?_toList]
  cases hlist : tree.reducedTrace.toList with
  | nil =>
    rw [hlist] at hzero
    cases hzero
  | cons x rest =>
    rw [hlist] at hzero h
    rcases List.mem_cons.1 hzero with rfl | hrest
    · rfl
    · exact absurd ((List.pairwise_cons.1 h).1 0 hrest) (Nat.not_lt_zero x)

/-- The breakpoints ascend from the first step on, and the queries answer with the next and the
previous one, or none when there is none. A step that is no breakpoint is processed in one scope, in
which an earlier breakpoint was processed whose range takes the step, and so all steps in between
that are processed in that scope. -/
theorem build_breakpoints (src : Sources) (tree : CallTree) (h : src.build = .ready tree) :
    tree.reducedTrace.toList.Pairwise (· < ·) ∧ tree.reducedTrace[0]? = some 0 ∧
    (∀ step b, tree.nextBreakpoint? step = some b ↔
      IsLeast {x | x ∈ tree.reducedTrace ∧ step < x} b) ∧
    (∀ step, tree.nextBreakpoint? step = none ↔ ∀ x ∈ tree.reducedTrace, ¬ step < x) ∧
    (∀ step b, tree.previousBreakpoint? step = some b ↔
      IsGreatest {x | x ∈ tree.reducedTrace ∧ x < step} b) ∧
    (∀ step, tree.previousBreakpoint? step = none ↔ ∀ x ∈ tree.reducedTrace, ¬ x < step) ∧
    ∀ step, step < src.context.trace.length → step ∉ tree.reducedTrace →
      ∃ d, (∀ d', tree.ProcessedIn step d' ↔ d' = d) ∧
        ∃ b l l', b < step ∧ b ∈ tree.reducedTrace ∧ tree.ProcessedIn b d ∧
          tree.locationAt? b = some l ∧ tree.locationAt? step = some l' ∧ l.raw.includes l'.raw ∧
          ∀ u, b < u → u < step → tree.ProcessedIn u d →
            ∃ k, tree.locationAt? u = some k ∧ l.raw.includes k.raw := by
  obtain ⟨pass, hist⟩ := exists_history h
  obtain ⟨wf, hpos, hcount⟩ := wellFormed_of_build h
  rw [hcount] at hpos
  have hascending : tree.reducedTrace.toList.Pairwise (· < ·) := by
    rw [hist.reducedTrace_tree]
    exact hist.reducedTrace_ascending (le_refl _)
  have hmem : ∀ x, x ∈ tree.reducedTrace ↔ x ∈ tree.reducedTrace.toList :=
    fun x => Array.mem_toList_iff.symm
  simp only [hmem]
  refine ⟨hascending, hist.getElem?_reducedTrace_zero wf hpos hascending,
    fun step b => CallTree.nextBreakpoint?_eq_some_iff hascending,
    fun step => CallTree.nextBreakpoint?_eq_none_iff,
    fun step b => CallTree.previousBreakpoint?_eq_some_iff hascending,
    fun step => CallTree.previousBreakpoint?_eq_none_iff hascending, fun step hstep hno => ?_⟩
  simp only [← hmem] at hno ⊢
  exact hist.covered wf hstep hno

/-- The run with a call, of a contract whose `g` goes on at another place of the source once the
callee has returned. -/
def turningSources : Sources :=
  { callSources with
    resolver := fun _ => .ok (some
      { callArtifact with
        deployed :=
          { object := callArtifact.deployed.object, sourceMap := "200:10:0:-;;;220:8;222:2:0:o"
            functions := callArtifact.deployed.functions } }) }

/-- Step 5 leaves the range of the breakpoint in `g` before it, so it is a breakpoint too; step 6 is
none, and only the range of step 5 takes it. -/
theorem build_breakpoints_turning : ∃ tree, turningSources.build = .ready tree ∧
    tree.reducedTrace = #[0, 2, 3, 5] ∧ tree.reducedTrace[0]? = some 0 ∧
    tree.nextBreakpoint? 3 = some 5 ∧ tree.previousBreakpoint? 3 = some 2 ∧
    ∃ d l l', (∀ d', tree.ProcessedIn 6 d' ↔ d' = d) ∧ tree.ProcessedIn 5 d ∧
      tree.locationAt? 5 = some l ∧ tree.locationAt? 6 = some l' ∧ l.raw.includes l'.raw := by
  obtain ⟨tree, h⟩ := Outcome.exists_of_isReady
    (show turningSources.build.isReady by decide +kernel)
  obtain ⟨-, hfirst, hnext, -, hprevious, -, hcovered⟩ := build_breakpoints turningSources tree h
  have hreduced : turningSources.build.tree?.map (·.reducedTrace) = some #[0, 2, 3, 5] := by
    decide +kernel
  have hstops : turningSources.build.tree?.map (fun t =>
      [0, 2, 3, 6].map fun s => (t.locationAt? s).map (·.raw.stop)) =
        some [some 210, some 210, some 210, some 224] := by
    decide +kernel
  rw [h, Outcome.tree?, Option.map_some, Option.some.injEq] at hreduced hstops
  have hmem (x : Nat) : x ∈ tree.reducedTrace ↔ x = 0 ∨ x = 2 ∨ x = 3 ∨ x = 5 := by
    simp [hreduced]
  obtain ⟨d, hd, b, l, l', -, hb, hin, hl, hl', hincludes, -⟩ :=
    hcovered 6 (by decide) (by simp [hmem])
  -- The ranges of the other breakpoints end before that of step 6.
  have hstop := (SourceLocation.includes_iff.1 hincludes).2.2
  simp only [List.map_cons, List.map_nil, List.cons.injEq, hl', Option.map_some] at hstops
  obtain rfl : b = 5 := by
    rcases (hmem b).1 hb with rfl | rfl | rfl | rfl
    case inr.inr.inr => rfl
    all_goals
      simp only [hl, Option.map_some, Option.some.injEq] at hstops
      omega
  refine ⟨tree, h, hreduced, hfirst, (hnext 3 5).2 ⟨⟨(hmem 5).2 (by decide), by decide⟩, ?_⟩,
    (hprevious 3 2).2 ⟨⟨(hmem 2).2 (by decide), by decide⟩, ?_⟩, d, l, l', hd, hin, hl, hl',
    hincludes⟩
  · rintro x ⟨hx, hlt⟩
    have := (hmem x).1 hx
    omega
  · rintro x ⟨-, hx⟩
    exact Nat.le_of_lt_succ hx

end Processed

end Build

end TraceTree
