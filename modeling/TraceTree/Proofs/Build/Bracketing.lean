import TraceTree.Proofs.Build.Progress
import TraceTree.Proofs.Build.WellFormed
import TraceTree.Proofs.Declaration

/-!
Reconstruction inverts execution. A trace that is a well-bracketed run (`Run.At`) gives a tree whose
scopes are the brackets of the run. What is open at a step is what the run says is open (`Reached`),
up to call frames that have ended and close with the step (`Owed`). Main statements: a pass follows
a run and adds its brackets (`follows`), and the tree of a run has these brackets and the root
(`build_brackets`).
-/
namespace TraceTree.Build

/-! ### Layouts by their brackets -/

namespace Layout

/-- The scope of that id as a run shows it. -/
def bracket? (k : Layout) (id : ScopeId) : Option Bracket :=
  (k.tree.scopes id).map fun o =>
    { id, kind := o.kind, function := (k.tree.activations.find? id).map (·.functionId),
      firstStep := o.firstStep, lastStep := o.lastStep }

def Has (k : Layout) (b : Bracket) : Prop := k.bracket? b.id = some b

/-- Counts more children of the innermost scope. -/
def addChildren (n : Nat) : List Frame → List Frame
  | [] => []
  | top :: around => { top with children := top.children + n } :: around

/-- A scope has opened in the innermost one. -/
structure Opens (k k' : Layout) (new : Frame) (firstStep : Nat) : Prop where
  frames : k'.frames = new :: addChildren 1 k.frames
  bracket? : ∀ id, k'.bracket? id =
    if id = new.id then
      some { id := new.id, kind := new.kind, function := new.function, firstStep, lastStep := none }
    else k.bracket? id
  fresh : k.bracket? new.id = none

/-- The innermost scope has got children, and what has opened inside it has ended. -/
structure Grown (k k' : Layout) (n : Nat) (bs : List Bracket) : Prop where
  frames : k'.frames = addChildren n k.frames
  has : ∀ b, k'.Has b ↔ k.Has b ∨ b ∈ bs

theorem addChildren_zero (frames : List Frame) : addChildren 0 frames = frames := by
  cases frames <;> rfl

theorem addChildren_add (m n : Nat) (frames : List Frame) :
    addChildren n (addChildren m frames) = addChildren (m + n) frames := by
  cases frames with
  | nil => rfl
  | cons top around => simp [addChildren, Nat.add_assoc]

theorem countChild_eq (frames : List Frame) : countChild frames = addChildren 1 frames := by
  cases frames <;> rfl

theorem length_addChildren (n : Nat) (frames : List Frame) :
    (addChildren n frames).length = frames.length := by
  cases frames <;> rfl

theorem Grown.refl (k : Layout) : Grown k k 0 [] :=
  ⟨(addChildren_zero _).symm, fun b => by simp⟩

theorem Grown.trans {k k' k'' : Layout} {m n : Nat} {bs bs' : List Bracket}
    (h : Grown k k' m bs) (h' : Grown k' k'' n bs') : Grown k k'' (m + n) (bs ++ bs') := by
  refine ⟨?_, ?_⟩
  · rw [h'.frames, h.frames, addChildren_add]
  · intro b
    rw [h'.has, h.has, List.mem_append, or_assoc]

theorem Grown.frames_cons {k k' : Layout} {n : Nat} {bs : List Bracket} {top : Frame}
    {around : List Frame} (h : Grown k k' n bs) (hframes : k.frames = top :: around) :
    k'.frames = { top with children := top.children + n } :: around := by
  rw [h.frames, hframes, addChildren]

theorem Grown.length_frames {k k' : Layout} {n : Nat} {bs : List Bracket} (h : Grown k k' n bs) :
    k'.frames.length = k.frames.length := by
  rw [h.frames, length_addChildren]

theorem Opens.length_frames {k k' : Layout} {new : Frame} {firstStep : Nat}
    (h : Opens k k' new firstStep) : k'.frames.length = k.frames.length + 1 := by
  rw [h.frames, List.length_cons, length_addChildren]

theorem Opens.frames_grown {k k₁ k₂ : Layout} {new top : Frame} {around : List Frame}
    {firstStep n : Nat} {bs : List Bracket} (h : Opens k k₁ new firstStep)
    (hgrown : Grown k₁ k₂ n bs) (hframes : k.frames = top :: around) :
    k₂.frames = { new with children := new.children + n } ::
      { top with children := top.children + 1 } :: around := by
  rw [hgrown.frames, h.frames, hframes, addChildren, addChildren]

theorem bracket?_closeTop {k : Layout} {top : Frame} {around : List Frame}
    (hframes : k.frames = top :: around) (x : Nat) (id : ScopeId) :
    (k.closeTop x).bracket? id =
      if id = top.id then (k.bracket? id).map fun b => { b with lastStep := some x }
      else k.bracket? id := by
  rw [bracket?, scopes_closeTop hframes, Activated.activations_closeTop]
  split
  · rename_i hid
    subst hid
    rw [bracket?, Option.map_map, Option.map_map]
    rfl
  · rfl

/-- When the innermost scope closes, its bracket gets its last step and the others stay. -/
theorem has_closeTop {k : Layout} {top : Frame} {around : List Frame} {new : Bracket}
    (hframes : k.frames = top :: around) (hnew : k.Has new) (hid : new.id = top.id) (x : Nat)
    (b : Bracket) :
    (k.closeTop x).Has b ↔ k.Has b ∧ b.id ≠ top.id ∨ b = { new with lastStep := some x } := by
  rw [Has, bracket?_closeTop hframes]
  split
  · rename_i hb
    rw [hb, ← hid, show k.bracket? new.id = some new from hnew, Option.map_some]
    constructor
    · intro h
      exact .inr (Option.some.inj h).symm
    · rintro (⟨-, hne⟩ | rfl)
      · exact absurd rfl hne
      · rfl
  · rename_i hb
    constructor
    · intro h
      exact .inl ⟨h, hb⟩
    · rintro (⟨h, -⟩ | rfl)
      · exact h
      · exact absurd hid hb

/-- A scope that opens, has its run inside and closes adds its bracket and those of the run. -/
theorem Grown.item {k k₁ k₂ : Layout} {new : Frame} {firstStep n m i x : Nat} {inner : Run}
    (hopen : Opens k k₁ new firstStep) (h : Grown k₁ k₂ n (inner.brackets new.id m i)) :
    Grown k (k₂.closeTop x) 1
      ({ id := new.id, kind := new.kind, function := new.function, firstStep,
         lastStep := some x } :: inner.brackets new.id m i) := by
  have hframes : k₂.frames =
      { new with children := new.children + n } :: addChildren 1 k.frames := by
    rw [h.frames, hopen.frames, addChildren]
  have hnew : k₂.Has { id := new.id, kind := new.kind, function := new.function, firstStep,
                       lastStep := none } := by
    rw [h.has]
    exact .inl ((hopen.bracket? new.id).trans (if_pos rfl))
  refine ⟨frames_closeTop hframes, ?_⟩
  intro b
  have hold : k₁.Has b ∧ b.id ≠ new.id ↔ k.Has b := by
    rw [Has, hopen.bracket?]
    constructor
    · rintro ⟨hb, hne⟩
      rwa [if_neg hne] at hb
    · intro hb
      have hne : b.id ≠ new.id := by
        intro hid
        rw [Has, hid, hopen.fresh] at hb
        cases hb
      exact ⟨by rwa [if_neg hne], hne⟩
  rw [has_closeTop hframes hnew rfl, h.has, List.mem_cons]
  constructor
  · rintro (⟨hb | hb, hne⟩ | rfl)
    · exact .inl (hold.1 ⟨hb, hne⟩)
    · exact .inr (.inr hb)
    · exact .inr (.inl rfl)
  · rintro (hb | rfl | hb)
    · exact .inl ⟨.inl (hold.2 hb).1, (hold.2 hb).2⟩
    · exact .inr rfl
    · exact .inl ⟨.inr hb, Run.ne_of_mem_brackets hb⟩

end Layout

theorem opens_frame {k : Layout} (hscopes : k.tree.scopes k.nextId = none)
    (hactivations : k.tree.activations.find? k.nextId = none) (x : Nat) (kind : ScopeKind)
    (code : CodeAddress) :
    k.Opens (k.openScope x kind code none) { id := k.nextId, kind, function := none } x where
  frames := by rw [← Layout.countChild_eq]; rfl
  bracket? id := by
    have hsame : (k.openScope x kind code none).tree.activations = k.tree.activations := rfl
    rw [Layout.bracket?, scopes_openScope, hsame]
    split
    · rename_i hid
      subst hid
      rw [hactivations]
      rfl
    · rfl
  fresh := by rw [Layout.bracket?, hscopes]; rfl

theorem opens_body {k : Layout} (hscopes : k.tree.scopes k.nextId = none) (x : Nat)
    (kind : ScopeKind) (code : CodeAddress) {a : FunctionActivation} {f : Nat}
    (hscope : a.scope = k.nextId) (hfunction : a.functionId = f) :
    k.Opens ((k.openScope x kind code (some f)).addActivation a)
      { id := k.nextId, kind, function := some f } x where
  frames := by rw [← Layout.countChild_eq]; rfl
  bracket? id := by
    have hfind : ((k.openScope x kind code (some f)).addActivation a).tree.activations.find? id =
        if id = k.nextId then some a else k.tree.activations.find? id := by
      rw [← hscope]
      exact SortedMap.find?_insert _ _ _ _
    rw [Layout.bracket?, hfind]
    show Option.map _ ((k.openScope x kind code (some f)).tree.scopes id) = _
    rw [scopes_openScope]
    split
    · rename_i hid
      subst hid
      rw [Option.map_some, Option.map_some, hfunction]
    · rfl
  fresh := by rw [Layout.bracket?, hscopes]; rfl

/-! ### What is open at a step -/

/-- A pass has the layout `k`, up to the call frame that ended with the last step: it closes at once
when the next step runs less deep, and with all others when there is no next step. -/
def Owed (src : Sources) (depth j : Nat) (k q : Layout) : Prop :=
  match src.context.trace.steps[j]? with
  | none => q.close (j - 1) q.frames.length = k.close (j - 1) k.frames.length
  | some next => q = if next.depth < depth then k.closeCall (j - 1) else k

/-- A pass before the step `j`, where the layout should be `k`. -/
structure Reached (src : Sources) (depth j : Nat) (k : Layout) (p : Pass) : Prop where
  valid : Valid src j p
  awaited : p.awaited = none
  owed : Owed src depth j k p.layout

/-- A pass gets from the step `i` to the step `j`, and `n` children with the brackets are added to
the layout `k`. -/
def Passes (src : Sources) (depth i j : Nat) (p : Pass) (k : Layout) (n : Nat)
    (bs : List Bracket) : Prop :=
  ∃ q k', Pass.run src i (src.context.trace.steps.drop i) p =
      Pass.run src j (src.context.trace.steps.drop j) q ∧
    Reached src depth j k' q ∧ k.Grown k' n bs

section Owed

variable {src : Sources} {depth i j : Nat} {k q : Layout} {site : Site}

theorem Owed.eq_of_depth (h : Owed src depth j k q) (hsite : src.IsSite j site)
    (hdepth : site.current.depth = depth) : q = k := by
  rw [Owed, hsite.spec.2.1] at h
  dsimp only at h
  rwa [if_neg (by omega)] at h

/-- After a step of the frame the layout is owed. -/
theorem owed_settle (hsite : src.IsSite i site) (hdepth : site.current.depth = depth)
    (k : Layout) : Owed src depth (i + 1) k (k.settle site) := by
  obtain ⟨hstep, -, hnext, -⟩ := hsite.spec
  rw [Owed, Layout.settle, Site.comesBack, hnext]
  cases src.context.trace.steps[i + 1]? with
  | none => rfl
  | some next =>
    simp only [Option.any_some, decide_eq_true_eq, hdepth, hstep, Nat.add_sub_cancel]

/-- Closing the innermost scope and then all that are left is closing all. -/
theorem close_closeTop {top : Frame} {around : List Frame} (hframes : k.frames = top :: around)
    (x : Nat) : (k.closeTop x).close x (k.closeTop x).frames.length =
      k.close x k.frames.length := by
  rw [frames_closeTop hframes, hframes, List.length_cons, Layout.close]

/-- A function in which the frame ends closes with the frame. -/
theorem Owed.closeTop {top next : Frame} {around : List Frame} (h : Owed src depth j k q)
    (hframes : k.frames = top :: next :: around) (htop : ¬ top.kind.isFrame)
    (hend : ∀ s, src.context.trace.steps[j]? = some s → s.depth < depth) :
    Owed src depth j (k.closeTop (j - 1)) q := by
  rw [Owed] at h ⊢
  cases hs : src.context.trace.steps[j]? with
  | none =>
    rw [hs] at h
    dsimp only at h ⊢
    rw [h, close_closeTop hframes]
  | some s =>
    rw [hs] at h
    dsimp only at h ⊢
    rw [if_pos (hend s hs)] at h ⊢
    rw [h, Pass.closeCall_closeTop hframes htop]

/-- A callee's frame has closed when the next step is one of its caller. -/
theorem Owed.closeFrame {top next : Frame} {around : List Frame} (h : Owed src (depth + 1) j k q)
    (hframes : k.frames = top :: next :: around) (htop : top.kind.isFrame)
    (hend : ∀ s, src.context.trace.steps[j]? = some s → s.depth = depth) :
    Owed src depth j (k.closeTop (j - 1)) q := by
  rw [Owed] at h ⊢
  cases hs : src.context.trace.steps[j]? with
  | none =>
    rw [hs] at h
    dsimp only at h ⊢
    rw [h, close_closeTop hframes]
  | some s =>
    have hdepth := hend s hs
    rw [hs] at h
    dsimp only at h ⊢
    rw [if_pos (by omega), Layout.closeCall, hframes, Layout.callSize, if_pos htop] at h
    rw [if_neg (by omega)]
    exact h

end Owed

/-! ### Items of a run -/

section Items

variable {src : Sources} {depth f i : Nat} {within : Option Nat} {k : Layout} {p q : Pass}
  {site : Site} {top next : Frame} {around : List Frame}

theorem run_step (hsite : src.IsSite i site) (hstep : p.step src site = .ok q) :
    Pass.run src i (src.context.trace.steps.drop i) p =
      Pass.run src (i + 1) (src.context.trace.steps.drop (i + 1)) q := by
  obtain ⟨current, hcurrent, hsite⟩ := hsite
  rw [run_drop hcurrent, hsite]
  show (p.step src site >>= _) = _
  rw [hstep]
  rfl

theorem Calm.stack (calm : Calm src) (hsite : src.IsSite i site) :
    ∃ n, src.stackLengthAt site.step = .ok n := by
  obtain ⟨hstep, hget, -⟩ := hsite.spec
  rw [hstep]
  exact calm.stackKnown i (List.getElem?_eq_some_iff.1 hget).1

theorem Reached.layout_eq (h : Reached src depth i k p) (hsite : src.IsSite i site)
    (hdepth : site.current.depth = depth) : p.layout = k :=
  h.owed.eq_of_depth hsite hdepth

theorem passes_plain (calm : Calm src) (hplain : PlainAt src depth within i)
    (h : Reached src depth i k p) (hframes : k.frames = top :: around)
    (htop : ∀ f, within = some f → top.function = some f)
    (hle : ∀ next, src.context.trace.steps[i + 1]? = some next → next.depth ≤ depth) :
    ∃ q, Pass.run src i (src.context.trace.steps.drop i) p =
        Pass.run src (i + 1) (src.context.trace.steps.drop (i + 1)) q ∧
      Reached src depth (i + 1) k q := by
  obtain ⟨site, hsite, hdepth, hjump, hstays⟩ := hplain
  have hlayout := h.layout_eq hsite hdepth
  obtain ⟨n, hstack⟩ := calm.stack hsite
  have hframe := Pass.top_frame_eq (hlayout.symm ▸ hframes)
  obtain ⟨q, hstep, hawaited, hsettle⟩ := Pass.step_stays h.awaited (calm.quiet i site hsite) hstack
    hjump (hsite.not_goesDeeper hdepth hle) hstays
    fun f hf => (congrArg Frame.function hframe).trans (htop f hf)
  refine ⟨q, run_step hsite hstep, valid_step hsite h.valid hstep, hawaited, ?_⟩
  rw [hsettle, hlayout]
  exact owed_settle hsite hdepth k

theorem passes_entry (calm : Calm src) (hentry : EntryAt src depth f i)
    (h : Reached src depth i k p) (hframes : k.frames = top :: around)
    (hroom : k.frames.length < src.options.maxScopeDepth)
    (hle : ∀ next, src.context.trace.steps[i + 1]? = some next → next.depth ≤ depth) :
    ∃ q k', Pass.run src i (src.context.trace.steps.drop i) p =
        Pass.run src (i + 1) (src.context.trace.steps.drop (i + 1)) q ∧
      Reached src depth (i + 1) k' q ∧
      k.Opens k' { id := k.nextId, kind := .internalFunction, function := some f } i := by
  obtain ⟨site, hsite, hdepth, hjump, henters, hopcode, g, hdefinition, hconstructor⟩ := hentry
  have hlayout := h.layout_eq hsite hdepth
  obtain ⟨n, hstack⟩ := calm.stack hsite
  have hid : g.id = f := Artifact.functionDefinition?_id hdefinition
  have hfresh := h.valid.sound.numbered.fresh (hlayout.symm ▸ hframes)
  obtain ⟨q, a, hstep, hawaited, hfunction, hscope, hsettle⟩ := Pass.step_enters h.awaited
    (calm.quiet i site hsite) hstack (hlayout.symm ▸ hroom) hjump hopcode
    (hsite.not_goesDeeper hdepth hle) henters hdefinition hconstructor
  rw [hlayout, hsite.spec.1, hid] at hsettle
  rw [hlayout] at hscope hfresh
  refine ⟨q, _, run_step hsite hstep, ⟨valid_step hsite h.valid hstep, hawaited, ?_⟩,
    opens_body hfresh i .internalFunction site.code hscope (hfunction.trans hid)⟩
  rw [hsettle]
  exact owed_settle hsite hdepth _

theorem passes_return (calm : Calm src) (hreturn : ReturnAt src depth i)
    (h : Reached src depth i k p) (hframes : k.frames = top :: next :: around)
    (htop : top.kind = .internalFunction)
    (hle : ∀ next, src.context.trace.steps[i + 1]? = some next → next.depth ≤ depth) :
    ∃ q, Pass.run src i (src.context.trace.steps.drop i) p =
        Pass.run src (i + 1) (src.context.trace.steps.drop (i + 1)) q ∧
      Reached src depth (i + 1) (k.closeTop i) q := by
  obtain ⟨site, hsite, hdepth, hjump⟩ := hreturn
  have hlayout := h.layout_eq hsite hdepth
  obtain ⟨q, hstep, hawaited, hsettle⟩ := Pass.step_returns h.awaited (calm.quiet i site hsite)
    hjump (hsite.not_goesDeeper hdepth hle) (hlayout.symm ▸ hframes) htop
  refine ⟨q, run_step hsite hstep, valid_step hsite h.valid hstep, hawaited, ?_⟩
  rw [hsettle, hlayout, hsite.spec.1]
  exact owed_settle hsite hdepth _

theorem passes_call (calm : Calm src) (hcall : CallAt src depth within i)
    (h : Reached src depth i k p) (hframes : k.frames = top :: around)
    (hroom : k.frames.length < src.options.maxScopeDepth)
    (hnext : ∃ site, src.IsSite (i + 1) site ∧ site.current.depth = depth + 1) :
    ∃ q k', Pass.run src i (src.context.trace.steps.drop i) p =
        Pass.run src (i + 1) (src.context.trace.steps.drop (i + 1)) q ∧
      Reached src (depth + 1) (i + 1) k' q ∧
      k.Opens k' { id := k.nextId, kind := .externalCall, function := none } (i + 1) := by
  obtain ⟨site, hsite, hdepth, -, -, hopcode⟩ := hcall
  obtain ⟨next, hnextsite, hnextdepth⟩ := hnext
  have hlayout := h.layout_eq hsite hdepth
  have hdeeper : site.goesDeeper := by
    rw [Site.goesDeeper, hsite.spec.2.2.1, hnextsite.spec.2.1]
    simp only [Option.any_some, decide_eq_true_eq]
    omega
  have hfresh := h.valid.sound.numbered.fresh (hlayout.symm ▸ hframes)
  have hinactive := h.valid.activated.fresh h.valid.sound.numbered (hlayout.symm ▸ hframes)
  have hcode : src.codeAt (site.step + 1) = .ok next.code := by
    rw [hsite.spec.1]
    exact hnextsite.spec.2.2.2.1
  obtain ⟨q, hstep, hawaited, hopened⟩ := Pass.step_calls h.awaited (calm.quiet i site hsite)
    (hlayout.symm ▸ hroom) hopcode hdeeper hcode
  rw [hlayout, hsite.spec.1] at hopened
  rw [hlayout] at hfresh hinactive
  refine ⟨q, _, run_step hsite hstep, ⟨valid_step hsite h.valid hstep, hawaited, ?_⟩,
    opens_frame hfresh hinactive (i + 1) .externalCall next.code⟩
  rw [Owed, hnextsite.spec.2.1]
  dsimp only
  rw [if_neg (by omega), hopened]

end Items

/-! ### Runs -/

/-- Wherever a pass is reached at the start of the run it follows the run and adds its brackets.
Where the run ends no call leads deeper, and if it leaves a function open the frame has ended. -/
def Follows (src : Sources) (run : Run) : Prop :=
  ∀ {depth i : Nat} {within : Option Nat} {k : Layout} {p : Pass} {top : Frame}
    {around : List Frame}, run.At src depth within i → Reached src depth i k p →
    k.frames = top :: around → (∀ f, within = some f → top.function = some f) →
    k.frames.length + run.nesting ≤ src.options.maxScopeDepth →
    (∀ next, src.context.trace.steps[i + run.length]? = some next →
      next.depth ≤ depth ∧ (run.returns ∨ next.depth < depth)) →
    Passes src depth i (i + run.length) p k run.children (run.brackets top.id top.children i)

section Runs

variable {src : Sources} {body callee rest : Run} {f : Nat}

theorem follows_done : Follows src .done :=
  fun {_ _ _ k p _ _} _ h _ _ _ _ => ⟨p, k, rfl, h, .refl k⟩

theorem follows_plain (calm : Calm src) (ih : Follows src rest) : Follows src (.plain rest) := by
  intro depth i within k p top around hrun h hframes htop hroom hend
  obtain ⟨hplain, hrest⟩ := hrun
  have hj : i + (rest.length + 1) = i + 1 + rest.length := by omega
  rw [Run.length, hj] at hend ⊢
  obtain ⟨q, hq, hreached⟩ := passes_plain calm hplain h hframes htop
    (hrest.depth_le fun next hnext => (hend next hnext).1)
  obtain ⟨r, k', hr, hdone, hgrown⟩ := ih hrest hreached hframes htop hroom hend
  exact ⟨r, k', hq.trans hr, hdone, hgrown⟩

theorem follows_function (calm : Calm src) (ihBody : Follows src body) (ihRest : Follows src rest) :
    Follows src (.function f body rest) := by
  intro depth i within k p top around hrun h hframes htop hroom hend
  obtain ⟨hentry, hbody, hreturns, hreturn, hrest⟩ := hrun
  have hj : i + (body.length + rest.length + 2) = i + 1 + body.length + 1 + rest.length := by
    omega
  rw [Run.length, hj] at hend ⊢
  rw [Run.nesting] at hroom
  have hback : ∀ next, src.context.trace.steps[i + 1 + body.length]? = some next →
      next.depth = depth := by
    obtain ⟨site, hsite, hdepth, -⟩ := hreturn
    intro next hnext
    rw [hsite.spec.2.1] at hnext
    cases hnext
    exact hdepth
  -- The body runs inside the function that the first step opens.
  obtain ⟨q₁, k₁, hq₁, hreached₁, hopens⟩ := passes_entry calm hentry h hframes (by omega)
    (hbody.depth_le fun next hnext => (hback next hnext).le)
  have hlength₁ := hopens.length_frames
  obtain ⟨q₂, k₂, hq₂, hreached₂, hgrown⟩ := ihBody hbody hreached₁ hopens.frames
    (fun g hg => hg) (by omega) (fun next hnext => ⟨(hback next hnext).le, .inl hreturns⟩)
  -- The return closes the function, and what comes then runs around it.
  obtain ⟨q₃, hq₃, hreached₃⟩ := passes_return calm hreturn hreached₂
    (hopens.frames_grown hgrown hframes) rfl
    (hrest.depth_le fun next hnext => (hend next hnext).1)
  have hitem := hgrown.item hopens (x := i + 1 + body.length)
  have hlength₃ := hitem.length_frames
  obtain ⟨q₄, k₄, hq₄, hreached₄, hgrown₄⟩ := ihRest hrest hreached₃
    (hitem.frames_cons hframes) htop (by omega) hend
  refine ⟨q₄, k₄, hq₁.trans (hq₂.trans (hq₃.trans hq₄)), hreached₄, ?_⟩
  have htrans := hitem.trans hgrown₄
  rw [nextId_cons hframes, Nat.add_comm] at htrans
  exact htrans

theorem follows_unfinished (calm : Calm src) (ih : Follows src body) :
    Follows src (.unfinished f body) := by
  intro depth i within k p top around hrun h hframes htop hroom hend
  obtain ⟨hentry, hbody⟩ := hrun
  have hj : i + (body.length + 1) = i + 1 + body.length := by omega
  rw [Run.length, hj] at hend ⊢
  rw [Run.nesting] at hroom
  have hless : ∀ next, src.context.trace.steps[i + 1 + body.length]? = some next →
      next.depth < depth :=
    fun next hnext => (hend next hnext).2.resolve_left (by simp [Run.returns])
  obtain ⟨q₁, k₁, hq₁, hreached₁, hopens⟩ := passes_entry calm hentry h hframes (by omega)
    (hbody.depth_le fun next hnext => (hless next hnext).le)
  have hlength₁ := hopens.length_frames
  obtain ⟨q₂, k₂, hq₂, hreached₂, hgrown⟩ := ih hbody hreached₁ hopens.frames
    (fun g hg => hg) (by omega) (fun next hnext => ⟨(hless next hnext).le, .inr (hless next hnext)⟩)
  -- The function ends with its frame, at the last step of the body.
  have howed := hreached₂.owed.closeTop (hopens.frames_grown hgrown hframes) Bool.false_ne_true
    hless
  refine ⟨q₂, _, hq₁.trans hq₂, ⟨hreached₂.valid, hreached₂.awaited, howed⟩, ?_⟩
  have hlast : i + 1 + body.length - 1 = i + body.length := by omega
  have hitem := hgrown.item hopens (x := i + body.length)
  rw [nextId_cons hframes] at hitem
  rw [hlast]
  exact hitem

theorem follows_call (calm : Calm src) (ihCallee : Follows src callee) (ihRest : Follows src rest) :
    Follows src (.call callee rest) := by
  intro depth i within k p top around hrun h hframes htop hroom hend
  obtain ⟨hcall, hne, hcallee, hback, hrest⟩ := hrun
  have hj : i + (callee.length + rest.length + 1) = i + 1 + callee.length + rest.length := by
    omega
  rw [Run.length, hj] at hend ⊢
  rw [Run.nesting] at hroom
  obtain ⟨q₁, k₁, hq₁, hreached₁, hopens⟩ := passes_call calm hcall h hframes (by omega)
    (hcallee.head hne)
  have hlength₁ := hopens.length_frames
  have hless : ∀ next, src.context.trace.steps[i + 1 + callee.length]? = some next →
      next.depth < depth + 1 := by
    intro next hnext
    have := hback next hnext
    omega
  obtain ⟨q₂, k₂, hq₂, hreached₂, hgrown⟩ := ihCallee hcallee hreached₁ hopens.frames
    (fun g hg => by cases hg) (by omega)
    (fun next hnext => ⟨(hless next hnext).le, .inr (hless next hnext)⟩)
  -- The callee's frame closes with the step back, and what comes then runs around it.
  have howed := hreached₂.owed.closeFrame (hopens.frames_grown hgrown hframes) rfl hback
  have hlast : i + 1 + callee.length - 1 = i + callee.length := by omega
  rw [hlast] at howed
  have hitem := hgrown.item hopens (x := i + callee.length)
  have hlength₃ := hitem.length_frames
  obtain ⟨q₃, k₃, hq₃, hreached₃, hgrown₃⟩ := ihRest hrest
    ⟨hreached₂.valid, hreached₂.awaited, howed⟩ (hitem.frames_cons hframes) htop (by omega) hend
  refine ⟨q₃, k₃, hq₁.trans (hq₂.trans hq₃), hreached₃, ?_⟩
  have htrans := hitem.trans hgrown₃
  rw [nextId_cons hframes, Nat.add_comm] at htrans
  exact htrans

/-- A pass follows every run. -/
theorem follows (calm : Calm src) (run : Run) : Follows src run := by
  induction run with
  | done => exact follows_done
  | plain rest ih => exact follows_plain calm ih
  | function f body rest ihBody ihRest => exact follows_function calm ihBody ihRest
  | unfinished f body ih => exact follows_unfinished calm ih
  | call callee rest ihCallee ihRest => exact follows_call calm ihCallee ihRest

end Runs

/-! ### The finished tree -/

/-- The scopes of a tree with the functions that they activate, each right before those inside
it. -/
def bracketsOf (tree : CallTree) : List Bracket :=
  tree.allScopes.map fun s =>
    { id := s.id, kind := s.kind, function := (tree.activation? s.id).map (·.functionId),
      firstStep := s.firstStep, lastStep := s.lastStep }

section Finished

variable {src : Sources} {tree : CallTree}

theorem mem_bracketsOf {k : Layout} (wf : tree.WellFormed) (htree : k.tree = tree.skeleton)
    (b : Bracket) : b ∈ bracketsOf tree ↔ k.Has b := by
  have hbracket : ∀ id, k.bracket? id = (tree.scope? id).map fun s =>
      { id, kind := s.kind, function := (tree.activation? id).map (·.functionId),
        firstStep := s.firstStep, lastStep := s.lastStep } := by
    intro id
    rw [Layout.bracket?, htree, CallTree.skeleton, Option.map_map]
    rfl
  rw [bracketsOf, List.mem_map, Layout.Has, hbracket, Option.map_eq_some_iff]
  constructor
  · rintro ⟨s, hs, rfl⟩
    obtain ⟨id, hid⟩ := SortedMap.mem_values_iff.1 hs
    have hkey := wf.keyed hid
    exact ⟨s, by rw [hkey]; exact hid, rfl⟩
  · rintro ⟨s, hs, hb⟩
    refine ⟨s, SortedMap.mem_values_iff.2 ⟨_, hs⟩, ?_⟩
    rw [wf.keyed hs]
    exact hb

theorem pairwise_bracketsOf (wf : tree.WellFormed) :
    (bracketsOf tree).Pairwise fun a b => compare a.id b.id = .lt := by
  rw [bracketsOf, List.pairwise_map, CallTree.allScopes, SortedMap.values, List.pairwise_map]
  refine tree.scopes.ascending.imp_of_mem ?_
  intro a b ha hb hlt
  have hkey : ∀ e ∈ tree.scopes.entries, e.2.id = e.1 :=
    fun e he => wf.keyed (SortedMap.find?_eq_some_iff.2 he)
  rw [hkey a ha, hkey b hb]
  exact hlt

theorem brackets_ext {l l' : List Bracket} (hl : l.Pairwise fun a b => compare a.id b.id = .lt)
    (hl' : l'.Pairwise fun a b => compare a.id b.id = .lt) (h : ∀ b, b ∈ l ↔ b ∈ l') : l = l' := by
  have hmap : l.map (fun b => (b.id, b)) = l'.map fun b => (b.id, b) :=
    SortedMap.ascending_ext (List.pairwise_map.2 hl) (List.pairwise_map.2 hl')
      (fun e => by simp only [List.mem_map, h])
  have hsnd := congrArg (List.map Prod.snd) hmap
  rw [List.map_map, List.map_map] at hsnd
  exact (List.map_id l).symm.trans (hsnd.trans (List.map_id l'))

/-- At the start only the root is open. -/
theorem has_start (root : CodeAddress) (steps : Nat) (b : Bracket) :
    (Layout.start root steps).Has b ↔
      b = { id := .root, kind := .root, function := none, firstStep := 0, lastStep := none } := by
  rw [Layout.Has, Layout.bracket?, scopes_start]
  split
  · rename_i hid
    rw [hid, Option.map_some]
    exact ⟨fun h => (Option.some.inj h).symm, fun h => congrArg some h.symm⟩
  · rename_i hid
    constructor
    · intro h
      cases h
    · rintro rfl
      exact absurd rfl hid

/-- When the root closes with the last step, its bracket comes to those of the run. -/
theorem has_finish {root : CodeAddress} {steps n x : Nat} {run : Run} {k : Layout}
    (h : Layout.Grown (.start root steps) k n (run.brackets .root 0 0)) (b : Bracket) :
    (k.closeTop x).Has b ↔
      b ∈ ({ id := .root, kind := .root, function := none, firstStep := 0, lastStep := some x } ::
        run.brackets .root 0 0 : List Bracket) := by
  have hroot : k.Has { id := .root, kind := .root, function := none, firstStep := 0,
                       lastStep := none } := by
    rw [h.has, has_start]
    exact .inl rfl
  rw [Layout.has_closeTop h.frames hroot rfl, h.has, has_start, List.mem_cons]
  constructor
  · rintro (⟨rfl | hb, hne⟩ | rfl)
    · exact absurd rfl hne
    · exact .inr hb
    · exact .inl rfl
  · rintro (rfl | hb)
    · exact .inr rfl
    · exact .inl ⟨.inr hb, Run.ne_of_mem_brackets hb⟩

/-- A trace that is a well-bracketed run is rebuilt, whenever its nesting is within the limit: the
tree has the scopes of the run and the root around them, each right before those inside it. -/
theorem build_brackets (src : Sources) (calm : Calm src) (run : Run) (depth : Nat)
    (hrun : run.At src depth none 0) (hlength : run.length = src.context.trace.length)
    (hne : run ≠ .done) (hroom : run.nesting < src.options.maxScopeDepth) :
    ∃ tree, src.build = .ready tree ∧ bracketsOf tree =
      { id := .root, kind := .root, function := none, firstStep := 0,
        lastStep := some (run.length - 1) } :: run.brackets .root 0 0 := by
  obtain ⟨site, hsite, hdepth⟩ := hrun.head hne
  obtain ⟨-, hfirst, -, hcode, hartifact⟩ := hsite.spec
  have hpos : 0 < src.context.trace.length := (List.getElem?_eq_some_iff.1 hfirst).1
  have hsteps : src.context.trace.steps ≠ [] := List.length_pos_iff.1 hpos
  have hframes : (Layout.start site.code src.context.trace.length).frames =
      [{ id := .root, kind := .root }] := rfl
  have hreached : Reached src depth 0 (.start site.code src.context.trace.length)
      (.start site.code src.context.trace.length) := by
    refine ⟨valid_start hsteps hcode, rfl, ?_⟩
    rw [Owed, hfirst]
    dsimp only
    rw [if_neg (by omega), Pass.layout_start]
  have hlast : src.context.trace.steps[0 + run.length]? = none := by
    rw [hlength, Nat.zero_add]
    exact List.getElem?_eq_none (le_refl _)
  obtain ⟨q, k, hq, hdone, hgrown⟩ := follows calm run hrun hreached hframes
    (fun f hf => by cases hf) (by rw [hframes, List.length_singleton]; omega)
    (fun next hnext => by rw [hlast] at hnext; cases hnext)
  rw [Nat.zero_add] at hdone hq hlast
  rw [hlength] at hdone hq
  rw [show src.context.trace.steps.drop src.context.trace.length = [] from
    List.drop_of_length_le (le_refl _), List.drop_zero] at hq
  have hbuild := build_of_run hsteps hcode hartifact hq
  refine ⟨q.close, hbuild, ?_⟩
  obtain ⟨wf, -⟩ := wellFormed_of_build hbuild
  have htree : (k.closeTop (run.length - 1)).tree = q.close.skeleton := by
    have howed := hdone.owed
    rw [Owed, ← hlength, hlast] at howed
    dsimp only at howed
    have hcount : q.tree.stepCount = run.length :=
      hdone.valid.sound.stepCount.trans hlength.symm
    rw [← q.layout_finish.2, hcount, howed, hgrown.frames]
    rfl
  have hroot := Run.pairwise_brackets run .root 0 0
  refine brackets_ext (pairwise_bracketsOf wf) (.cons ?_ hroot) ?_
  · intro b hb
    exact ScopeId.compare_of_contains (Run.contains_of_mem_brackets hb)
      (Run.ne_of_mem_brackets hb).symm
  · intro b
    rw [mem_bracketsOf wf htree]
    exact has_finish hgrown b

end Finished

/-! ### A run with a call inside a function -/

/-- A contract with one function, `g`, that calls and returns. -/
def callArtifact : Artifact :=
  { contractName := "B"
    sources := SortedMap.empty.insert 0
      { id := 0, path := "B.sol", content := "contract B"
        ast := .array [sampleFunction 2 "function" "g" "200:50:0"] }
    deployed :=
      { object := [0x5b, 0x5b, 0xf1, 0x5b, 0x56], sourceMap := "200:10:0:-;;;;200:10:0:o"
        functions := SortedMap.empty.insert "g"
          { entryPoint := some 1, id := some 2, parameterSlots := none, returnSlots := none } } }

/-- The contract enters `g`, which calls the contract again; the callee's frame ends inside `g`. -/
def callSources : Sources :=
  { context := (Recording.ofTrace ⟨[⟨1, 100, none, 0x5b, 0⟩, ⟨1, 99, none, 0x5b, 1⟩,
      ⟨1, 98, none, 0xf1, 2⟩, ⟨2, 50, none, 0x5b, 0⟩, ⟨2, 49, none, 0x5b, 1⟩,
      ⟨1, 40, none, 0x5b, 3⟩, ⟨1, 39, none, 0x56, 4⟩, ⟨1, 38, none, 0x5b, 0⟩]⟩
      ⟨default, false⟩).toContext
    resolver := fun _ => .ok (some callArtifact) }

def callRun : Run :=
  .plain (.function 2 (.call (.plain (.unfinished 2 .done)) (.plain .done)) (.plain .done))

theorem build_brackets_callRun : ∃ tree, callSources.build = .ready tree ∧ bracketsOf tree =
    { id := .root, kind := .root, function := none, firstStep := 0,
      lastStep := some (callRun.length - 1) } :: callRun.brackets .root 0 0 :=
  build_brackets callSources (by decide +kernel) callRun 1 (by decide +kernel) (by decide)
    (by decide) (by decide)

end TraceTree.Build
