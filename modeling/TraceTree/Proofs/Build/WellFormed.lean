import TraceTree.Proofs.Build.Nesting
import TraceTree.Proofs.Build.Step
import TraceTree.Proofs.CallTree.PointQuery

/-!
The trees that a reconstruction gives. The open scopes are in order before every step (`Valid`), and
each step keeps them so (`valid_step`). Main statements: the tree that comes out follows the rules
of finished trees (`build_wellFormed`), and what it answers for a step is exact
(`build_pointQueries`).
-/
namespace TraceTree.Build

open CallTree (IsBody)

/-! ### Activations -/

/-- Exactly the scopes of function bodies have activations, which start with them. -/
structure Activated (k : Layout) : Prop where
  activated : ∀ id, (k.tree.activations.find? id).isSome ↔
    ∃ o, k.tree.scopes id = some o ∧ IsBody o.kind
  activation : ∀ {id a o}, k.tree.activations.find? id = some a → k.tree.scopes id = some o →
    a.scope = id ∧ a.entryStep = o.firstStep ∧ (a.isConstructor = true ↔ o.kind = .constructor)

namespace Activated

variable {k : Layout} {top : Frame} {around : List Frame} {kind : ScopeKind} {code : CodeAddress}
  {function : Option Nat} {x : Nat}

theorem fresh (act : Activated k) (num : Numbered k) (hframes : k.frames = top :: around) :
    k.tree.activations.find? k.nextId = none := by
  rw [← Option.not_isSome_iff_eq_none, act.activated]
  rintro ⟨o, ho, -⟩
  rw [num.fresh hframes] at ho
  cases ho

/-- A call frame opens without an activation. -/
theorem openFrame (act : Activated k) (num : Numbered k) (hframes : k.frames = top :: around)
    (hkind : ¬ IsBody kind) : Activated (k.openScope x kind code function) where
  activated id := by
    show (k.tree.activations.find? id).isSome ↔ _
    rw [scopes_openScope]
    split
    · rename_i hid
      rw [hid, act.fresh num hframes]
      simp [hkind]
    · exact act.activated id
  activation {id a o} ha ho := by
    rcases of_openScope ho with ⟨rfl, -⟩ | ⟨-, ho⟩
    · have hnone := act.fresh num hframes
      rw [show k.tree.activations.find? k.nextId = some a from ha] at hnone
      cases hnone
    · exact act.activation ha ho

/-- A function opens with an activation of its own. -/
theorem openBody (act : Activated k) (hkind : IsBody kind) {a : FunctionActivation}
    (hscope : a.scope = k.nextId) (hentry : a.entryStep = x)
    (hconstructor : a.isConstructor = (kind == .constructor)) :
    Activated ((k.openScope x kind code function).addActivation a) where
  activated id := by
    show ((k.tree.activations.insert a.scope a).find? id).isSome ↔
      ∃ o, (k.openScope x kind code function).tree.scopes id = some o ∧ _
    rw [SortedMap.find?_insert, scopes_openScope, hscope]
    split
    · simp [hkind]
    · exact act.activated id
  activation {id b o} hb ho := by
    replace hb : (k.tree.activations.insert a.scope a).find? id = some b := hb
    rw [SortedMap.find?_insert, hscope] at hb
    replace ho : (k.openScope x kind code function).tree.scopes id = some o := ho
    rcases of_openScope ho with ⟨rfl, rfl⟩ | ⟨hid, ho⟩
    · rw [if_pos rfl] at hb
      cases hb
      refine ⟨hscope, hentry, ?_⟩
      rw [hconstructor, beq_iff_eq]
    · rw [if_neg hid] at hb
      exact act.activation hb ho

theorem activations_closeTop (k : Layout) (x : Nat) :
    (k.closeTop x).tree.activations = k.tree.activations := by
  rw [Layout.closeTop]
  split <;> rfl

theorem closeTop (act : Activated k) (hframes : k.frames = top :: around) :
    Activated (k.closeTop x) where
  activated id := by
    rw [activations_closeTop, act.activated]
    constructor
    · rintro ⟨s, hs, hbody⟩
      obtain ⟨o, ho, -, hkind, -⟩ := exists_closeTop (x := x) hframes hs
      exact ⟨o, ho, hkind ▸ hbody⟩
    · rintro ⟨o, ho, hbody⟩
      obtain ⟨s, hs, -, hkind, -⟩ := exists_of_closeTop hframes ho
      exact ⟨s, hs, hkind.symm ▸ hbody⟩
  activation ha ho := by
    rw [activations_closeTop] at ha
    obtain ⟨s, hs, -, hkind, -, hfirst⟩ := exists_of_closeTop hframes ho
    rw [← hkind, ← hfirst]
    exact act.activation ha hs

theorem close (act : Activated k) (n : Nat) : Activated (k.close x n) :=
  close_induction (fun hframes h => h.closeTop hframes) act n

end Activated

/-! ### The invariant of a pass -/

/-- Before the step with number `i` the scopes are in order, and so are their activations. -/
structure Valid (src : Sources) (i : Nat) (p : Pass) : Prop where
  sound : Sound src i i p.layout
  activated : Activated p.layout

namespace Valid

variable {src : Sources} {site : Site} {i : Nat} {p q : Pass}

theorem of_layout (h : Valid src i p) (hlayout : q.layout = p.layout) : Valid src i q :=
  ⟨hlayout ▸ h.sound, hlayout ▸ h.activated⟩

theorem next (h : Valid src i p) : Valid src (i + 1) p :=
  ⟨h.sound.mono (Nat.le_succ i) (Nat.le_succ i), h.activated⟩

theorem openFunction (h : Valid src site.step p) (hx : site.step < src.context.trace.length)
    (hcode : src.codeAt site.step = .ok site.code) {f : FunctionDefinition} {kind : ScopeKind}
    (hkind : IsBody kind) (hopen : p.openFunction src site f kind = .ok q) :
    Valid src site.step q := by
  obtain ⟨a, -, hscope, hentry, hconstructor, hlayout⟩ := Pass.layout_openFunction hopen
  obtain ⟨around, hframes⟩ := p.layout_frames
  have hroot : kind ≠ .root := by
    rintro rfl
    rcases hkind with h | h <;> cases h
  refine ⟨?_, hlayout ▸ h.activated.openBody hkind hscope hentry hconstructor⟩
  -- An activation changes nothing that the order of the scopes speaks of.
  have hsound : Sound src site.step site.step
      (p.layout.openScope site.step kind site.code (some f.id)) :=
    h.sound.openScope hframes hroot hx hcode
  rw [hlayout]
  exact { hsound with
    linked := { hsound.linked with }
    numbered := { hsound.numbered with }
    nested := { hsound.nested with }
    started := { hsound.started with } }

theorem openCall (h : Valid src i p) (hstep : site.step = i)
    (hx : i + 1 < src.context.trace.length) {kind : CodeAddress → ScopeKind}
    (hkind : ∀ c, kind c = .externalCall ∨ kind c = .creation)
    (hopen : p.openCall src site kind = .ok q) : Valid src (i + 1) q := by
  obtain ⟨callee, hcode, hlayout⟩ := Pass.layout_openCall hopen
  obtain ⟨around, hframes⟩ := p.layout_frames
  rw [hstep] at hcode hlayout
  have hroot : kind callee ≠ .root := by
    rcases hkind callee with h | h <;> rw [h] <;> decide
  have hbody : ¬ IsBody (kind callee) := by
    rcases hkind callee with h | h <;> rw [h] <;> simp [IsBody]
  refine ⟨?_, ?_⟩
  · rw [hlayout]
    exact h.next.sound.openScope hframes hroot hx hcode
  · rw [hlayout]
    exact h.activated.openFrame h.sound.numbered hframes hbody

theorem closeCall (h : Valid src i p) : Valid src (i + 1) (p.closeCall i) := by
  obtain ⟨around, hframes⟩ := p.layout_frames
  have hsize := callSize_lt p.layout.frames (by simp [hframes])
  refine ⟨?_, ?_⟩
  · rw [Pass.layout_closeCall]
    exact (h.sound.close (le_refl i) (Nat.le_succ i) (.inl hsize)).mono (Nat.le_succ i) (le_refl _)
  · rw [Pass.layout_closeCall]
    exact h.activated.close _

/-- A function is never the outermost scope. -/
theorem nested_ne_nil (h : Valid src i p) (htop : p.scopes.top.kind = .internalFunction) :
    p.scopes.nested ≠ [] := by
  intro hnil
  have hchain := h.sound.linked.chained
  have hframes : p.layout.frames = [p.scopes.root.frame] := by
    rw [Pass.layout, ScopeStack.toList, hnil]
    rfl
  have hroot : p.scopes.root.kind = .root := by
    rw [hframes] at hchain
    exact hchain.2
  rw [ScopeStack.top, hnil, List.headD_nil, hroot] at htop
  cases htop

theorem closeFunction (h : Valid src i p) (htop : p.scopes.top.kind = .internalFunction) :
    Valid src (i + 1) (p.closeFunction i) := by
  obtain ⟨around, hframes⟩ := p.layout_frames
  have hlayout := Pass.layout_closeFunction (h.nested_ne_nil htop) i
  have hlength : 1 < p.layout.frames.length := by
    have := List.length_pos_iff.2 (h.nested_ne_nil htop)
    rw [p.length_frames, ScopeStack.size]
    omega
  refine ⟨?_, ?_⟩
  · rw [hlayout]
    exact (h.sound.close (n := 1) (le_refl i) (Nat.le_succ i) (.inl hlength)).mono
      (Nat.le_succ i) (le_refl _)
  · rw [hlayout]
    exact h.activated.closeTop hframes

end Valid

/-! ### Steps -/

theorem activated_start (root : CodeAddress) (steps : Nat) : Activated (.start root steps) where
  activated id := by
    constructor
    · intro h
      cases h
    · rintro ⟨o, ho, hbody⟩
      rw [(of_start ho).2] at hbody
      rcases hbody with h | h <;> cases h
  activation ha _ := by cases ha

theorem valid_start {src : Sources} {root : CodeAddress} (hne : src.context.trace.steps ≠ [])
    (hroot : src.codeAt 0 = .ok root) : Valid src 0 (.start root src.context.trace.length) := by
  rw [← List.length_pos_iff] at hne
  refine ⟨?_, ?_⟩
  · rw [Pass.layout_start]
    exact Sound.start hne hroot
  · rw [Pass.layout_start]
    exact activated_start _ _

theorem valid_rules {src : Sources} {i : Nat} {site : Site} (hsite : src.IsSite i site) :
    Pass.StepRules src site (Valid src i) (Valid src i) (Valid src i) (Valid src (i + 1)) := by
  obtain ⟨current, hcurrent, hsite⟩ := hsite
  obtain ⟨rfl, -, hnext, hcode, -⟩ := siteAt_eq_ok hsite
  have hx : site.step < src.context.trace.length := (List.getElem?_eq_some_iff.1 hcurrent).1
  have hdeeper : site.goesDeeper → site.step + 1 < src.context.trace.length := by
    intro h
    rw [Site.goesDeeper, hnext] at h
    cases hn : src.context.trace.steps[site.step + 1]? with
    | none =>
      rw [hn] at h
      cases h
    | some n => exact (List.getElem?_eq_some_iff.1 hn).1
  exact {
    alikeA := fun ha h => h.of_layout ha.layout
    alikeC := fun ha h => h.of_layout ha.layout
    alikeB := fun ha h => h.of_layout ha.layout
    enter := fun hopen h => h.openFunction hx hcode (.inl rfl) hopen
    charge := fun h => h.of_layout (Pass.layout_credit _ _)
    construct := fun hopen h =>
      (h.openFunction hx hcode (.inr rfl) hopen).of_layout (Pass.layout_credit _ _)
    enterAgain := fun hopen h => h.openFunction hx hcode (.inl rfl) hopen
    constructed := fun h => h
    call := fun hkind hdeep hopen h => h.openCall rfl (hdeeper hdeep) hkind hopen
    comesBack := fun h => h.closeCall
    returns := fun htop h => h.closeFunction htop
    stay := fun h => h.next }

/-- Every step keeps the scopes in order. -/
theorem valid_step {src : Sources} {i : Nat} {site : Site} {p q : Pass}
    (hsite : src.IsSite i site) (h : Valid src i p) (hstep : p.step src site = .ok q) :
    Valid src (i + 1) q :=
  (valid_rules hsite).step hstep h

/-! ### The finished tree -/

/-- Whatever is around a scope is a scope. -/
theorem Numbered.upward {k : Layout} (num : Numbered k) {a b : ScopeId}
    (hb : (k.tree.scopes b).isSome) (hab : a.contains b) : (k.tree.scopes a).isSome := by
  obtain ⟨n, hn⟩ : ∃ n, b.path.length = n := ⟨_, rfl⟩
  induction n generalizing b with
  | zero => exact absurd (List.length_eq_zero_iff.1 hn) b.path_ne_nil
  | succ n ih =>
    obtain ⟨o, ho⟩ := Option.isSome_iff_exists.1 hb
    rcases ScopeId.eq_root_or_child (num.belowRoot ho) with rfl | ⟨p, m, rfl, -⟩
    · rw [ScopeId.eq_root_of_contains_root hab]
      exact hb
    · rcases ScopeId.contains_child_iff.1 hab with rfl | hap
      · exact hb
      · exact ih (num.parent hb) hap (by simpa using hn)

/-- The tree has the scopes of a layout that are in order, and none of them is open any more. -/
structure Finished (src : Sources) (k : Layout) (t : CallTree) : Prop where
  sound : Sound src src.context.trace.length src.context.trace.length k
  activated : Activated k
  none_open : k.frames = []
  tree : k.tree = t.skeleton

namespace Finished

variable {src : Sources} {k : Layout} {t : CallTree} {id p : ScopeId} {s c : Scope}

theorem outline (h : Finished src k t) (hs : t.scope? id = some s) :
    k.tree.scopes id = some s.outline :=
  CallTree.outline_of_scope? h.tree hs

theorem exists_scope (h : Finished src k t) {o : Outline} (ho : k.tree.scopes id = some o) :
    ∃ s, t.scope? id = some s ∧ s.outline = o :=
  CallTree.exists_scope?_of_outline h.tree ho

theorem isSome_iff (h : Finished src k t) (id : ScopeId) :
    (k.tree.scopes id).isSome ↔ (t.scope? id).isSome := by
  rw [h.tree, CallTree.skeleton, Option.isSome_map]

theorem stepCount (h : Finished src k t) : t.stepCount = src.context.trace.length := by
  rw [← h.sound.stepCount, h.tree]
  rfl

theorem scopeStarts (h : Finished src k t) : t.scopeStarts = k.tree.starts := by
  rw [h.tree]
  rfl

theorem activation?_eq (h : Finished src k t) (id : ScopeId) :
    t.activation? id = k.tree.activations.find? id := by
  rw [h.tree]
  rfl

/-- A scope without a last step would still be open. -/
theorem exists_lastStep (h : Finished src k t) (hs : t.scope? id = some s) :
    ∃ l, s.lastStep = some l := by
  cases hl : s.lastStep with
  | some l => exact ⟨l, rfl⟩
  | none =>
    obtain ⟨f, hf, -⟩ := h.sound.linked.opened (h.outline hs) hl
    rw [h.none_open] at hf
    cases hf

theorem closed (h : Finished src k t) (hs : t.scope? id = some s) :
    ∃ l, s.lastStep = some l ∧ s.firstStep ≤ l ∧ l ≤ t.stepCount - 1 := by
  obtain ⟨l, hl⟩ := h.exists_lastStep hs
  obtain ⟨hle, hlt⟩ := h.sound.nested.ended (h.outline hs) hl
  exact ⟨l, hl, hle, Nat.le_sub_one_of_lt (h.stepCount ▸ hlt)⟩

theorem root (h : Finished src k t) :
    ∃ s, t.root? = some s ∧ s.kind = .root ∧ s.firstStep = 0 ∧
      s.lastStep = some (t.stepCount - 1) := by
  obtain ⟨o, ho, hkind, hfirst, hend⟩ := h.sound.rooted
  obtain ⟨s, hs, rfl⟩ := h.exists_scope ho
  obtain ⟨l, hl⟩ := h.exists_lastStep hs
  have hlast := hend l hl
  rw [h.sound.stepCount, ← h.stepCount] at hlast
  exact ⟨s, hs, hkind, hfirst, by rw [hl, ← hlast, Nat.add_sub_cancel]⟩

theorem upward (h : Finished src k t) {a b : ScopeId} (hb : (t.scope? b).isSome)
    (hab : a.contains b) : (t.scope? a).isSome :=
  (h.isSome_iff a).1 (h.sound.numbered.upward ((h.isSome_iff b).2 hb) hab)

theorem ordinals (h : Finished src k t) (id : ScopeId) :
    ∃ m, ∀ n, (t.scope? (id.child n)).isSome ↔ 1 ≤ n ∧ n ≤ m := by
  obtain ⟨m, hm⟩ := h.sound.numbered.ordinals id
  exact ⟨m, fun n => (h.isSome_iff _).symm.trans (hm n)⟩

theorem inside (h : Finished src k t) {n : Nat} (hs : t.scope? p = some s)
    (hc : t.scope? (ScopeId.child p n) = some c) :
    s.firstStep ≤ c.firstStep ∧ ∃ m l, c.lastStep = some m ∧ s.lastStep = some l ∧ m ≤ l := by
  obtain ⟨hfirst, hend⟩ := h.sound.nested.inside (h.outline hs) (h.outline hc)
  obtain ⟨l, hl⟩ := h.exists_lastStep hs
  obtain ⟨m, hm, hle⟩ := hend l hl
  exact ⟨hfirst, m, l, hm, hl, hle⟩

theorem starts (h : Finished src k t) (step : Nat) :
    (t.scopeStarts.find? step).isSome ↔ ∃ id s, t.scope? id = some s ∧ s.firstStep = step := by
  rw [h.scopeStarts]
  constructor
  · intro hstart
    obtain ⟨id, hid⟩ := Option.isSome_iff_exists.1 hstart
    obtain ⟨⟨o, ho, hfirst⟩, -⟩ := h.sound.started.started hid
    obtain ⟨s, hs, rfl⟩ := h.exists_scope ho
    exact ⟨id, s, hs, hfirst⟩
  · rintro ⟨id, s, hs, rfl⟩
    exact h.sound.started.starting (h.outline hs)

theorem deepest (h : Finished src k t) {step : Nat}
    (hstart : t.scopeStarts.find? step = some id) :
    (∃ s, t.scope? id = some s ∧ s.firstStep = step) ∧
      ∀ {b r}, t.scope? b = some r → r.firstStep = step → b.contains id := by
  rw [h.scopeStarts] at hstart
  obtain ⟨⟨o, ho, hfirst⟩, hdeep⟩ := h.sound.started.started hstart
  obtain ⟨s, hs, rfl⟩ := h.exists_scope ho
  exact ⟨⟨s, hs, hfirst⟩, fun hb hfirst => hdeep (h.outline hb) hfirst⟩

theorem activation?_isSome_iff (h : Finished src k t) (id : ScopeId) :
    (t.activation? id).isSome ↔ ∃ s, t.scope? id = some s ∧ IsBody s.kind := by
  rw [h.activation?_eq, h.activated.activated]
  constructor
  · rintro ⟨o, ho, hbody⟩
    obtain ⟨s, hs, rfl⟩ := h.exists_scope ho
    exact ⟨s, hs, hbody⟩
  · rintro ⟨s, hs, hbody⟩
    exact ⟨s.outline, h.outline hs, hbody⟩

theorem activation (h : Finished src k t) {a : FunctionActivation}
    (ha : t.activation? id = some a) (hs : t.scope? id = some s) :
    a.scope = id ∧ a.entryStep = s.firstStep ∧ (a.isConstructor = true ↔ s.kind = .constructor) := by
  rw [h.activation?_eq] at ha
  exact h.activated.activation ha (h.outline hs)

theorem wellFormed (h : Finished src k t) : t.WellFormed where
  keyed hs := h.sound.numbered.keyed (h.outline hs)
  closed := h.closed
  root := h.root
  belowRoot hs := h.sound.numbered.belowRoot (h.outline hs)
  upward := h.upward
  ordinals _ := h.ordinals _
  inside := h.inside
  apart hmn ha hb := h.sound.nested.apart hmn (h.outline ha) (h.outline hb)
  starts := h.starts
  deepest := h.deepest
  activated := h.activation?_isSome_iff
  activation := h.activation

end Finished

theorem Valid.finish {src : Sources} {p : Pass} (h : Valid src src.context.trace.length p)
    (hpos : 0 < src.context.trace.length) : ∃ k, Finished src k p.close := by
  have hcount : p.tree.stepCount = src.context.trace.length := h.sound.stepCount
  obtain ⟨hframes, htree⟩ := p.layout_finish
  rw [hcount] at hframes htree
  -- No scope starts past the last step, so all can end there.
  have hearly : Sound src (src.context.trace.length - 1) src.context.trace.length p.layout :=
    { h.sound with nested := { h.sound.nested with
        early := fun ho => by
          have hlt := (h.sound.nested.early ho).2
          have hlt' := hlt
          rw [h.sound.stepCount] at hlt'
          exact ⟨by omega, hlt⟩ } }
  have hclose := hearly.close (n := p.layout.frames.length) (le_refl _) (by omega)
    (.inr (Nat.sub_add_cancel hpos))
  exact ⟨_, hclose.mono (by omega) (by omega), h.activated.close _, hframes, htree⟩

/-- What a reconstruction gives is finished. -/
theorem exists_finished {src : Sources} {tree : CallTree} (h : src.build = .ready tree) :
    0 < src.context.trace.length ∧ ∃ k, Finished src k tree := by
  have hpos : 0 < src.context.trace.length := List.length_pos_iff.2 (build_eq_ready h).1
  obtain ⟨q, hq, rfl⟩ := build_induction (P := Valid src) h valid_start valid_step
  exact ⟨hpos, hq.finish hpos⟩

theorem wellFormed_of_build {src : Sources} {tree : CallTree} (h : src.build = .ready tree) :
    tree.WellFormed ∧ 0 < tree.stepCount ∧ tree.stepCount = src.context.trace.length := by
  obtain ⟨hpos, k, hfin⟩ := exists_finished h
  exact ⟨hfin.wellFormed, hfin.stepCount ▸ hpos, hfin.stepCount⟩

/-- The tree of a trace is well-formed: every scope has ended, the root takes all steps, the ids are
closed outwards and numbered without gaps, children lie in their parents and apart from one another,
the table of starts is right, and exactly the bodies of functions have activations. Every scope runs
the code of its first step. -/
theorem build_wellFormed (src : Sources) (tree : CallTree) (h : src.build = .ready tree) :
    tree.WellFormed ∧ tree.stepCount = src.context.trace.length ∧
      ∀ id s, tree.scope? id = some s → src.codeAt s.firstStep = .ok s.code := by
  obtain ⟨-, k, hfin⟩ := exists_finished h
  refine ⟨hfin.wellFormed, hfin.stepCount, ?_⟩
  intro id s hs
  exact hfin.sound.coded (hfin.outline hs)

/-! ### A trace through a constructor and a function -/

/-- A function in the syntax tree of a source. -/
def sampleFunction (id : Nat) (kind name range : String) : Json :=
  .object [("id", .nat id), ("kind", .string kind), ("name", .string name),
    ("nodeType", .string "FunctionDefinition"), ("src", .string range)]

/-- A contract whose second instruction lies in the text of its constructor and is the entry of its
function `g`. -/
def sampleArtifact : Artifact :=
  { contractName := "A"
    sources := SortedMap.empty.insert 0
      { id := 0, path := "A.sol", content := "contract A"
        ast := .array [sampleFunction 1 "constructor" "" "0:100:0",
          sampleFunction 2 "function" "g" "200:50:0"] }
    creation :=
      { object := [0x5b, 0x5b, 0x5b], sourceMap := "0:50:0:-;200:10;0:50"
        functions := SortedMap.empty.insert "g"
          { entryPoint := some 1, id := some 2, parameterSlots := none, returnSlots := none } } }

/-- Three steps of the creation of that contract. -/
def sampleSources : Sources :=
  { context := (Recording.ofTrace ⟨[⟨0, 100, some 3, 0x5b, 0⟩, ⟨0, 97, some 5, 0x5b, 1⟩,
      ⟨0, 92, some 7, 0x5b, 2⟩]⟩ ⟨default, true⟩).toContext
    resolver := fun _ => .ok (some sampleArtifact) }

theorem Outcome.exists_of_isReady {o : Outcome} (h : o.isReady) : ∃ tree, o = .ready tree := by
  cases o with
  | ready tree => exact ⟨tree, rfl⟩
  | failed e => cases h
  | notReady r => cases h

theorem isReady_sample : sampleSources.build.isReady := by decide +kernel

theorem build_wellFormed_sample : ∃ tree, sampleSources.build = .ready tree ∧
    tree.WellFormed ∧ tree.stepCount = sampleSources.context.trace.length ∧
      ∀ id s, tree.scope? id = some s → sampleSources.codeAt s.firstStep = .ok s.code := by
  obtain ⟨tree, h⟩ := Outcome.exists_of_isReady isReady_sample
  exact ⟨tree, h, build_wellFormed sampleSources tree h⟩

/-- Point queries are exact. At a step of the trace the scopes around it form a chain, `scopeAt?`
finds the deepest of them, and `callStackAt` lists their activations from the inside out; past the
end there are none. -/
theorem build_pointQueries (src : Sources) (tree : CallTree) (h : src.build = .ready tree)
    (step : Nat) :
    (step < src.context.trace.length →
      (∀ a b s r, tree.scope? a = some s → tree.scope? b = some r → s.contains step →
        r.contains step → a.contains b ∨ b.contains a) ∧
      (∃ d, tree.scopeAt? step = some d ∧ tree.Innermost step d) ∧
      ∃ ids : List ScopeId, ids.Pairwise (fun a b => b.isAncestorOf a) ∧
        (∀ a, a ∈ ids ↔ ∃ s, tree.scope? a = some s ∧ s.contains step) ∧
        tree.callStackAt step = ids.filterMap tree.activation?) ∧
    (src.context.trace.length ≤ step → tree.scopeAt? step = none ∧ tree.callStackAt step = []) := by
  obtain ⟨wf, -, hcount⟩ := wellFormed_of_build h
  rw [← hcount]
  refine ⟨?_, ?_⟩
  · intro hstep
    refine ⟨?_, wf.scopeAt?_innermost hstep, wf.callStackAt_eq hstep⟩
    intro a b s r ha hb hs hr
    exact wf.chain ha hb hs hr
  · intro hstep
    exact ⟨CallTree.scopeAt?_eq_none hstep, CallTree.callStackAt_eq_nil hstep⟩

theorem build_pointQueries_sample : ∃ tree, sampleSources.build = .ready tree ∧
    (∃ d, tree.scopeAt? 1 = some d ∧ tree.Innermost 1 d) ∧ tree.callStackAt 3 = [] := by
  obtain ⟨tree, h⟩ := Outcome.exists_of_isReady isReady_sample
  have hinside := (build_pointQueries sampleSources tree h 1).1 (by decide)
  have houtside := (build_pointQueries sampleSources tree h 3).2 (by decide)
  exact ⟨tree, h, hinside.2.1, houtside.2⟩

end TraceTree.Build
