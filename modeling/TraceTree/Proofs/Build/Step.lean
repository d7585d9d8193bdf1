import TraceTree.Proofs.Build.Layout

/-!
What one step of a pass can do, said once. A step may open scopes, is charged to the innermost one,
and then does one thing more: it opens a call frame for the next step, closes a call frame or a
function, or stays. Main statements: these cases (`advance_cases`, `step_cases`), a rule to carry a
property over a step (`StepRules.step`), and one to carry it over a whole reconstruction
(`build_induction`).
-/
namespace TraceTree.Build

namespace Pass

/-! ### Passes with the same layout and gas -/

/-- Two passes that differ in nothing that opening, closing and charging go by. Amounts of gas are
those of 64 bits, which are what they were when nothing is added. -/
structure Alike (p q : Pass) : Prop where
  layout : q.layout = p.layout
  gas : ∀ {id amount}, amount < Text.bound64 →
    p.tree.gasOf? id = some amount → q.tree.gasOf? id = some amount

theorem Alike.refl (p : Pass) : Alike p p := ⟨rfl, fun _ h => h⟩

theorem Alike.trans {p q r : Pass} (hpq : Alike p q) (hqr : Alike q r) : Alike p r :=
  ⟨hqr.layout.trans hpq.layout, fun hlt h => hqr.gas hlt (hpq.gas hlt h)⟩

theorem alike_of_tree {p q : Pass} (hscopes : q.scopes = p.scopes)
    (htree : q.tree.skeleton = p.tree.skeleton)
    (hgas : ∀ id, q.tree.gasOf? id = p.tree.gasOf? id) : Alike p q := by
  refine ⟨?_, fun _ h => (hgas _).trans h⟩
  rw [layout, layout, hscopes, htree]

theorem alike_modifyScope (p : Pass) {f : OpenScope → OpenScope}
    (hf : ∀ s, (f s).frame = s.frame) : Alike p (p.modifyScope f) :=
  ⟨p.layout_modifyScope hf, fun _ h => h⟩

theorem alike_noteValid (p : Pass) (site : Site) : Alike p (p.noteValid site) := by
  rw [noteValid]
  split
  · exact p.alike_modifyScope fun _ => rfl
  · exact .refl p

theorem skeleton_chargeLine (t : CallTree) (src : Sources) (site : Site) (l : StepLocation) :
    (chargeLine t src site l).skeleton = t.skeleton := by
  rw [chargeLine]
  split <;> rfl

theorem gasOf?_chargeLine (t : CallTree) (src : Sources) (site : Site) (l : StepLocation)
    (id : ScopeId) : (chargeLine t src site l).gasOf? id = t.gasOf? id := by
  rw [chargeLine]
  split <;> rfl

theorem alike_observe (p : Pass) (src : Sources) (site : Site) :
    Alike p (p.observe src site) := by
  rw [observe]
  refine .trans ?_ (alike_noteValid _ site)
  exact alike_of_tree rfl (skeleton_chargeLine _ _ _ _) (gasOf?_chargeLine _ _ _ _)

theorem alike_track (p : Pass) (site : Site) : Alike p (p.track site) := by
  rw [track]
  split
  · exact .refl p
  · refine .trans ?_ (alike_modifyScope _ fun _ => rfl)
    refine alike_of_tree rfl (CallTree.skeleton_addBreakpoint _ _) ?_
    intro id
    rw [CallTree.addBreakpoint]
    split <;> rfl

theorem alike_await (p : Pass) (site : Site) : Alike p (p.await site) := by
  rw [await]
  split
  · split
    · exact alike_of_tree rfl rfl fun _ => rfl
    · exact .refl p
  · exact .refl p

theorem alike_takeAwaited (p : Pass) (site : Site) : Alike p (p.takeAwaited site).1 := by
  rw [takeAwaited]
  split
  · exact .refl p
  · split
    · exact .refl p
    · dsimp only
      split
      · exact alike_of_tree rfl rfl fun _ => rfl
      · exact alike_of_tree rfl rfl fun _ => rfl

theorem alike_declareLocals {p q : Pass} {src : Sources} {site : Site}
    (h : p.declareLocals src site = .ok q) : Alike p q := by
  rw [declareLocals] at h
  split at h
  · cases h
    exact .refl p
  · obtain ⟨n, -, h⟩ := bind_eq_ok.1 h
    cases h
    exact alike_of_tree rfl (CallTree.skeleton_addVariables _ _)
      (CallTree.gasOf?_addVariables _ _)

theorem alike_credit_zero (p : Pass) : Alike p (p.credit 0) := by
  refine ⟨layout_credit p 0, fun hlt h => ?_⟩
  rw [credit, CallTree.gasOf?_creditGas, h]
  split
  · exact congrArg some (Gas.add_zero_of_lt hlt)
  · rfl

/-! ### Gas -/

theorem gasOf?_credit (p : Pass) (gas : Nat) (id : ScopeId) :
    (p.credit gas).tree.gasOf? id =
      if id = p.scope then (p.tree.gasOf? id).map (Gas.add · gas) else p.tree.gasOf? id :=
  CallTree.gasOf?_creditGas _ _ _ _

theorem gasOf?_openScope {p q : Pass} {src : Sources} {step firstStep : Nat} {kind : ScopeKind}
    {code : CodeAddress} {function : Option Nat}
    (h : p.openScope src step firstStep kind code function = .ok q) (id : ScopeId) :
    q.tree.gasOf? id = if id = p.layout.nextId then some 0 else p.tree.gasOf? id := by
  rw [openScope] at h
  split at h
  · cases h
  · cases h
    rw [nextId_layout]
    exact CallTree.gasOf?_openScope _ _ _

theorem gasOf?_openFunction {p q : Pass} {src : Sources} {site : Site} {f : FunctionDefinition}
    {kind : ScopeKind} (h : p.openFunction src site f kind = .ok q) (id : ScopeId) :
    q.tree.gasOf? id = if id = p.layout.nextId then some 0 else p.tree.gasOf? id := by
  obtain ⟨r, hopen, h⟩ := bind_eq_ok.1 h
  obtain ⟨n, -, h⟩ := bind_eq_ok.1 h
  cases h
  rw [← gasOf?_openScope hopen]
  exact CallTree.gasOf?_addVariables _ _ _

theorem gasOf?_openCall {p q : Pass} {src : Sources} {site : Site} {kind : CodeAddress → ScopeKind}
    (h : p.openCall src site kind = .ok q) (id : ScopeId) :
    q.tree.gasOf? id = if id = p.layout.nextId then some 0 else p.tree.gasOf? id := by
  obtain ⟨callee, -, h⟩ := bind_eq_ok.1 h
  exact gasOf?_openScope h id

theorem gasOf?_closeAll (t : CallTree) (scopes : List OpenScope) (lastStep : Nat) (id : ScopeId) :
    (closeAll t scopes lastStep).gasOf? id = t.gasOf? id := by
  induction scopes generalizing t with
  | nil => rfl
  | cons s scopes ih =>
    rw [closeAll, List.foldl_cons, ← closeAll, ih, CallTree.gasOf?_closeScope]

theorem gasOf?_closeFunction (p : Pass) (lastStep : Nat) (id : ScopeId) :
    (p.closeFunction lastStep).tree.gasOf? id = p.tree.gasOf? id := by
  rw [closeFunction]
  split
  · rfl
  · dsimp only
    split
    · exact CallTree.gasOf?_closeScope _ _ _ _
    · exact CallTree.gasOf?_closeScope _ _ _ _

/-! ### Cases of a step -/

/-- What a step does after it has been charged. -/
inductive Leaves (p : Pass) (src : Sources) (site : Site) (opened : Bool) : Pass → Prop
  | comesBack (hback : site.comesBack) : Leaves p src site opened (p.closeCall site.step)
  | goesDeeper {q : Pass} (hback : ¬ site.comesBack) (hdeeper : site.goesDeeper)
      (hopen : p.openCall src site
        (fun callee => if callee.isCreation then .creation else .externalCall) = .ok q) :
      Leaves p src site opened q
  | opened (hback : ¬ site.comesBack) (hdeeper : ¬ site.goesDeeper) (hopened : opened) :
      Leaves p src site opened p
  | returns (hback : ¬ site.comesBack) (hdeeper : ¬ site.goesDeeper) (hopened : ¬ opened)
      (hout : site.raw.jump = .out) (htop : p.scopes.top.kind = .internalFunction) :
      Leaves p src site opened (p.closeFunction site.step)
  | declares {q : Pass} (hback : ¬ site.comesBack) (hdeeper : ¬ site.goesDeeper)
      (hopened : ¬ opened)
      (hreturn : ¬ (site.raw.jump = .out ∧ p.scopes.top.kind = .internalFunction))
      (hlocals : q = p ∨ p.declareLocals src site = .ok q) : Leaves p src site opened q

theorem enter_cases {p r : Pass} {src : Sources} {site : Site} {entry : Option Nat} {opened : Bool}
    (h : p.enter src site entry = .ok (r, opened)) :
    (r = p ∧ ¬ opened ∧
        ∀ f, entry.bind site.artifact.functionDefinition? = some f → f.isConstructor) ∨
      ∃ f, entry.bind site.artifact.functionDefinition? = some f ∧ ¬ f.isConstructor ∧ opened ∧
        p.openFunction src site f .internalFunction = .ok r := by
  rw [enter] at h
  split at h
  · rename_i hnone
    cases h
    refine .inl ⟨rfl, by simp, ?_⟩
    intro f hf
    rw [hnone] at hf
    cases hf
  · rename_i f hf
    split at h
    · rename_i hc
      cases h
      refine .inl ⟨rfl, by simp, ?_⟩
      intro g hg
      rw [hf] at hg
      cases hg
      exact hc
    · rename_i hc
      cases hopen : p.openFunction src site f .internalFunction with
      | error e =>
        rw [hopen] at h
        cases h
      | ok s =>
        rw [hopen] at h
        cases h
        exact .inr ⟨f, hf, hc, rfl, hopen⟩

theorem finish_cases {p q : Pass} {src : Sources} {site : Site} {opened : Bool}
    (hback : ¬ site.comesBack) (hdeeper : ¬ site.goesDeeper) (hopened : ¬ opened)
    (h : p.finish src site = .ok q) : Leaves p src site opened q := by
  rw [finish] at h
  split at h
  · rename_i hreturn
    cases h
    exact .returns hback hdeeper hopened hreturn.1 hreturn.2
  · rename_i hreturn
    split at h
    · exact .declares hback hdeeper hopened hreturn (.inr h)
    · cases h
      exact .declares hback hdeeper hopened hreturn (.inl rfl)

/-- The kind of the frame that a call instruction opens. -/
def calledKind (site : Site) : ScopeKind :=
  if site.current.opcode.isCreate then .creation else .externalCall

/-- What a step does after it has been charged, when no call instruction leads deeper. -/
def leave (p : Pass) (src : Sources) (site : Site) (opened : Bool) : Except BuildError Pass :=
  if site.comesBack then .ok (p.closeCall site.step)
  else if site.goesDeeper then
    p.openCall src site fun callee => if callee.isCreation then .creation else .externalCall
  else if opened then .ok p
  else p.finish src site

theorem leaves_of_leave {p q : Pass} {src : Sources} {site : Site} {opened : Bool}
    (h : p.leave src site opened = .ok q) : p.Leaves src site opened q := by
  rw [leave] at h
  split at h
  · rename_i hback
    cases h
    exact .comesBack hback
  · rename_i hback
    split at h
    · rename_i hdeeper
      exact .goesDeeper hback hdeeper h
    · rename_i hdeeper
      split at h
      · rename_i hopened
        cases h
        exact .opened hback hdeeper hopened
      · rename_i hopened
        exact finish_cases hback hdeeper hopened h

theorem advance_of_call {p : Pass} {src : Sources} {site : Site} {entry : Option Nat} {gas : Nat}
    (hcall : site.current.opcode.opensFrame ∧ site.goesDeeper) :
    p.advance src site entry gas = (p.credit gas).openCall src site fun _ => calledKind site :=
  if_pos (Bool.and_eq_true_iff.2 hcall)

theorem advance_of_no_call {p : Pass} {src : Sources} {site : Site} {entry : Option Nat} {gas : Nat}
    (hcall : ¬ (site.current.opcode.opensFrame ∧ site.goesDeeper)) :
    p.advance src site entry gas =
      p.enter src site entry >>= fun r => (r.1.credit gas).leave src site r.2 :=
  if_neg fun h => hcall (Bool.and_eq_true_iff.1 h)

/-- A step either calls, or it enters a function or none, is charged, and leaves. -/
theorem advance_cases {p q : Pass} {src : Sources} {site : Site} {entry : Option Nat} {gas : Nat}
    (h : p.advance src site entry gas = .ok q) :
    (site.current.opcode.opensFrame ∧ site.goesDeeper ∧
        (p.credit gas).openCall src site (fun _ => calledKind site) = .ok q) ∨
      ¬ (site.current.opcode.opensFrame ∧ site.goesDeeper) ∧
        ∃ r opened, p.enter src site entry = .ok (r, opened) ∧
          (r.credit gas).Leaves src site opened q := by
  by_cases hcall : site.current.opcode.opensFrame ∧ site.goesDeeper
  · rw [advance_of_call hcall] at h
    exact .inl ⟨hcall.1, hcall.2, h⟩
  · rw [advance_of_no_call hcall] at h
    obtain ⟨⟨r, opened⟩, hr, h⟩ := bind_eq_ok.1 h
    exact .inr ⟨hcall, r, opened, hr, leaves_of_leave h⟩

/-- The pass at a step before a constructor is taken. -/
def arrive (p : Pass) (src : Sources) (site : Site) : Pass :=
  ((p.observe src site).track site).await site

theorem alike_arrive (p : Pass) (src : Sources) (site : Site) : Alike p (p.arrive src site) :=
  ((alike_observe p src site).trans (alike_track _ site)).trans (alike_await _ site)

/-- A step that takes no constructor advances once. -/
theorem step_of_none {p r : Pass} {src : Sources} {site : Site}
    (h : (p.arrive src site).takeAwaited site = (r, none)) :
    p.step src site =
      r.advance src site (Pass.entry? (p.observe src site) site false) site.gas := by
  rw [step, ← arrive]
  dsimp only
  rw [h]

/-- A step that takes a constructor opens it, is charged there, and advances inside of it. -/
theorem step_of_some {p r : Pass} {src : Sources} {site : Site} {f : FunctionDefinition}
    (h : (p.arrive src site).takeAwaited site = (r, some f)) :
    p.step src site = r.openFunction src site f .constructor >>= fun s =>
      (((s.credit site.gas).noteValid site).track site).advance src site
        (Pass.entry? ((s.credit site.gas).noteValid site) site true) 0 := by
  rw [step, ← arrive]
  dsimp only
  rw [h]

theorem layout_taken (p : Pass) (src : Sources) (site : Site) :
    ((p.arrive src site).takeAwaited site).1.layout = p.layout :=
  ((alike_arrive p src site).trans (alike_takeAwaited _ site)).layout

/-- Inside the constructor that it took a step changes nothing of the layout before it advances. -/
theorem layout_inside (s : Pass) (site : Site) (gas : Nat) :
    (((s.credit gas).noteValid site).track site).layout = s.layout :=
  ((alike_noteValid _ site).trans (alike_track _ site)).layout.trans (layout_credit s gas)

/-- A step advances once, or opens a constructor and advances inside of it. -/
theorem step_cases {p q : Pass} {src : Sources} {site : Site} (h : p.step src site = .ok q) :
    (∃ r, (p.arrive src site).takeAwaited site = (r, none) ∧
        r.advance src site (Pass.entry? (p.observe src site) site false) site.gas = .ok q) ∨
      ∃ r f s, (p.arrive src site).takeAwaited site = (r, some f) ∧
        r.openFunction src site f .constructor = .ok s ∧
        (((s.credit site.gas).noteValid site).track site).advance src site
          (Pass.entry? ((s.credit site.gas).noteValid site) site true) 0 = .ok q := by
  cases htake : (p.arrive src site).takeAwaited site with
  | mk r built =>
    cases built with
    | none =>
      rw [step_of_none htake] at h
      exact .inl ⟨r, rfl, h⟩
    | some f =>
      rw [step_of_some htake] at h
      obtain ⟨s, hs, h⟩ := bind_eq_ok.1 h
      exact .inr ⟨r, f, s, rfl, hs, h⟩

/-! ### Carrying a property over a step -/

/-- Enough to carry a property over a step: `A` before the step is charged, `C` once it is charged
to a constructor that opened, `B` once it is charged, and `Q` after the step. -/
structure StepRules (src : Sources) (site : Site) (A C B Q : Pass → Prop) : Prop where
  alikeA : ∀ {p q}, Alike p q → A p → A q
  alikeC : ∀ {p q}, Alike p q → C p → C q
  alikeB : ∀ {p q}, Alike p q → B p → B q
  enter : ∀ {p q f}, p.openFunction src site f .internalFunction = .ok q → A p → A q
  charge : ∀ {p}, A p → B (p.credit site.gas)
  construct : ∀ {p q f}, p.openFunction src site f .constructor = .ok q → A p →
    C (q.credit site.gas)
  enterAgain : ∀ {p q f}, p.openFunction src site f .internalFunction = .ok q → C p → B q
  constructed : ∀ {p}, C p → B p
  call : ∀ {p q kind}, (∀ c, kind c = .externalCall ∨ kind c = .creation) → site.goesDeeper →
    p.openCall src site kind = .ok q → B p → Q q
  comesBack : ∀ {p}, B p → Q (p.closeCall site.step)
  returns : ∀ {p}, p.scopes.top.kind = .internalFunction → B p → Q (p.closeFunction site.step)
  stay : ∀ {p}, B p → Q p

namespace StepRules

variable {src : Sources} {site : Site} {A C B Q : Pass → Prop} {p q : Pass}

theorem leaves (rules : StepRules src site A C B Q) {opened : Bool}
    (h : p.Leaves src site opened q) (hp : B p) : Q q := by
  cases h with
  | comesBack => exact rules.comesBack hp
  | goesDeeper hback hdeeper hopen =>
    refine rules.call ?_ hdeeper hopen hp
    intro c
    split
    · exact .inr rfl
    · exact .inl rfl
  | opened => exact rules.stay hp
  | returns _ _ _ _ htop => exact rules.returns htop hp
  | declares _ _ _ _ hlocals =>
    rcases hlocals with rfl | hlocals
    · exact rules.stay hp
    · exact rules.stay (rules.alikeB (alike_declareLocals hlocals) hp)

theorem calls (rules : StepRules src site A C B Q) (hdeeper : site.goesDeeper)
    (h : p.openCall src site (fun _ => calledKind site) = .ok q) (hp : B p) : Q q := by
  refine rules.call ?_ hdeeper h hp
  intro c
  rw [calledKind]
  split
  · exact .inr rfl
  · exact .inl rfl

/-- The property is carried over every step. -/
theorem step (rules : StepRules src site A C B Q) (h : p.step src site = .ok q) (hp : A p) :
    Q q := by
  have harrive : A (p.arrive src site) := rules.alikeA (alike_arrive p src site) hp
  have htake := alike_takeAwaited (p.arrive src site) site
  rcases step_cases h with ⟨r, hr, hadv⟩ | ⟨r, f, s, hr, hs, hadv⟩
  · rw [hr] at htake
    have hA : A r := rules.alikeA htake harrive
    rcases advance_cases hadv with ⟨-, hdeeper, hopen⟩ | ⟨-, r', opened, henter, hleaves⟩
    · exact rules.calls hdeeper hopen (rules.charge hA)
    · rcases enter_cases henter with ⟨rfl, -, -⟩ | ⟨f, -, -, -, hopen⟩
      · exact rules.leaves hleaves (rules.charge hA)
      · exact rules.leaves hleaves (rules.charge (rules.enter hopen hA))
  · rw [hr] at htake
    have hC : C (((s.credit site.gas).noteValid site).track site) :=
      rules.alikeC ((alike_noteValid _ site).trans (alike_track _ site))
        (rules.construct hs (rules.alikeA htake harrive))
    -- The step is taken up again for nothing: its gas is charged already.
    rcases advance_cases hadv with ⟨-, hdeeper, hopen⟩ | ⟨-, r', opened, henter, hleaves⟩
    · refine rules.calls hdeeper hopen (rules.alikeB (alike_credit_zero _) ?_)
      exact rules.constructed hC
    · refine rules.leaves hleaves (rules.alikeB (alike_credit_zero _) ?_)
      rcases enter_cases henter with ⟨rfl, -, -⟩ | ⟨g, -, -, -, hopen⟩
      · exact rules.constructed hC
      · exact rules.enterAgain hopen hC

end StepRules

end Pass

/-! ### Carrying a property over a reconstruction -/

theorem siteAt_eq_ok {src : Sources} {i : Nat} {current : TraceStep} {next : Option TraceStep}
    {site : Site} (h : src.siteAt i current next = .ok site) :
    site.step = i ∧ site.current = current ∧ site.next = next ∧ src.codeAt i = .ok site.code ∧
      src.artifactAt i site.code.address = .ok site.artifact ∧
      site.bytecode.locate current.pc = .ok site.raw ∧
      site.isValid =
        site.artifact.isValidLocation site.raw site.bytecode src.options.includeGenerated := by
  obtain ⟨code, hcode, h⟩ := bind_eq_ok.1 h
  obtain ⟨artifact, hartifact, h⟩ := bind_eq_ok.1 h
  obtain ⟨raw, hraw, h⟩ := bind_eq_ok.1 h
  cases h
  refine ⟨rfl, rfl, rfl, hcode, hartifact, ?_, rfl⟩
  show (artifact.bytecode code.isCreation).locate current.pc = .ok raw
  cases hloc : (artifact.bytecode code.isCreation).locate current.pc with
  | error e =>
    rw [hloc] at hraw
    cases hraw
  | ok l =>
    rw [hloc] at hraw
    cases hraw
    rfl

/-- Which artifact runs at a step depends on the address alone. -/
theorem artifactAt_eq_ok {src : Sources} {i : Nat} {address : Address} {artifact : Artifact} :
    src.artifactAt i address = .ok artifact ↔ src.resolver address = .ok (some artifact) := by
  rw [Sources.artifactAt]
  cases src.resolver address with
  | error reason => simp
  | ok found => cases found <;> simp

/-- The site of a step of the trace. -/
def Sources.IsSite (src : Sources) (i : Nat) (site : Site) : Prop :=
  ∃ current, src.context.trace.steps[i]? = some current ∧
    src.siteAt i current src.context.trace.steps[i + 1]? = .ok site

theorem run_drop {src : Sources} {i : Nat} {current : TraceStep}
    (h : src.context.trace.steps[i]? = some current) (p : Pass) :
    Pass.run src i (src.context.trace.steps.drop i) p =
      src.siteAt i current src.context.trace.steps[i + 1]? >>= fun site =>
        p.step src site >>= Pass.run src (i + 1) (src.context.trace.steps.drop (i + 1)) := by
  obtain ⟨hi, rfl⟩ := List.getElem?_eq_some_iff.1 h
  rw [List.drop_eq_getElem_cons hi, Pass.run, List.head?_drop]

theorem run_induction {src : Sources} {P : Nat → Pass → Prop}
    (hstep : ∀ {i site p q}, src.IsSite i site → P i p → p.step src site = .ok q → P (i + 1) q)
    {i : Nat} {p q : Pass} (hi : i ≤ src.context.trace.length)
    (h : Pass.run src i (src.context.trace.steps.drop i) p = .ok q) (hp : P i p) :
    P src.context.trace.length q := by
  obtain ⟨n, hn⟩ := Nat.exists_eq_add_of_le hi
  induction n generalizing i p with
  | zero =>
    rw [List.drop_of_length_le (by rw [Trace.length] at hn; omega), Pass.run] at h
    cases h
    rw [hn]
    exact hp
  | succ n ih =>
    have hlt : i < src.context.trace.steps.length := by rw [Trace.length] at hn; omega
    have hcurrent := List.getElem?_eq_getElem hlt
    rw [run_drop hcurrent] at h
    obtain ⟨site, hsite, h⟩ := bind_eq_ok.1 h
    obtain ⟨r, hr, h⟩ := bind_eq_ok.1 h
    exact ih (by omega) h (hstep ⟨_, hcurrent, hsite⟩ hp hr) (by omega)

theorem build_eq_ready {src : Sources} {tree : CallTree} (h : src.build = .ready tree) :
    src.context.trace.steps ≠ [] ∧ ∃ root, src.codeAt 0 = .ok root ∧ ∃ q,
      Pass.run src 0 src.context.trace.steps (.start root src.context.trace.steps.length) = .ok q ∧
        q.close = tree := by
  rw [Sources.build] at h
  split at h
  · cases h
  · rename_i hne
    refine ⟨fun he => hne (by rw [he]; rfl), ?_⟩
    split at h
    · cases h
    · rename_i root hroot
      refine ⟨root, hroot, ?_⟩
      split at h
      · cases h
      · cases h
      · split at h
        · rename_i t ht
          cases h
          rw [Sources.tree] at ht
          cases hrun : Pass.run src 0 src.context.trace.steps
              (.start root src.context.trace.steps.length) with
          | error e =>
            rw [hrun] at ht
            cases ht
          | ok q =>
            rw [hrun] at ht
            cases ht
            exact ⟨q, rfl, rfl⟩
        · cases h

/-- A pass that comes to the end of the trace gives a tree. -/
theorem build_of_run {src : Sources} {root : CodeAddress} {artifact : Artifact} {q : Pass}
    (hne : src.context.trace.steps ≠ []) (hroot : src.codeAt 0 = .ok root)
    (hartifact : src.artifactAt 0 root.address = .ok artifact)
    (hrun : Pass.run src 0 src.context.trace.steps (.start root src.context.trace.length) = .ok q) :
    src.build = .ready q.close := by
  have htree : src.tree root = .ok q.close := by
    show (Pass.run src 0 src.context.trace.steps (.start root src.context.trace.length)).map _ = _
    rw [hrun]
    rfl
  rw [Sources.build, if_neg (by simpa using hne), hroot]
  dsimp only
  rw [hartifact]
  dsimp only
  rw [htree]

/-- A property that holds at the start and is carried over every step holds at the end. -/
theorem build_induction {src : Sources} {P : Nat → Pass → Prop} {tree : CallTree}
    (h : src.build = .ready tree)
    (hstart : ∀ {root}, src.context.trace.steps ≠ [] → src.codeAt 0 = .ok root →
      P 0 (.start root src.context.trace.length))
    (hstep : ∀ {i site p q}, src.IsSite i site → P i p → p.step src site = .ok q → P (i + 1) q) :
    ∃ q, P src.context.trace.length q ∧ q.close = tree := by
  obtain ⟨hne, root, hroot, q, hrun, hclose⟩ := build_eq_ready h
  exact ⟨q, run_induction hstep (Nat.zero_le _) hrun (hstart hne hroot), hclose⟩

end TraceTree.Build
