import TraceTree.Proofs.Build.History

/-!
The passes of a reconstruction one after the other, also of one that fails. Main statements: a
reconstruction that gets to its first step ends as the pass after the last step does
(`build_of_starts`), a reconstruction that ends in a tree has those passes as its history
(`History.passBefore_eq`), and what fails at a step tells that step (`step_of_stepAt_eq_error`).
-/
namespace TraceTree.Build

/-! ### Passes before steps -/

/-- Takes up the step `i`; nothing happens past the end. -/
def Sources.stepAt (src : Sources) (i : Nat) (p : Pass) : Except BuildError Pass :=
  match src.context.trace.steps[i]? with
  | none => .ok p
  | some current => src.siteAt i current src.context.trace.steps[i + 1]? >>= p.step src

/-- The code of the first step is `root`, and its artifact is known. -/
def Sources.Starts (src : Sources) (root : CodeAddress) : Prop :=
  src.codeAt 0 = .ok root ∧ ∃ artifact, src.artifactAt 0 root.address = .ok artifact

/-- The pass before the step `i` of a trace that starts in the code `root`. -/
def Sources.passBefore (src : Sources) (root : CodeAddress) : Nat → Except BuildError Pass
  | 0 => .ok (.start root src.context.trace.length)
  | i + 1 => src.passBefore root i >>= src.stepAt i

section Passes

variable {src : Sources} {root : CodeAddress} {i j : Nat} {p q : Pass} {site : Site}
  {e : BuildError} {tree : CallTree} {pass : Nat → Pass}

theorem stepAt_of_isSite (hsite : src.IsSite i site) : src.stepAt i p = p.step src site := by
  obtain ⟨current, hcurrent, hsite⟩ := hsite
  rw [Sources.stepAt, hcurrent]
  dsimp only
  rw [hsite]
  rfl

theorem exists_isSite_of_stepAt (hi : i < src.context.trace.length)
    (h : src.stepAt i p = .ok q) : ∃ site, src.IsSite i site ∧ p.step src site = .ok q := by
  rw [Sources.stepAt, List.getElem?_eq_getElem hi] at h
  obtain ⟨site, hsite, h⟩ := bind_eq_ok.1 h
  exact ⟨site, ⟨_, List.getElem?_eq_getElem hi, hsite⟩, h⟩

/-- The steps up to `i` come first, and then those from `i` on. -/
theorem run_eq_passBefore (hi : i ≤ src.context.trace.length) :
    Pass.run src 0 src.context.trace.steps (.start root src.context.trace.length) =
      src.passBefore root i >>= Pass.run src i (src.context.trace.steps.drop i) := by
  induction i with
  | zero => rfl
  | succ i ih =>
    rw [ih (Nat.le_of_succ_le hi), Sources.passBefore, bind_assoc]
    refine bind_congr fun p => ?_
    have hcurrent := List.getElem?_eq_getElem (l := src.context.trace.steps) hi
    rw [run_drop hcurrent, Sources.stepAt, hcurrent]
    dsimp only
    rw [bind_assoc]

theorem tree_eq_passBefore : src.tree root =
    (src.passBefore root src.context.trace.length).map Pass.close := by
  show (Pass.run src 0 src.context.trace.steps (.start root src.context.trace.length)).map _ = _
  rw [run_eq_passBefore (le_refl _), Trace.length, List.drop_length]
  cases src.passBefore root src.context.trace.steps.length with
  | error e => rfl
  | ok p => rfl

/-- A reconstruction that gets to its first step ends as its last pass does. -/
theorem build_of_starts (hne : src.context.trace.steps ≠ []) (hstarts : src.Starts root) :
    src.build = match src.passBefore root src.context.trace.length with
      | .ok p => .ready p.close
      | .error e => .failed e := by
  obtain ⟨hroot, artifact, hartifact⟩ := hstarts
  rw [Sources.build, if_neg (by simpa using hne), hroot]
  dsimp only
  rw [hartifact]
  dsimp only
  rw [tree_eq_passBefore]
  cases src.passBefore root src.context.trace.length with
  | error e => rfl
  | ok p => rfl

/-- Where a step fails all later passes do. -/
theorem passBefore_eq_error_of_le (hij : i ≤ j) (h : src.passBefore root i = .error e) :
    src.passBefore root j = .error e := by
  induction j, hij using Nat.le_induction with
  | base => exact h
  | succ j _ ih =>
    rw [Sources.passBefore, ih]
    rfl

theorem build_of_passBefore (hne : src.context.trace.steps ≠ []) (hstarts : src.Starts root)
    (h : src.passBefore root src.context.trace.length = .ok p) : src.build = .ready p.close := by
  rw [build_of_starts hne hstarts, h]

theorem build_of_passBefore_error (hne : src.context.trace.steps ≠ []) (hstarts : src.Starts root)
    (hi : i ≤ src.context.trace.length) (h : src.passBefore root i = .error e) :
    src.build = .failed e := by
  rw [build_of_starts hne hstarts, passBefore_eq_error_of_le hi h]

theorem exists_passBefore_of_le (hij : i ≤ j) (h : src.passBefore root j = .ok q) :
    ∃ p, src.passBefore root i = .ok p := by
  cases hi : src.passBefore root i with
  | ok p => exact ⟨p, rfl⟩
  | error e =>
    rw [passBefore_eq_error_of_le hij hi] at h
    cases h

/-- A pass that fails does so at some step, before which there is a pass. -/
theorem exists_stepAt_eq_error (h : src.passBefore root j = .error e) :
    ∃ i p, i < j ∧ src.passBefore root i = .ok p ∧ src.stepAt i p = .error e := by
  induction j with
  | zero => cases h
  | succ j ih =>
    rw [Sources.passBefore] at h
    cases hp : src.passBefore root j with
    | ok p =>
      rw [hp] at h
      exact ⟨j, p, Nat.lt_succ_self j, hp, h⟩
    | error e' =>
      rw [hp] at h
      cases h
      obtain ⟨i, p, hi, hpass, hstep⟩ := ih hp
      exact ⟨i, p, hi.trans (Nat.lt_succ_self j), hpass, hstep⟩

theorem History.starts (hist : History src tree pass) : ∃ root, src.Starts root := by
  obtain ⟨st⟩ := hist.stage (List.length_pos_of_ne_nil hist.nonempty)
  obtain ⟨-, -, -, hcode, hartifact⟩ := st.isSite.spec
  exact ⟨st.site.code, hcode, st.site.artifact, hartifact⟩

/-- The passes of a history are those before the steps. -/
theorem History.passBefore_eq (hist : History src tree pass) (hroot : src.codeAt 0 = .ok root)
    (hi : i ≤ src.context.trace.length) : src.passBefore root i = .ok (pass i) := by
  induction i with
  | zero =>
    obtain ⟨root', hroot', hstart⟩ := hist.start
    rw [hroot] at hroot'
    cases hroot'
    rw [hstart]
    rfl
  | succ i ih =>
    obtain ⟨st⟩ := hist.stage hi
    rw [Sources.passBefore, ih (Nat.le_of_succ_le hi)]
    exact (stepAt_of_isSite st.isSite).trans st.steps

end Passes

/-! ### Errors -/

/-- All errors belong to the step. -/
def FailsAt {α : Type} (step : Nat) (x : Except BuildError α) : Prop :=
  ∀ e, x = .error e → e.step = step

section Errors

variable {α β : Type} {step : Nat} {src : Sources} {site : Site} {p : Pass}

theorem failsAt_ok (a : α) : FailsAt step (.ok a) := by
  intro e h
  cases h

theorem FailsAt.bind {x : Except BuildError α} {f : α → Except BuildError β}
    (hx : FailsAt step x) (hf : ∀ a, x = .ok a → FailsAt step (f a)) : FailsAt step (x >>= f) := by
  intro e h
  cases x with
  | error e' =>
    cases h
    exact hx _ rfl
  | ok a => exact hf a rfl e h

theorem FailsAt.map {x : Except BuildError α} (hx : FailsAt step x) (f : α → β) :
    FailsAt step (x.map f) := by
  intro e h
  cases x with
  | error e' =>
    cases h
    exact hx _ rfl
  | ok a => cases h

theorem failsAt_codeAt : FailsAt step (src.codeAt step) := by
  intro e h
  rw [Sources.codeAt] at h
  cases hcode : src.context.codeAt step with
  | error reason =>
    rw [hcode] at h
    cases h
    rfl
  | ok code =>
    rw [hcode] at h
    cases h

theorem failsAt_stackLengthAt : FailsAt step (src.stackLengthAt step) := by
  intro e h
  rw [Sources.stackLengthAt] at h
  cases hstack : src.context.stackAt step with
  | error reason =>
    rw [hstack] at h
    cases h
    rfl
  | ok stack =>
    rw [hstack] at h
    cases h

theorem failsAt_artifactAt (address : Address) : FailsAt step (src.artifactAt step address) := by
  intro e h
  rw [Sources.artifactAt] at h
  split at h
  · cases h
    rfl
  · cases h
    rfl
  · cases h

theorem failsAt_siteAt {current : TraceStep} {next : Option TraceStep} :
    FailsAt step (src.siteAt step current next) := by
  refine failsAt_codeAt.bind fun code _ => ?_
  refine (failsAt_artifactAt code.address).bind fun artifact _ => ?_
  refine FailsAt.bind ?_ fun raw _ => failsAt_ok _
  intro e h
  cases hlocate : (artifact.bytecode code.isCreation).locate current.pc with
  | error source =>
    rw [hlocate] at h
    cases h
    rfl
  | ok raw =>
    rw [hlocate] at h
    cases h

theorem failsAt_openScope {firstStep : Nat} {kind : ScopeKind} {code : CodeAddress}
    {function : Option Nat} :
    FailsAt step (p.openScope src step firstStep kind code function) := by
  intro e h
  rw [Pass.openScope] at h
  split at h
  · cases h
    rfl
  · cases h

theorem failsAt_openFunction {f : FunctionDefinition} {kind : ScopeKind} :
    FailsAt site.step (p.openFunction src site f kind) :=
  failsAt_openScope.bind fun _ _ => failsAt_stackLengthAt.bind fun _ _ => failsAt_ok _

theorem failsAt_openCall {kind : CodeAddress → ScopeKind}
    (hcode : ∃ code, src.codeAt (site.step + 1) = .ok code) :
    FailsAt site.step (p.openCall src site kind) := by
  obtain ⟨code, hcode⟩ := hcode
  rw [Pass.openCall, hcode]
  exact failsAt_openScope

theorem failsAt_declareLocals : FailsAt site.step (p.declareLocals src site) := by
  rw [Pass.declareLocals]
  split
  · exact failsAt_ok _
  · exact failsAt_stackLengthAt.bind fun _ _ => failsAt_ok _

theorem failsAt_finish : FailsAt site.step (p.finish src site) := by
  rw [Pass.finish]
  split
  · exact failsAt_ok _
  · split
    · exact failsAt_declareLocals
    · exact failsAt_ok _

theorem failsAt_enter {entry : Option Nat} : FailsAt site.step (p.enter src site entry) := by
  rw [Pass.enter]
  split
  · exact failsAt_ok _
  · split
    · exact failsAt_ok _
    · exact failsAt_openFunction.map _

theorem failsAt_leave {opened : Bool}
    (hcode : site.goesDeeper → ∃ code, src.codeAt (site.step + 1) = .ok code) :
    FailsAt site.step (p.leave src site opened) := by
  rw [Pass.leave]
  split_ifs with hback hdeeper hopened
  · exact failsAt_ok _
  · exact failsAt_openCall (hcode hdeeper)
  · exact failsAt_ok _
  · exact failsAt_finish

theorem failsAt_advance {entry : Option Nat} {gas : Nat}
    (hcode : site.goesDeeper → ∃ code, src.codeAt (site.step + 1) = .ok code) :
    FailsAt site.step (p.advance src site entry gas) := by
  by_cases hcall : site.current.opcode.opensFrame ∧ site.goesDeeper
  · rw [Pass.advance_of_call hcall]
    exact failsAt_openCall (hcode hcall.2)
  · rw [Pass.advance_of_no_call hcall]
    exact failsAt_enter.bind fun _ _ => failsAt_leave hcode

theorem failsAt_step (hcode : site.goesDeeper → ∃ code, src.codeAt (site.step + 1) = .ok code) :
    FailsAt site.step (p.step src site) := by
  rw [Pass.step]
  dsimp only
  split
  · exact failsAt_advance hcode
  · exact failsAt_openFunction.bind fun _ _ => failsAt_advance hcode

/-- Where it is known which code runs, so it is for the step that follows. -/
def Sources.CodeGoesOn (src : Sources) : Prop :=
  ∀ i code, src.codeAt i = .ok code → i + 1 < src.context.trace.length →
    ∃ code', src.codeAt (i + 1) = .ok code'

/-- A step that fails tells its number. -/
theorem step_of_stepAt_eq_error {i : Nat} {e : BuildError} (hcode : src.CodeGoesOn)
    (h : src.stepAt i p = .error e) : e.step = i := by
  rw [Sources.stepAt] at h
  split at h
  · cases h
  · rename_i current hcurrent
    refine failsAt_siteAt.bind (fun site hsite => ?_) e h
    obtain ⟨rfl, -, hnext, hcode', -⟩ := siteAt_eq_ok hsite
    refine failsAt_step fun hdeeper => hcode _ _ hcode' ?_
    rw [Site.goesDeeper, hnext, Option.any_eq_true] at hdeeper
    obtain ⟨next, hnext, -⟩ := hdeeper
    exact (List.getElem?_eq_some_iff.1 hnext).1

/-- Where not even the first step is reached the error belongs to it. -/
theorem step_of_not_starts {e : BuildError} (h : src.build = .failed e)
    (hno : ∀ root, ¬ src.Starts root) : e.step = 0 := by
  rw [Sources.build] at h
  split at h
  · cases h
  · split at h
    · rename_i error herror
      cases h
      exact failsAt_codeAt _ herror
    · rename_i root hroot
      split at h
      · cases h
      · rename_i error hmissing herror
        cases h
        exact failsAt_artifactAt _ _ herror
      · rename_i artifact hartifact
        exact absurd ⟨hroot, artifact, hartifact⟩ (hno root)

/-- A reconstruction that gets to its first step and fails does so at the step that its error
belongs to. -/
theorem passBefore_of_failed {root : CodeAddress} {e : BuildError} (hcode : src.CodeGoesOn)
    (hstarts : src.Starts root) (h : src.build = .failed e) :
    e.step < src.context.trace.length ∧ (∃ p, src.passBefore root e.step = .ok p) ∧
      src.passBefore root (e.step + 1) = .error e := by
  have hne : src.context.trace.steps ≠ [] := by
    intro hnil
    rw [Sources.build, hnil] at h
    cases h
  rw [build_of_starts hne hstarts] at h
  split at h
  · cases h
  · rename_i error herror
    cases h
    obtain ⟨i, p, hi, hp, hstep⟩ := exists_stepAt_eq_error herror
    obtain rfl := step_of_stepAt_eq_error hcode hstep
    exact ⟨hi, ⟨p, hp⟩, by rw [Sources.passBefore, hp]; exact hstep⟩

end Errors

end TraceTree.Build
