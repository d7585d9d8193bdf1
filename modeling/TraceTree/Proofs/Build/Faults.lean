import Mathlib.Data.Nat.Find
import TraceTree.Proofs.Build.Locations
import TraceTree.Proofs.Build.Truncation

/-!
Where a reconstruction of a recording fails. A step has a fault when its code has no artifact or no
location for it; apart from that a reconstruction fails for want of room only, and a step opens at
most three scopes. Main statement: a reconstruction fails at the first fault, or for want of room
before it, and where there is room for three scopes for each step it never fails for want of room
(`build_recording`).
-/
namespace TraceTree

/-- What is wrong with a step by itself: there is no artifact of the code that it runs, or the
bytecode has no location for it. -/
def Recording.fault? (r : Recording) (table : SortedMap Address Artifact) (i : Nat) :
    Option BuildError :=
  match r.codeAt i, r.trace.steps[i]? with
  | .ok code, some current =>
    match table.find? code.address with
    | none => some (.missingArtifact i code.address)
    | some artifact =>
      match (artifact.bytecode code.isCreation).locate current.pc with
      | .error source => some (.unresolvableLocation i code.address source)
      | .ok _ => none
  | _, _ => none

/-- The first step with a fault, and what is wrong with it. -/
structure Recording.FirstFault (r : Recording) (table : SortedMap Address Artifact) (b : Nat)
    (e : BuildError) : Prop where
  fault : r.fault? table b = some e
  before : ∀ i < b, r.fault? table i = none

namespace Build

/-! ### How many scopes a step opens -/

/-- Where `n` scopes are open `x` leaves at most `k` more open, and it fails only for want of room
for so many. -/
structure OpensAtMost {α : Type} (k step limit n : Nat) (size : α → Nat)
    (x : Except BuildError α) : Prop where
  size_le : ∀ {a}, x = .ok a → size a ≤ n + k
  full : ∀ {e}, x = .error e → e = .recursionLimitExceeded step limit ∧ limit < n + k

namespace OpensAtMost

variable {α β : Type} {k l step limit n : Nat} {size : α → Nat} {size' : β → Nat}
  {x : Except BuildError α}

theorem ok {a : α} (h : size a ≤ n + k) : OpensAtMost k step limit n size (.ok a) where
  size_le := by
    rintro _ ⟨⟩
    exact h
  full := by
    rintro _ ⟨⟩

theorem mono (hx : OpensAtMost k step limit n size x) (hkl : k ≤ l) :
    OpensAtMost l step limit n size x where
  size_le h := (hx.size_le h).trans (Nat.add_le_add_left hkl n)
  full h := ⟨(hx.full h).1, (hx.full h).2.trans_le (Nat.add_le_add_left hkl n)⟩

/-- What is opened one after the other adds up. -/
theorem bind {f : α → Except BuildError β} (hx : OpensAtMost k step limit n size x)
    (hf : ∀ a, x = .ok a → OpensAtMost l step limit (size a) size' (f a)) :
    OpensAtMost (k + l) step limit n size' (x >>= f) := by
  cases x with
  | error e =>
    refine ⟨by rintro _ ⟨⟩, ?_⟩
    rintro _ ⟨⟩
    exact (hx.mono (Nat.le_add_right k l)).full rfl
  | ok a =>
    have hle := hx.size_le rfl
    constructor
    · intro b hb
      have := (hf a rfl).size_le hb
      omega
    · intro e he
      obtain ⟨hlimit, hlt⟩ := (hf a rfl).full he
      exact ⟨hlimit, by omega⟩

theorem map (hx : OpensAtMost k step limit n size x) (f : α → β)
    (hf : ∀ a, size' (f a) = size a) : OpensAtMost k step limit n size' (x.map f) := by
  cases x with
  | error e =>
    refine ⟨by rintro _ ⟨⟩, ?_⟩
    rintro _ ⟨⟩
    exact hx.full rfl
  | ok a => exact .ok ((hf a).trans_le (hx.size_le rfl))

end OpensAtMost

namespace Pass

variable {p q : Pass} {src : Sources} {site : Site}

/-- How many scopes are open. -/
abbrev size (p : Pass) : Nat := p.scopes.size

theorem size_of_layout (h : q.layout = p.layout) : q.size = p.size := by
  rw [size, size, ← length_frames, ← length_frames, h]

theorem size_closeCall_le (p : Pass) (lastStep : Nat) : (p.closeCall lastStep).size ≤ p.size := by
  rw [size, size, ← length_frames, ← length_frames, layout_closeCall, Layout.closeCall,
    frames_close, List.length_drop]
  exact Nat.sub_le _ _

theorem size_closeFunction_le (p : Pass) (lastStep : Nat) :
    (p.closeFunction lastStep).size ≤ p.size := by
  by_cases hnested : p.scopes.nested = []
  · rw [closeFunction, hnested]
  · rw [size, size, ← length_frames, ← length_frames, layout_closeFunction hnested]
    exact (congrArg List.length (frames_close p.layout lastStep 1)).trans_le (by simp)

theorem opensAtMost_openScope {step firstStep : Nat} {kind : ScopeKind} {code : CodeAddress}
    {function : Option Nat} : OpensAtMost 1 step src.options.maxScopeDepth p.size size
      (p.openScope src step firstStep kind code function) where
  size_le {q} h := by
    rw [size, size, ← length_frames, ← length_frames, layout_openScope h, Layout.openScope]
    cases p.layout.frames <;> simp [Layout.countChild]
  full {e} h := by
    rw [openScope] at h
    split_ifs at h with hfull
    cases h
    exact ⟨rfl, Nat.lt_succ_of_le hfull⟩

theorem opensAtMost_openCall {kind : CodeAddress → ScopeKind}
    (hcode : ∃ callee, src.codeAt (site.step + 1) = .ok callee) :
    OpensAtMost 1 site.step src.options.maxScopeDepth p.size size (p.openCall src site kind) := by
  obtain ⟨callee, hcode⟩ := hcode
  rw [openCall, hcode]
  exact opensAtMost_openScope

theorem opensAtMost_openFunction {f : FunctionDefinition} {kind : ScopeKind}
    (hstack : ∃ n, src.stackLengthAt site.step = .ok n) :
    OpensAtMost 1 site.step src.options.maxScopeDepth p.size size
      (p.openFunction src site f kind) := by
  obtain ⟨n, hn⟩ := hstack
  refine opensAtMost_openScope.bind (l := 0) fun r _ => ?_
  rw [hn]
  exact .ok (le_refl _)

theorem opensAtMost_enter {entry : Option Nat}
    (hstack : ∃ n, src.stackLengthAt site.step = .ok n) :
    OpensAtMost 1 site.step src.options.maxScopeDepth p.size (fun r => r.1.size)
      (p.enter src site entry) := by
  rw [enter]
  split
  · exact .ok (Nat.le_succ _)
  · split_ifs
    · exact .ok (Nat.le_succ _)
    · exact (opensAtMost_openFunction hstack).map _ fun _ => rfl

theorem size_finish_le (h : p.finish src site = .ok q) : q.size ≤ p.size := by
  rw [finish] at h
  split_ifs at h
  · cases h
    exact size_closeFunction_le p _
  · exact (size_of_layout (alike_declareLocals h).layout).le
  · cases h
    exact le_refl _

theorem opensAtMost_leave {opened : Bool} (hstack : ∃ n, src.stackLengthAt site.step = .ok n)
    (hcode : site.goesDeeper → ∃ callee, src.codeAt (site.step + 1) = .ok callee) :
    OpensAtMost 1 site.step src.options.maxScopeDepth p.size size
      (p.leave src site opened) := by
  rw [leave]
  split_ifs with hback hdeeper
  · exact .ok ((size_closeCall_le p _).trans (Nat.le_succ _))
  · exact opensAtMost_openCall (hcode hdeeper)
  · exact .ok (Nat.le_succ _)
  · obtain ⟨n, hn⟩ := hstack
    obtain ⟨q, hq⟩ := exists_finish (p := p) hn
    rw [hq]
    exact .ok ((size_finish_le hq).trans (Nat.le_succ _))

theorem opensAtMost_advance {entry : Option Nat} {gas : Nat}
    (hstack : ∃ n, src.stackLengthAt site.step = .ok n)
    (hcode : site.goesDeeper → ∃ callee, src.codeAt (site.step + 1) = .ok callee) :
    OpensAtMost 2 site.step src.options.maxScopeDepth p.size size
      (p.advance src site entry gas) := by
  by_cases hcall : site.current.opcode.opensFrame ∧ site.goesDeeper
  · rw [advance_of_call hcall]
    exact (opensAtMost_openCall (p := p.credit gas) (hcode hcall.2)).mono (Nat.le_succ 1)
  · rw [advance_of_no_call hcall]
    exact (opensAtMost_enter hstack).bind (l := 1) fun r _ =>
      opensAtMost_leave (p := r.1.credit gas) hstack hcode

/-- A step opens at most three scopes, and fails only where there is no room for them. -/
theorem opensAtMost_step (hstack : ∃ n, src.stackLengthAt site.step = .ok n)
    (hcode : site.goesDeeper → ∃ callee, src.codeAt (site.step + 1) = .ok callee) :
    OpensAtMost 3 site.step src.options.maxScopeDepth p.size size (p.step src site) := by
  have htaken := size_of_layout (layout_taken p src site)
  cases htake : (p.arrive src site).takeAwaited site with
  | mk r built =>
    rw [htake] at htaken
    rw [← htaken]
    cases built with
    | none =>
      rw [step_of_none htake]
      exact (opensAtMost_advance hstack hcode).mono (Nat.le_succ 2)
    | some f =>
      rw [step_of_some htake]
      refine (opensAtMost_openFunction hstack).bind (l := 2) fun s _ => ?_
      rw [← size_of_layout (layout_inside s site site.gas)]
      exact opensAtMost_advance hstack hcode

end Pass

/-! ### How many scopes a run opens -/

/-- While steps can be looked up there is a pass before each of them, with at most three scopes open
for each step that is over, or there was no room for so many. -/
theorem passBefore_cases {src : Sources} {j : Nat} (root : CodeAddress) (hcode : src.CodeGoesOn)
    (hstack : ∀ i < src.context.trace.length, ∃ n, src.stackLengthAt i = .ok n)
    (hsites : ∀ i < j, ∃ site, src.IsSite i site) :
    (∃ p, src.passBefore root j = .ok p ∧ p.size ≤ 1 + 3 * j) ∨
      ∃ i < j, src.passBefore root j = .error (.recursionLimitExceeded i src.options.maxScopeDepth) ∧
        src.options.maxScopeDepth ≤ 3 * (i + 1) := by
  induction j with
  | zero => exact .inl ⟨_, rfl, Nat.le_refl 1⟩
  | succ j ih =>
    rcases ih fun i hi => hsites i (Nat.lt_succ_of_lt hi) with
      ⟨p, hp, hsize⟩ | ⟨i, hi, hfailed, hlimit⟩
    · obtain ⟨site, hsite⟩ := hsites j (Nat.lt_succ_self j)
      obtain ⟨rfl, -, -, hcode', -⟩ := hsite.spec
      have hopens : OpensAtMost 3 site.step src.options.maxScopeDepth p.size Pass.size
          (p.step src site) := by
        refine Pass.opensAtMost_step (hstack _ hsite.step_lt) fun hdeeper => ?_
        exact hcode _ _ hcode' ((hsite.goesDeeper_iff).1 hdeeper).1
      rw [Sources.passBefore, hp]
      replace hsite := stepAt_of_isSite (p := p) hsite
      cases hq : p.step src site with
      | ok q =>
        have := hopens.size_le hq
        exact .inl ⟨q, hsite.trans hq, by omega⟩
      | error e =>
        obtain ⟨rfl, hlt⟩ := hopens.full hq
        exact .inr ⟨site.step, Nat.lt_succ_self _, hsite.trans hq, by omega⟩
    · exact .inr ⟨i, Nat.lt_succ_of_lt hi, passBefore_eq_error_of_le (Nat.le_succ j) hfailed,
        hlimit⟩

/-! ### Passes of a recording -/

section Recordings

variable {r : Recording} {table : SortedMap Address Artifact} {converter : Option LineConverter}
  {options : BuildOptions} {i j b : Nat} {e : BuildError} {root : CodeAddress}

theorem artifactAt_ofTable (i : Nat) (address : Address) :
    (r.sources (.ofTable table) converter options).artifactAt i address =
      (table.find? address).elim (.error (.missingArtifact i address)) .ok := by
  cases h : table.find? address <;>
    simp [Sources.artifactAt, Recording.sources, Resolver.ofTable, h]

/-- What goes wrong where a step is looked up is its fault. -/
theorem siteAt_eq_error_iff {code : CodeAddress} {current : TraceStep} {next : Option TraceStep}
    (hcode : r.codeAt i = .ok code) (hcurrent : r.trace.steps[i]? = some current) :
    (r.sources (.ofTable table) converter options).siteAt i current next = .error e ↔
      r.fault? table i = some e := by
  have hcode' := (codeAt_sources_eq_ok r (.ofTable table) converter options).2 hcode
  simp only [Sources.siteAt, hcode', bind, Except.bind, artifactAt_ofTable, Recording.fault?, hcode,
    hcurrent]
  cases hfind : table.find? code.address with
  | none => simp
  | some artifact =>
    cases hlocate : (artifact.bytecode code.isCreation).locate current.pc with
    | error source => simp [hlocate, Except.mapError]
    | ok raw => simp [hlocate, Except.mapError, pure, Except.pure]

theorem lt_of_fault (h : r.fault? table i = some e) : i < r.trace.length := by
  by_contra hi
  simp [Recording.fault?, Recording.codeAt, Nat.not_lt.1 hi] at h

theorem exists_isSite (hr : r.Entered) (hi : i < r.trace.length) (hno : r.fault? table i = none) :
    ∃ site, (r.sources (.ofTable table) converter options).IsSite i site := by
  obtain ⟨code, hcode⟩ := hr.exists_codeAt hi
  have hcurrent := List.getElem?_eq_getElem (l := r.trace.steps) hi
  cases hsite : (r.sources (.ofTable table) converter options).siteAt i r.trace.steps[i]
      r.trace.steps[i + 1]? with
  | error e =>
    rw [siteAt_eq_error_iff hcode hcurrent, hno] at hsite
    cases hsite
  | ok site => exact ⟨site, _, hcurrent, hsite⟩

/-- A pass fails at a step with a fault. -/
theorem stepAt_of_fault (hr : r.Entered) (h : r.fault? table i = some e) (p : Pass) :
    (r.sources (.ofTable table) converter options).stepAt i p = .error e := by
  obtain ⟨code, hcode⟩ := hr.exists_codeAt (lt_of_fault h)
  have hlt := lt_of_fault h
  have hcurrent := List.getElem?_eq_getElem (l := r.trace.steps) hlt
  have hcurrent' : (r.sources (.ofTable table) converter options).context.trace.steps[i]? =
    some r.trace.steps[i] := hcurrent
  rw [Sources.stepAt, hcurrent']
  dsimp only
  rw [(siteAt_eq_error_iff hcode hcurrent).2 h]
  rfl

/-- Where the first artifact is known a reconstruction fails at the first fault, or before it for
want of room. -/
theorem build_of_firstFault (hcomplete : r.Complete) (hr : r.Entered)
    (hstarts : (r.sources (.ofTable table) converter options).Starts root)
    (h : r.FirstFault table b e) :
    (r.sources (.ofTable table) converter options).build = .failed e ∨
      ∃ i < b, (r.sources (.ofTable table) converter options).build =
        .failed (.recursionLimitExceeded i options.maxScopeDepth) ∧
          options.maxScopeDepth ≤ 3 * (i + 1) := by
  have hb := lt_of_fault h.fault
  have hne : (r.sources (.ofTable table) converter options).context.trace.steps ≠ [] :=
    List.ne_nil_of_length_pos (Nat.zero_lt_of_lt hb)
  rcases passBefore_cases root (codeGoesOn_sources r (.ofTable table) converter options)
    (exists_stackLengthAt r (.ofTable table) converter options hcomplete) fun i hi =>
      exists_isSite hr (hi.trans hb) (h.before i hi) with
    ⟨p, hp, -⟩ | ⟨i, hi, hfailed, hlimit⟩
  · have hfailed : (r.sources (.ofTable table) converter options).passBefore root (b + 1) =
        .error e := by
      rw [Sources.passBefore, hp]
      exact stepAt_of_fault hr h.fault p
    exact .inl (build_of_passBefore_error hne hstarts hb hfailed)
  · exact .inr ⟨i, hi, build_of_passBefore_error hne hstarts hb.le hfailed, hlimit⟩

/-- Without a fault a reconstruction ends in a tree, or it fails for want of room. -/
theorem build_of_no_fault (hcomplete : r.Complete) (hr : r.Entered) (hne : r.trace.steps ≠ [])
    (hstarts : (r.sources (.ofTable table) converter options).Starts root)
    (hno : ∀ i, r.fault? table i = none) :
    (∃ t, (r.sources (.ofTable table) converter options).build = .ready t) ∨
      ∃ i < r.trace.length, (r.sources (.ofTable table) converter options).build =
        .failed (.recursionLimitExceeded i options.maxScopeDepth) ∧
          options.maxScopeDepth ≤ 3 * (i + 1) := by
  have hne' : (r.sources (.ofTable table) converter options).context.trace.steps ≠ [] := hne
  rcases passBefore_cases root (codeGoesOn_sources r (.ofTable table) converter options)
    (exists_stackLengthAt r (.ofTable table) converter options hcomplete) fun i hi =>
      exists_isSite hr hi (hno i) with
    ⟨p, hp, -⟩ | ⟨i, hi, hfailed, hlimit⟩
  · exact .inl ⟨p.close, build_of_passBefore hne' hstarts hp⟩
  · exact .inr ⟨i, hi, build_of_passBefore_error hne' hstarts (le_refl _) hfailed, hlimit⟩

/-- Where the first code has no artifact there is nothing to build from. -/
theorem build_of_missingRoot (hne : r.trace.steps ≠ []) (hroot : r.codeAt 0 = .ok root)
    (hmissing : table.find? root.address = none) :
    (r.sources (.ofTable table) converter options).build =
      .notReady (.missingRootArtifact root.address) := by
  have hne' : (r.sources (.ofTable table) converter options).context.trace.steps ≠ [] := hne
  have hroot' := (codeAt_sources_eq_ok r (.ofTable table) converter options).2 hroot
  rw [Sources.build, if_neg (by simpa using hne'), hroot']
  dsimp only
  rw [artifactAt_ofTable, hmissing]
  rfl

theorem starts_of_isSome (hroot : r.codeAt 0 = .ok root)
    (hfound : (table.find? root.address).isSome) :
    (r.sources (.ofTable table) converter options).Starts root := by
  obtain ⟨artifact, hartifact⟩ := Option.isSome_iff_exists.1 hfound
  refine ⟨(codeAt_sources_eq_ok r _ _ _).2 hroot, artifact, ?_⟩
  rw [artifactAt_ofTable, hartifact]
  rfl

theorem fault?_ne_limit (step limit : Nat) :
    r.fault? table i ≠ some (.recursionLimitExceeded step limit) := by
  rw [Recording.fault?]
  split
  · split
    · simp
    · split <;> simp
  · simp

/-- There is a first step with a fault, or none has one. -/
theorem exists_firstFault_or (r : Recording) (table : SortedMap Address Artifact) :
    (∃ b e, r.FirstFault table b e) ∨ ∀ i, r.fault? table i = none := by
  by_cases h : ∃ i, (r.fault? table i).isSome
  · obtain ⟨e, he⟩ := Option.isSome_iff_exists.1 (Nat.find_spec h)
    exact .inl ⟨Nat.find h, e, he, fun i hi => Option.not_isSome_iff_eq_none.1 (Nat.find_min h hi)⟩
  · exact .inr fun i => Option.not_isSome_iff_eq_none.1 fun hi => h ⟨i, hi⟩

/-- With room for three scopes for each step a reconstruction does not fail for want of room. -/
theorem build_ne_limit (hcomplete : r.Complete) (hr : r.Entered) (hne : r.trace.steps ≠ [])
    (hstarts : (r.sources (.ofTable table) converter options).Starts root)
    (hroom : 3 * r.trace.length < options.maxScopeDepth) (step limit : Nat) :
    (r.sources (.ofTable table) converter options).build ≠
      .failed (.recursionLimitExceeded step limit) := by
  rcases exists_firstFault_or r table with ⟨b, e, h⟩ | hno
  · rcases build_of_firstFault hcomplete hr hstarts h with hfailed | ⟨i, hi, -, hlimit⟩
    · rw [hfailed]
      rintro ⟨⟩
      exact fault?_ne_limit _ _ h.fault
    · have := lt_of_fault h.fault
      omega
  · rcases build_of_no_fault hcomplete hr hne hstarts hno with ⟨t, ht⟩ | ⟨i, hi, -, hlimit⟩
    · rw [ht]
      rintro ⟨⟩
    · omega

end Recordings

/-- Where a recording has a fault its reconstruction fails at the first one. Let the trace not be
empty. When the first code has no artifact there is nothing to build from. Otherwise a
reconstruction fails at the first step that has no artifact or no location, with what is wrong
there, or before it for want of room; when there is no such step it ends in a tree or fails for want
of room. Where more than three times as many scopes may be open as there are steps there is always
room. -/
theorem build_recording (r : Recording) (table : SortedMap Address Artifact)
    (converter : Option LineConverter) (options : BuildOptions) (hcomplete : r.Complete)
    (hr : r.Entered) (hne : r.trace.steps ≠ []) :
    ∃ root outcome, r.codeAt 0 = .ok root ∧
      (r.sources (.ofTable table) converter options).build = outcome ∧
      (table.find? root.address = none →
        outcome = .notReady (.missingRootArtifact root.address)) ∧
      ((table.find? root.address).isSome →
        (∀ b e, r.FirstFault table b e → outcome = .failed e ∨
          ∃ i < b, outcome = .failed (.recursionLimitExceeded i options.maxScopeDepth)) ∧
        ((∀ i, r.fault? table i = none) → (∃ t, outcome = .ready t) ∨
          ∃ i < r.trace.length,
            outcome = .failed (.recursionLimitExceeded i options.maxScopeDepth))) ∧
      (3 * r.trace.length < options.maxScopeDepth →
        ∀ i limit, outcome ≠ .failed (.recursionLimitExceeded i limit)) := by
  obtain ⟨root, hroot⟩ := hr.exists_codeAt (List.length_pos_iff.2 hne)
  refine ⟨root, _, hroot, rfl, build_of_missingRoot hne hroot, fun hfound => ⟨?_, ?_⟩, ?_⟩
  · intro b e h
    refine (build_of_firstFault hcomplete hr (starts_of_isSome hroot hfound) h).imp_right ?_
    rintro ⟨i, hi, hfailed, -⟩
    exact ⟨i, hi, hfailed⟩
  · intro hno
    refine (build_of_no_fault hcomplete hr hne (starts_of_isSome hroot hfound) hno).imp_right ?_
    rintro ⟨i, hi, hfailed, -⟩
    exact ⟨i, hi, hfailed⟩
  · intro hroom step limit
    cases hfind : table.find? root.address with
    | none => simp [build_of_missingRoot hne hroot hfind]
    | some artifact =>
      refine build_ne_limit hcomplete hr hne (starts_of_isSome hroot ?_) hroom step limit
      rw [hfind]
      rfl

/-- The recorded call, in which the callee is a contract of which nothing is known. -/
def strangeRecording : Recording :=
  callRecording.withCodeFrom 3 calleeCode

/-- The caller alone. -/
def callerTable : SortedMap Address Artifact := SortedMap.empty.insert callerCode.address callArtifact

/-- There is room for the eight steps of the call, so its reconstruction fails at the callee's first
step. -/
theorem build_recording_strange : strangeRecording.Complete ∧ strangeRecording.Entered ∧
    strangeRecording.trace.steps ≠ [] ∧
    strangeRecording.FirstFault callerTable 3 (.missingArtifact 3 calleeCode.address) ∧
    (strangeRecording.sources (.ofTable callerTable) none {}).build =
      .failed (.missingArtifact 3 calleeCode.address) := by
  have hcomplete : strangeRecording.Complete :=
    (Recording.complete_ofTrace _ ⟨default, false⟩).withCodeFrom _ _
  have hentered : strangeRecording.Entered :=
    (Recording.entered_ofTrace _ ⟨default, false⟩).withCodeFrom _ _
  have hne : strangeRecording.trace.steps ≠ [] := by decide
  have hfault : strangeRecording.FirstFault callerTable 3
      (.missingArtifact 3 calleeCode.address) :=
    ⟨by decide +kernel, by decide +kernel⟩
  obtain ⟨root, outcome, hroot, rfl, -, hfound, hroom⟩ :=
    build_recording strangeRecording callerTable none {} hcomplete hentered hne
  have hknown : (callerTable.find? root.address).isSome := by
    cases hroot
    decide
  refine ⟨hcomplete, hentered, hne, hfault, ?_⟩
  rcases (hfound hknown).1 3 _ hfault with hfailed | ⟨i, -, hfull⟩
  · exact hfailed
  · exact absurd hfull (hroom (by decide) i _)

end Build

end TraceTree
