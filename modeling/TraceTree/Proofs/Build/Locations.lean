import TraceTree.Proofs.Build.LastValid

/-!
The locations that a finished tree shows. Main statements: in a trace whose depth changes by one
step at a time, the location of a step is that of the latest valid step from which on the depth
never fell (`build_locations`); and in any trace a location that is taken over from an earlier step
has its lines looked up in what runs now, not in what ran then (`build_lineColumn`).
-/
namespace TraceTree

/-- From the step `t` up to the step `s` the depth is never below that of `t`. -/
def Trace.NeverBelow (trace : Trace) (t s : Nat) : Prop :=
  ∀ u, t ≤ u → u ≤ s → trace.depthAt t ≤ trace.depthAt u

namespace Build

/-! ### Valid locations -/

/-- The source location of the step `t` is `r`, and it is valid in what runs there. -/
def Sources.ValidAt (src : Sources) (t : Nat) (r : SourceLocation) : Prop :=
  ∃ current code artifact, src.context.trace.steps[t]? = some current ∧ src.codeAt t = .ok code ∧
    src.artifactAt t code.address = .ok artifact ∧
    (artifact.bytecode code.isCreation).locate current.pc = .ok r ∧
    artifact.isValidLocation r (artifact.bytecode code.isCreation) src.options.includeGenerated

/-- Of the steps up to `s` that are `kept`, `t` is the latest with a valid location, which is `r`.
-/
structure Sources.LatestValid (src : Sources) (kept : Nat → Prop) (s t : Nat)
    (r : SourceLocation) : Prop where
  le : t ≤ s
  valid : src.ValidAt t r
  isKept : kept t
  latest : ∀ u r', t < u → u ≤ s → src.ValidAt u r' → ¬ kept u

section Valid

variable {src : Sources} {s t : Nat} {site : Site} {kept : Nat → Prop}

theorem Sources.IsSite.located (h : src.IsSite t site) :
    site.bytecode.locate site.current.pc = .ok site.raw ∧ site.isValid =
      site.artifact.isValidLocation site.raw site.bytecode src.options.includeGenerated := by
  obtain ⟨current, -, hsite⟩ := h
  obtain ⟨-, rfl, -, -, -, hraw, hvalid⟩ := siteAt_eq_ok hsite
  exact ⟨hraw, hvalid⟩

theorem exists_site_of_validRaw? {r : SourceLocation} (h : src.validRaw? t = some r) :
    ∃ site, src.IsSite t site ∧ site.isValid ∧ site.raw = r := by
  rw [Sources.validRaw?, Option.bind_eq_some_iff] at h
  obtain ⟨site, hsite, h⟩ := h
  split at h
  · rename_i hvalid
    exact ⟨site, site?_eq_some_iff.1 hsite, hvalid, Option.some.inj h⟩
  · cases h

theorem validAt_iff {r : SourceLocation} : src.ValidAt t r ↔ src.validRaw? t = some r := by
  constructor
  · rintro ⟨current, code, artifact, hcurrent, hcode, hartifact, hlocate, hvalid⟩
    have hsite : src.IsSite t
        { step := t, current, next := src.context.trace.steps[t + 1]?, code, artifact, raw := r
          isValid := artifact.isValidLocation r (artifact.bytecode code.isCreation)
            src.options.includeGenerated } := by
      refine ⟨current, hcurrent, ?_⟩
      rw [Sources.siteAt, hcode]
      show src.artifactAt t code.address >>= _ = _
      rw [hartifact]
      show ((artifact.bytecode code.isCreation).locate current.pc).mapError _ >>= _ = _
      rw [hlocate]
      rfl
    rw [hsite.validRaw?_eq]
    exact if_pos hvalid
  · intro h
    obtain ⟨site, hsite, hsitevalid, rfl⟩ := exists_site_of_validRaw? h
    obtain ⟨-, hcurrent, -, hcode, hartifact⟩ := hsite.spec
    obtain ⟨hlocate, hvalid⟩ := hsite.located
    rw [hvalid] at hsitevalid
    exact ⟨site.current, site.code, site.artifact, hcurrent, hcode, hartifact, hlocate,
      hsitevalid⟩

theorem validRaw?_eq_none_iff : src.validRaw? t = none ↔ ∀ r, ¬ src.ValidAt t r := by
  rw [Option.eq_none_iff_forall_ne_some]
  exact forall_congr' fun r => not_congr validAt_iff.symm

/-- The latest find is the location of the latest valid step that is kept. -/
theorem latest_some_iff {r : SourceLocation} :
    Latest src.validRaw? kept (s + 1) (some r) ↔ ∃ t, src.LatestValid kept s t r := by
  constructor
  · rintro ⟨t, ht, hkept, hfound, hlatest⟩
    refine ⟨t, Nat.le_of_lt_succ ht, validAt_iff.2 hfound, hkept, fun u r' htu hu hvalid hu' => ?_⟩
    have hnone := hlatest u htu (Nat.lt_succ_of_le hu) hu'
    rw [validAt_iff, hnone] at hvalid
    cases hvalid
  · rintro ⟨t, hle, hvalid, hkept, hlatest⟩
    refine ⟨t, Nat.lt_succ_of_le hle, hkept, validAt_iff.1 hvalid, fun u htu hu hu' => ?_⟩
    rw [validRaw?_eq_none_iff]
    intro r' hr'
    exact hlatest u r' htu (Nat.le_of_lt_succ hu) hr' hu'

theorem latest_none_iff : Latest src.validRaw? kept (s + 1) none ↔
    ∀ t r, t ≤ s → src.ValidAt t r → ¬ kept t := by
  constructor
  · intro h t r hle hvalid hkept
    rw [validAt_iff, h t (Nat.lt_succ_of_le hle) hkept] at hvalid
    cases hvalid
  · intro h t ht hkept
    rw [validRaw?_eq_none_iff]
    intro r hvalid
    exact h t r (Nat.le_of_lt_succ ht) hvalid hkept

end Valid

/-! ### A trace through two contracts -/

/-- A contract whose first two instructions come from the third line of its text. -/
def callerArtifact : Artifact :=
  { contractName := "A"
    sources := SortedMap.empty.insert 0 { id := 0, path := "A.sol", content := "x\ny\nz" }
    deployed := { object := [0x5b, 0xf1, 0x5b], sourceMap := "4:1:0:-;;0:0:-1:-" } }

/-- A contract whose text has one line, from which the second of its instructions comes. -/
def calleeArtifact : Artifact :=
  { contractName := "B"
    sources := SortedMap.empty.insert 0 { id := 0, path := "B.sol", content := "contract B" }
    deployed := { object := [0x5b, 0x5b], sourceMap := "0:0:-1:-;0:1:0:-" } }

def callerCode : CodeAddress := ⟨default, false⟩

def calleeCode : CodeAddress := ⟨⟨List.replicate 20 1, rfl⟩, false⟩

/-- The first contract calls the second. The steps 2, in the callee, and 4, after it has returned,
have no locations of their own. -/
def crossSources : Sources :=
  { context := ((Recording.ofTrace ⟨[⟨0, 100, some 3, 0x5b, 0⟩, ⟨0, 97, some 5, 0xf1, 1⟩,
      ⟨1, 50, some 3, 0x5b, 0⟩, ⟨1, 47, some 3, 0x5b, 1⟩, ⟨0, 44, some 3, 0x5b, 2⟩]⟩
      callerCode).withCodeFrom 2 calleeCode |>.withCodeFrom 4 callerCode).toContext
    resolver := .ofTable
      ((SortedMap.empty.insert callerCode.address callerArtifact).insert calleeCode.address
        calleeArtifact) }

theorem isReady_cross : crossSources.build.isReady := by decide +kernel

/-! ### Steady traces -/

section Steady

variable {src : Sources} {tree : CallTree} {pass : Nat → Pass} {s t : Nat}

theorem History.callDepth_add (hist : History src tree pass) (wf : tree.WellFormed)
    (steady : src.context.trace.Steady) (hs : s < src.context.trace.length) :
    tree.callDepth s + src.context.trace.depthAt 0 = src.context.trace.depthAt s + 1 := by
  rw [hist.callDepth_eq wf hs]
  exact hist.callDepth steady hs

theorem callDepth_le {u : Nat} (wf : tree.WellFormed) (h : ∀ c, tree.scope? c.id = some c →
    c.kind.isFrame → c.contains t → c.contains u) : tree.callDepth t ≤ tree.callDepth u := by
  refine List.countP_mono_left fun c hc hcount => ?_
  simp only [Bool.and_eq_true] at hcount ⊢
  exact ⟨hcount.1, h c ((mem_allScopes wf).1 hc) hcount.1 hcount.2⟩

/-- In a steady trace a location is carried as long as the depth does not fall below that of its
step. -/
theorem History.carried_iff (hist : History src tree pass) (wf : tree.WellFormed)
    (steady : src.context.trace.Steady) (hts : t ≤ s) (hs : s < src.context.trace.length) :
    Carried src tree s t ↔ src.context.trace.NeverBelow t s := by
  constructor
  · intro hcarried u htu hus
    have hle : tree.callDepth t ≤ tree.callDepth u := by
      refine callDepth_le wf fun c hc hframe hcontains => ?_
      obtain ⟨l, hl, hiff⟩ := wf.contains_iff hc
      rw [hiff] at hcontains ⊢
      refine ⟨by omega, ?_⟩
      rcases hcarried c.id c hc ⟨(hiff t).2 hcontains, .inl hframe⟩ with hin | ⟨m, hm, hback⟩
      · have := (hiff s).1 hin
        omega
      · rw [hl] at hm
        cases hm
        -- A call frame that ends where the depth does not fall ends with the trace.
        by_contra hlt
        exact hback ((hist.ended wf hc hl (by omega)).1 hframe)
    have hdepth := hist.callDepth_add wf steady (show t < src.context.trace.length by omega)
    have hdepth' := hist.callDepth_add wf steady (show u < src.context.trace.length by omega)
    omega
  · intro hnever id c hc hbefore
    obtain ⟨l, hl, hiff⟩ := wf.contains_iff hc
    have hrange := (hiff t).1 hbefore.1
    by_cases hsl : s ≤ l
    · exact .inl ((hiff s).2 ⟨by omega, hsl⟩)
    · refine .inr ⟨l, hl, fun hback => ?_⟩
      -- All call frames around the last step of the scope are around `t`, so `t` runs as deep.
      have hle : tree.callDepth l ≤ tree.callDepth t := by
        refine callDepth_le wf fun r hr hframe hcontains => ?_
        have hin := (hist.ended wf hc hl hback.1).2 hback r.id r hr hframe hcontains
        exact wf.contains_of_contains hr hc hin hbefore.1
      have hdepth := hist.callDepth_add wf steady (show t < src.context.trace.length by omega)
      have hdepth' := hist.callDepth_add wf steady (show l < src.context.trace.length by omega)
      have hlater := hnever (l + 1) (by omega) (by omega)
      have hfall := hback.2
      omega

/-- In a trace whose depth changes by at most one from step to step and never falls below the first,
exactly the steps of the trace have locations. The location of a step tells its code, opcode and
source location. The one to show is that of the latest valid step up to there from which on the
depth never fell below that step's, and where there is none, the step's own. -/
theorem build_locations (src : Sources) (tree : CallTree) (h : src.build = .ready tree)
    (steady : src.context.trace.Steady) :
    (∀ s, s < src.context.trace.length → ∃ current artifact l,
      src.context.trace.steps[s]? = some current ∧ tree.locationAt? s = some l ∧
      src.codeAt s = .ok l.code ∧ src.artifactAt s l.code.address = .ok artifact ∧
      (artifact.bytecode l.code.isCreation).locate current.pc = .ok l.raw ∧
      l.opcode = current.opcode ∧
      ((∃ t, src.LatestValid (src.context.trace.NeverBelow · s) s t l.valid) ∨
        (∀ t r, t ≤ s → src.ValidAt t r → ¬ src.context.trace.NeverBelow t s) ∧
          l.valid = l.raw)) ∧
    ∀ s, src.context.trace.length ≤ s → tree.locationAt? s = none := by
  obtain ⟨pass, hist⟩ := exists_history h
  obtain ⟨wf, -, -⟩ := wellFormed_of_build h
  refine ⟨?_, fun s hs => hist.locationAt?_eq_none hs⟩
  intro s hs
  obtain ⟨st⟩ := hist.stage hs
  obtain ⟨v, hlatest, hlocation⟩ := hist.location st.isSite
  obtain ⟨-, hcurrent, -, hcode, hartifact⟩ := st.isSite.spec
  refine ⟨_, _, _, hcurrent, hlocation, hcode, hartifact, st.isSite.located.1, rfl, ?_⟩
  replace hlatest := hlatest.congr fun t ht =>
    (hist.carried_iff wf steady (Nat.le_of_lt_succ ht) hs).symm
  cases v with
  | some r => exact .inl (latest_some_iff.1 hlatest)
  | none => exact .inr ⟨latest_none_iff.1 hlatest, rfl⟩

theorem build_locations_cross : ∃ tree, crossSources.build = .ready tree ∧
    crossSources.context.trace.Steady ∧ tree.locationAt? 5 = none ∧
      ∃ l, tree.locationAt? 4 = some l ∧
        ∃ t, crossSources.LatestValid (crossSources.context.trace.NeverBelow · 4) 4 t l.valid := by
  obtain ⟨tree, h⟩ := Outcome.exists_of_isReady isReady_cross
  have steady : crossSources.context.trace.Steady := by decide
  have hlocations := build_locations crossSources tree h steady
  obtain ⟨current, artifact, l, -, hl, -, -, -, -, hvalid⟩ := hlocations.1 4 (by decide)
  -- The step shows another location than its own.
  have hshown : (crossSources.build.tree?.bind fun tree => tree.locationAt? 4).any
      fun l => l.valid ≠ l.raw := by decide +kernel
  have hne : l.valid ≠ l.raw := by simpa [h, Outcome.tree?, hl] using hshown
  exact ⟨tree, h, steady, hlocations.2 5 (by decide), l, hl, hvalid.resolve_right fun h => hne h.2⟩

end Steady

/-! ### Lines -/

section Lines

variable {src : Sources} {s t : Nat}

/-- A step whose own location is not valid shows that of the latest valid step that is carried to
it, if any. Both steps have lines then, each looked up in what runs at that step: they agree when
both run the same code. -/
theorem build_lineColumn (src : Sources) (tree : CallTree) (h : src.build = .ready tree)
    (hconverter : src.converter = some Artifact.lineColumn?) (s : Nat) (site : Site)
    (hsite : src.IsSite s site) (hinvalid : ¬ site.isValid) :
    ∃ l, tree.locationAt? s = some l ∧
      ((∀ t r, t ≤ s → src.ValidAt t r → ¬ Carried src tree s t) ∧
          l.valid = site.raw ∧ l.lineColumn = none ∨
        ∃ t origin m, t < s ∧ src.IsSite t origin ∧
          src.LatestValid (Carried src tree s) s t origin.raw ∧ tree.locationAt? t = some m ∧
          l.valid = origin.raw ∧ m.valid = origin.raw ∧
          l.lineColumn = site.artifact.lineColumn? site.bytecode origin.raw ∧
          m.lineColumn = origin.artifact.lineColumn? origin.bytecode origin.raw ∧
          (site.code = origin.code → l.lineColumn = m.lineColumn)) := by
  obtain ⟨pass, hist⟩ := exists_history h
  obtain ⟨v, hlatest, hlocation⟩ := hist.location hsite
  refine ⟨_, hlocation, ?_⟩
  cases v with
  | none => exact .inl ⟨latest_none_iff.1 hlatest, rfl, rfl⟩
  | some r =>
    obtain ⟨t, ht⟩ := latest_some_iff.1 hlatest
    obtain ⟨origin, horigin, hvalid, rfl⟩ := exists_site_of_validRaw? (validAt_iff.1 ht.valid)
    have hne : t ≠ s := by
      rintro rfl
      rw [horigin.unique hsite] at hvalid
      exact hinvalid hvalid
    refine .inr ⟨t, origin, _, lt_of_le_of_ne ht.le hne, horigin, ht,
      hist.location_of_valid horigin hvalid, rfl, rfl, ?_, ?_, ?_⟩
    · simp [shownLocation, hconverter]
    · simp [shownLocation, hconverter]
    · intro hcode
      have hsame : origin.artifact = site.artifact := by
        simpa [hcode, horigin.resolved] using hsite.resolved
      simp [shownLocation, Site.bytecode, hsame, hcode]

/-- Lines of the steps 0 to 2: those of the call in the text of the caller, then the line that the
call's offset has in the text of the callee. -/
theorem lineColumn_cross {tree : CallTree} (h : crossSources.build = .ready tree) :
    (List.range 3).map (fun s => (tree.locationAt? s).bind StepLocation.lineColumn) =
      [some ⟨⟨2, 0⟩, ⟨2, 1⟩⟩, some ⟨⟨2, 0⟩, ⟨2, 1⟩⟩, some ⟨⟨0, 4⟩, ⟨0, 5⟩⟩] := by
  have hlines : crossSources.build.tree?.map (fun tree =>
      (List.range 3).map fun s => (tree.locationAt? s).bind StepLocation.lineColumn) =
      some [some ⟨⟨2, 0⟩, ⟨2, 1⟩⟩, some ⟨⟨2, 0⟩, ⟨2, 1⟩⟩, some ⟨⟨0, 4⟩, ⟨0, 5⟩⟩] := by
    decide +kernel
  rw [h] at hlines
  exact Option.some.inj hlines

theorem build_lineColumn_cross : ∃ tree site l, crossSources.build = .ready tree ∧
    crossSources.IsSite 2 site ∧ ¬ site.isValid ∧ tree.locationAt? 2 = some l ∧
      ∃ t origin m, t < 2 ∧ crossSources.IsSite t origin ∧
        crossSources.LatestValid (Carried crossSources tree 2) 2 t origin.raw ∧
        tree.locationAt? t = some m ∧ l.valid = m.valid ∧ l.lineColumn ≠ m.lineColumn := by
  obtain ⟨tree, h⟩ := Outcome.exists_of_isReady isReady_cross
  obtain ⟨site, hfound, hinvalid⟩ : ∃ site, crossSources.site? 2 = some site ∧ !site.isValid := by
    rw [← Option.any_eq_true]
    decide +kernel
  have hsite := site?_eq_some_iff.1 hfound
  obtain ⟨l, hl, hcases⟩ :=
    build_lineColumn crossSources tree h rfl 2 site hsite (by simpa using hinvalid)
  have hlines := lineColumn_cross h
  simp only [List.range_succ, List.range_zero, List.nil_append, List.cons_append, List.map_cons,
    List.map_nil, hl, Option.bind_some, List.cons.injEq, and_true] at hlines
  obtain ⟨hfirst, hcall, hcallee⟩ := hlines
  rcases hcases with ⟨-, -, hnone⟩ | ⟨t, origin, m, ht, horigin, hlatest, hm, hl', hm', -⟩
  · rw [hnone] at hcallee
    cases hcallee
  · have hcaller : m.lineColumn = some ⟨⟨2, 0⟩, ⟨2, 1⟩⟩ := by
      obtain rfl | rfl : t = 0 ∨ t = 1 := by omega
      · simpa [hm] using hfirst
      · simpa [hm] using hcall
    refine ⟨tree, site, l, h, hsite, by simpa using hinvalid, hl, t, origin, m, ht, horigin,
      hlatest, hm, hl'.trans hm'.symm, ?_⟩
    rw [hcallee, hcaller]
    decide

end Lines

end Build

end TraceTree
