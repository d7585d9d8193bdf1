import TraceTree.Artifact
import TraceTree.Proofs.SortedMap

/-!
Locations that can be shown. Whether a location is valid is told by the count of the sources, and
where its lines are by the number of its file. Main statement: the two agree exactly when the
sources are numbered from zero on without gaps; a number that is left out below the count is valid
without lines, and a location in a source from the count on gives way to an earlier one
(`Artifact.isValidLocation_iff_pointsInto`).
-/
namespace TraceTree

variable {a : Artifact} {b : Bytecode} {l : SourceLocation} {file : Nat} {includeGenerated : Bool}

/-! ### Generated sources -/

namespace Bytecode

/-- A generated source of the bytecode has that id. -/
def Generates (b : Bytecode) (file : Nat) : Prop := ∃ s ∈ b.generated, s.id = file

theorem isSome_generatedSource? : (b.generatedSource? file).isSome ↔ b.Generates file := by
  rw [generatedSource?, List.find?_isSome, Generates]
  simp only [beq_iff_eq]

theorem isSome_generatedLineIndex? : (b.generatedLineIndex? file).isSome ↔ b.Generates file := by
  rw [generatedLineIndex?, b.generatedLines.value_eq, GeneratedSource.lines,
    SortedMap.isSome_find?_ofList, Generates]
  simp

end Bytecode

namespace Artifact

/-! ### Numbers of sources -/

/-- The sources of the user are numbered from zero on without gaps. -/
def SourcesNumbered (a : Artifact) : Prop :=
  ∀ file, (a.source? file).isSome ↔ file < a.sourceCount

/-- Without a gap there is no source from the count on, as there would be too many. -/
theorem sourcesNumbered_iff :
    a.SourcesNumbered ↔ ∀ file, file < a.sourceCount → (a.source? file).isSome := by
  refine ⟨fun h file => (h file).2, fun h file => ⟨fun hfile => ?_, h file⟩⟩
  by_contra hle
  have hnodup : (List.range a.sourceCount ++ [file]).Nodup := by
    refine List.nodup_append.2 ⟨List.nodup_range, by simp, fun k hk k' hk' => ?_⟩
    have := List.mem_range.1 hk
    have := List.mem_singleton.1 hk'
    omega
  have hlength := SortedMap.length_le_size (m := a.sources) hnodup fun k hk => by
    obtain hk | hk := List.mem_append.1 hk
    · exact h k (List.mem_range.1 hk)
    · rwa [List.mem_singleton.1 hk]
  rw [List.length_append, List.length_range, sourceCount, List.length_singleton] at hlength
  omega

/-! ### Locations -/

/-- The location lies in a source of the user, or in a generated one where those are wanted. -/
def PointsInto (a : Artifact) (b : Bytecode) (l : SourceLocation) (includeGenerated : Bool) :
    Prop :=
  ∃ file, l.file = some file ∧
    ((a.source? file).isSome ∨ includeGenerated ∧ b.Generates file)

theorem isValidLocation_iff : a.isValidLocation l b includeGenerated ↔
    ∃ file, l.file = some file ∧
      (file < a.sourceCount ∨ includeGenerated ∧ b.Generates file) := by
  rw [isValidLocation]
  cases l.file with
  | none => simp
  | some file => simp [Bytecode.isSome_generatedSource?]

/-- Lines are found for what lies in any source. -/
theorem isSome_lineColumn?_iff : (a.lineColumn? b l).isSome ↔ a.PointsInto b l true := by
  rw [lineColumn?, PointsInto]
  cases l.file with
  | none => simp
  | some file =>
    cases hsource : a.source? file with
    | none =>
      simp only [Option.bind_eq_bind, Option.bind_some, lineIndex?, hsource, Option.isSome_none,
        Bool.false_eq_true, false_or, true_and, Option.some.injEq, exists_eq_left',
        ← Bytecode.isSome_generatedLineIndex?]
      cases b.generatedLineIndex? file <;> rfl
    | some s => simp [lineIndex?, hsource]

theorem SourcesNumbered.isValidLocation_iff (h : a.SourcesNumbered) :
    a.isValidLocation l b includeGenerated ↔ a.PointsInto b l includeGenerated := by
  simp only [Artifact.isValidLocation_iff, PointsInto, h _]

/-- A valid location outside of all sources lies at a number that is left out. -/
theorem sourcesNumbered_of_forall
    (h : ∀ l : SourceLocation, a.isValidLocation l b false → a.PointsInto b l false) :
    a.SourcesNumbered := by
  refine sourcesNumbered_iff.2 fun file hlt => ?_
  obtain ⟨_, ⟨⟩, hsource | ⟨hfalse, -⟩⟩ :=
    h ⟨some file, 0, 0, .other⟩ (isValidLocation_iff.2 ⟨file, rfl, .inl hlt⟩)
  · exact hsource
  · contradiction

theorem lineColumn?_eq_none (hfile : l.file = some file) (hnone : a.source? file = none)
    (hgenerates : ¬ b.Generates file) : a.lineColumn? b l = none := by
  rw [← Option.not_isSome_iff_eq_none, isSome_lineColumn?_iff]
  rintro ⟨file', hfile', hinto⟩
  obtain rfl : file = file' := Option.some.inj (hfile.symm.trans hfile')
  obtain hsource | ⟨-, hgenerated⟩ := hinto
  · simp [hnone] at hsource
  · exact hgenerates hgenerated

theorem isValidLocation_eq_false (hfile : l.file = some file) (hle : a.sourceCount ≤ file)
    (hgenerates : includeGenerated → ¬ b.Generates file) :
    a.isValidLocation l b includeGenerated = false := by
  rw [← Bool.not_eq_true, isValidLocation_iff]
  rintro ⟨file', hfile', hvalid⟩
  obtain rfl : file = file' := Option.some.inj (hfile.symm.trans hfile')
  obtain hlt | ⟨hwanted, hgenerated⟩ := hvalid
  · omega
  · exact hgenerates hwanted hgenerated

/-- The locations that are valid are those that lie in a source exactly when the sources are
numbered without gaps. Then every valid location has lines, and one in a source of the user is never
replaced. A number below the count that no source has is valid all the same, without lines unless a
generated source has it; and a location from the count on gives way to an earlier one, whether a
source of the user has that number or not. -/
theorem isValidLocation_iff_pointsInto (a : Artifact) (b : Bytecode) :
    ((∀ (l : SourceLocation) includeGenerated,
        a.isValidLocation l b includeGenerated ↔ a.PointsInto b l includeGenerated) ↔
      a.SourcesNumbered) ∧
    (a.SourcesNumbered → ∀ (l : SourceLocation) includeGenerated,
      (a.isValidLocation l b includeGenerated → ∃ r, a.lineColumn? b l = some r) ∧
      (a.PointsInto b l false →
        ∀ last, l.orLastValid (a.isValidLocation l b includeGenerated) last = l)) ∧
    (∀ (l : SourceLocation) file, l.file = some file → file < a.sourceCount →
      a.source? file = none →
        (∀ includeGenerated, a.isValidLocation l b includeGenerated) ∧
        (¬ b.Generates file → a.lineColumn? b l = none)) ∧
    (∀ (l : SourceLocation) file, l.file = some file → a.sourceCount ≤ file →
      ∀ includeGenerated : Bool, (includeGenerated → ¬ b.Generates file) →
        ∀ last, l.orLastValid (a.isValidLocation l b includeGenerated) (some last) = last) := by
  refine ⟨⟨fun h => sourcesNumbered_of_forall fun l => (h l false).1,
    fun h _ _ => h.isValidLocation_iff⟩, fun h l includeGenerated => ⟨fun hvalid => ?_,
    fun hinto last => ?_⟩, fun l file hfile hlt hnone => ?_, ?_⟩
  · rw [← Option.isSome_iff_exists, isSome_lineColumn?_iff]
    obtain ⟨file, hfile, hinto⟩ := h.isValidLocation_iff.1 hvalid
    exact ⟨file, hfile, hinto.imp_right fun hgenerated => ⟨rfl, hgenerated.2⟩⟩
  · obtain ⟨file, hfile, hsource | ⟨hfalse, -⟩⟩ := hinto
    · rw [h.isValidLocation_iff.2 ⟨file, hfile, .inl hsource⟩]
      rfl
    · contradiction
  · exact ⟨fun _ => isValidLocation_iff.2 ⟨file, hfile, .inl hlt⟩, lineColumn?_eq_none hfile hnone⟩
  · intro l file hfile hle includeGenerated hgenerates last
    rw [isValidLocation_eq_false hfile hle hgenerates]
    rfl

/-- Two sources under the numbers zero and one, and a generated one under two. -/
def gapless : Artifact :=
  { contractName := "A"
    sources := (SortedMap.empty.insert 0 { id := 0, path := "A.sol" }).insert 1
      { id := 1, path := "B.sol" }
    deployed := { generated := [⟨.null, "", 2, "Yul", "#utility.yul"⟩] } }

/-- A single source under the number one. -/
def gapped : Artifact :=
  { contractName := "A", sources := SortedMap.empty.insert 1 { id := 1, path := "B.sol" } }

theorem sourcesNumbered_gapless : gapless.SourcesNumbered := by
  refine sourcesNumbered_iff.2 fun file hlt => ?_
  obtain rfl | rfl : file = 0 ∨ file = 1 := by
    have hcount : gapless.sourceCount = 2 := by decide +kernel
    omega
  all_goals decide +kernel

theorem isValidLocation_iff_pointsInto_gapless : gapless.SourcesNumbered ∧
    (∃ r, gapless.lineColumn? gapless.deployed ⟨some 2, 0, 1, .other⟩ = some r) ∧
    ¬ gapped.SourcesNumbered ∧
    gapped.isValidLocation ⟨some 0, 0, 1, .other⟩ gapped.deployed false ∧
    gapped.lineColumn? gapped.deployed ⟨some 0, 0, 1, .other⟩ = none ∧
    ∀ last, SourceLocation.orLastValid ⟨some 1, 0, 1, .other⟩
      (gapped.isValidLocation ⟨some 1, 0, 1, .other⟩ gapped.deployed true) (some last) = last := by
  obtain ⟨-, hlines, -, -⟩ := isValidLocation_iff_pointsInto gapless gapless.deployed
  obtain ⟨hagree, -, hbelow, habove⟩ := isValidLocation_iff_pointsInto gapped gapped.deployed
  have hgenerates : ∀ file, ¬ gapped.deployed.Generates file := fun file ⟨s, hs, _⟩ => by
    cases hs
  obtain ⟨hvalid, hnone⟩ := hbelow ⟨some 0, 0, 1, .other⟩ 0 rfl (by decide +kernel) (by rfl)
  refine ⟨sourcesNumbered_gapless,
    (hlines sourcesNumbered_gapless ⟨some 2, 0, 1, .other⟩ true).1 (by decide +kernel),
    fun h => ?_, hvalid false, hnone (hgenerates 0),
    habove ⟨some 1, 0, 1, .other⟩ 1 rfl (by decide +kernel) true fun _ => hgenerates 1⟩
  have hinto := (hagree.2 h _ _).1 (hvalid false)
  obtain ⟨_, ⟨⟩, hsource | ⟨hfalse, -⟩⟩ := hinto
  · exact absurd hsource (by decide +kernel)
  · contradiction

end Artifact

end TraceTree
