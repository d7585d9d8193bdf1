import Mathlib.Data.List.TakeWhile
import TraceTree.Proofs.CallTree.Codec
import TraceTree.Proofs.Text.Numeral

/-!
Ranges of source text as they are written. Main statements: the texts that are read are those that
spell a range, with signs, leading zeros and blanks in them (`ofText?_eq_some_iff`); a range reads
back from its written form, with a file or without (`ofText?_render`), so writing what was read and
reading it again gives the same range (`ofText?_spelled`).
-/
namespace TraceTree.SourceRange

open Text (Signed Unsigned bound32 bound63 bound64)

variable {cs start length file : List Char} {n : Nat} {z : Int} {r : SourceRange}

/-! ### Grammar -/

/-- A number means the file that has it, and any negative number means no file. -/
inductive MeansFile : Int → Nat → Prop
  | file {n : Nat} : n < bound32 → MeansFile n n
  | noFile {z : Int} : z < 0 → MeansFile z noFile

/-- The texts of a range: where it starts, how long it is and the number of its file, with colons
between them and blanks around. -/
inductive Spells : List Char → SourceRange → Prop
  | intro {lead rest start length file : List Char} {z : Int} {r : SourceRange} :
      (∀ c ∈ lead, Text.isBlank c) → (∀ c ∈ rest, Text.isBlank c) →
      Unsigned start r.start → r.start < bound64 →
      Unsigned length r.length → r.length < bound64 →
      Signed file z → -(bound63 : Int) ≤ z → z < bound63 → MeansFile z r.file →
      Spells (lead ++ ((start ++ ':' :: (length ++ ':' :: file)) ++ rest)) r

/-! ### Pieces -/

theorem fileOfNumber?_eq_some_iff : fileOfNumber? z = some n ↔ MeansFile z n := by
  constructor
  · intro h
    cases z with
    | ofNat m =>
      obtain ⟨hlt, hm⟩ := Option.ite_none_right_eq_some.1 h
      cases hm
      exact .file hlt
    | negSucc m =>
      cases h
      exact .noFile (Int.negSucc_lt_zero m)
  · intro h
    cases h with
    | file hlt => exact if_pos hlt
    | noFile hneg =>
      obtain ⟨m, rfl⟩ := Int.eq_negSucc_of_lt_zero hneg
      rfl

theorem MeansFile.lt (h : MeansFile z n) : n < bound32 := by
  cases h with
  | file hlt => exact hlt
  | noFile _ => decide

theorem intercalate_pieces (start length file : List Char) :
    [':'].intercalate [start, length, file] = start ++ ':' :: (length ++ ':' :: file) := by
  simp

/-- Three numerals with colons between them are cut into the three. -/
theorem splitOn_pieces (hstart : ∀ c ∈ start, Text.isNumeralChar c)
    (hlength : ∀ c ∈ length, Text.isNumeralChar c) (hfile : ∀ c ∈ file, Text.isNumeralChar c) :
    (start ++ ':' :: (length ++ ':' :: file)).splitOn ':' = [start, length, file] := by
  have hcolon : ∀ piece : List Char, (∀ c ∈ piece, Text.isNumeralChar c) → ':' ∉ piece :=
    fun piece h hmem => absurd (h ':' hmem) (by decide)
  rw [List.splitOn_append_cons_self_of_not_mem (hcolon start hstart),
    List.splitOn_append_cons_self_of_not_mem (hcolon length hlength),
    List.splitOn_eq_singleton (hcolon file hfile)]

theorem isTrimmed_pieces (hstart : ∀ c ∈ start, Text.isNumeralChar c)
    (hlength : ∀ c ∈ length, Text.isNumeralChar c) (hfile : ∀ c ∈ file, Text.isNumeralChar c) :
    Text.IsTrimmed (start ++ ':' :: (length ++ ':' :: file)) := by
  refine Text.isTrimmed_of_no_blank (by simp) fun c hc => ?_
  simp only [List.mem_append, List.mem_cons] at hc
  obtain hc | rfl | hc | rfl | hc := hc
  · exact Text.isBlank_of_isNumeralChar (hstart c hc)
  · rfl
  · exact Text.isBlank_of_isNumeralChar (hlength c hc)
  · rfl
  · exact Text.isBlank_of_isNumeralChar (hfile c hc)

/-- A text is read when it has three pieces, each of them a numeral within its bounds. -/
theorem ofText?_eq_some_iff_splitOn : ofText? cs = some r ↔
    ∃ start length file z, (Text.trim cs).splitOn ':' = [start, length, file] ∧
      (Unsigned start r.start ∧ r.start < bound64) ∧ (Unsigned length r.length ∧ r.length < bound64) ∧
      (Signed file z ∧ -(bound63 : Int) ≤ z ∧ z < bound63) ∧ MeansFile z r.file := by
  have hsigned : ∀ {file z}, Text.signed? bound63 file = some z ↔
      Signed file z ∧ -(bound63 : Int) ≤ z ∧ z < bound63 := Text.signed?_eq_some_iff (by decide)
  rw [ofText?]
  constructor
  · intro h
    split at h
    · rename_i start length file hpieces
      simp only [Option.bind_eq_bind, Option.bind_eq_some_iff, Option.pure_def, Option.some.injEq,
        Text.unsigned?_eq_some_iff, hsigned, fileOfNumber?_eq_some_iff] at h
      obtain ⟨_, hstart, _, hlength, _, ⟨z, hz, hfile⟩, rfl⟩ := h
      exact ⟨start, length, file, z, hpieces, hstart, hlength, hz, hfile⟩
    · contradiction
  · rintro ⟨start, length, file, z, hpieces, hstart, hlength, hz, hfile⟩
    rw [hpieces]
    simp only [Text.unsigned?_eq_some_iff.2 hstart, Text.unsigned?_eq_some_iff.2 hlength,
      hsigned.2 hz, fileOfNumber?_eq_some_iff.2 hfile,
      Option.bind_eq_bind, Option.bind_some, Option.pure_def]

/-! ### Reading -/

theorem ofText?_eq_some_iff : ofText? cs = some r ↔ Spells cs r := by
  rw [ofText?_eq_some_iff_splitOn]
  constructor
  · rintro ⟨start, length, file, z, hpieces, ⟨hstart, hstartLt⟩, ⟨hlength, hlengthLt⟩,
      ⟨hz, hlo, hhi⟩, hfile⟩
    obtain ⟨lead, rest, hcs, hlead, hrest⟩ := Text.exists_trim cs
    have htrim : Text.trim cs = start ++ ':' :: (length ++ ':' :: file) := by
      have hjoin : [':'].intercalate ((Text.trim cs).splitOn ':') = Text.trim cs :=
        List.intercalate_splitOn ':'
      rw [← hjoin, hpieces, intercalate_pieces]
    rw [hcs, htrim]
    exact .intro hlead hrest hstart hstartLt hlength hlengthLt hz hlo hhi hfile
  · rintro ⟨hlead, hrest, hstart, hstartLt, hlength, hlengthLt, hz, hlo, hhi, hfile⟩
    have hnostart := hstart.isNumeralChar
    rw [(isTrimmed_pieces hnostart hlength.isNumeralChar hz.isNumeralChar).trim_append _ _ hrest,
      List.dropWhile_eq_nil_iff.2 hlead, List.nil_append]
    exact ⟨_, _, _, _, splitOn_pieces hnostart hlength.isNumeralChar hz.isNumeralChar,
      ⟨hstart, hstartLt⟩, ⟨hlength, hlengthLt⟩, ⟨hz, hlo, hhi⟩, hfile⟩

theorem Spells.fits (h : Spells cs r) : r.Fits := by
  obtain ⟨-, -, -, hstart, -, hlength, -, -, -, hfile⟩ := h
  exact ⟨hfile.lt, hstart, hlength⟩

/-! ### Writing -/

/-- The numbers of a range, written, spell it with any numeral of its file. -/
theorem Spells.of_digits (hstart : r.start < bound64) (hlength : r.length < bound64)
    (hz : Signed file z) (hlo : -(bound63 : Int) ≤ z) (hhi : z < bound63)
    (hfile : MeansFile z r.file) :
    Spells (Text.digits r.start ++ ':' :: (Text.digits r.length ++ ':' :: file)) r := by
  have h : Spells ([] ++ (_ ++ [])) r :=
    .intro (List.forall_mem_nil _) (List.forall_mem_nil _) (.plain (Text.decimal_digits r.start))
      hstart (.plain (Text.decimal_digits r.length)) hlength hz hlo hhi hfile
  rwa [List.nil_append, List.append_nil] at h

/-- The written form of a range spells it. -/
theorem spells_render (h : r.Fits) : Spells r.render r := by
  obtain ⟨hfile, hstart, hlength⟩ := h
  rw [render, intercalate_pieces]
  by_cases hexists : r.isExistent
  · have hbounds : (bound32 : Int) ≤ bound63 := by decide
    rw [if_pos hexists]
    exact .of_digits hstart hlength (.unsigned (.plain (Text.decimal_digits r.file)))
      (by omega) (by omega) (.file hfile)
  · have hnoFile : r.file = noFile := by simpa [isExistent] using hexists
    have hminus : Signed ['-', '1'] (-1) := .minus (Text.decimal_digits 1)
    rw [if_neg hexists]
    exact .of_digits hstart hlength hminus (by decide) (by decide) (hnoFile ▸ .noFile (by decide))

theorem ofText?_render (h : r.Fits) : ofText? r.render = some r :=
  ofText?_eq_some_iff.2 (spells_render h)

/-- A text is read as a range exactly when it spells that range. A range whose numbers are of their
width reads back from its written form, whether it has a file or not, and so does every range that
was read from any of its texts. -/
theorem ofText?_spelled :
    (∀ (cs : List Char) (r : SourceRange), ofText? cs = some r ↔ Spells cs r) ∧
    (∀ r : SourceRange, r.Fits → ofText? r.render = some r) ∧
    ∀ (cs : List Char) (r : SourceRange), ofText? cs = some r → ofText? r.render = some r :=
  ⟨fun _ _ => ofText?_eq_some_iff, fun _ => ofText?_render,
    fun _ _ h => ofText?_render (ofText?_eq_some_iff.1 h).fits⟩

/-- A text with signs, a leading zero and blanks, of a range without a file. -/
theorem ofText?_spelled_noFile :
    ofText? " +07:3:-25\n".toList = some ⟨noFile, 7, 3⟩ ∧
      Spells " +07:3:-25\n".toList ⟨noFile, 7, 3⟩ ∧
      ofText? (SourceRange.render ⟨noFile, 7, 3⟩) = some ⟨noFile, 7, 3⟩ ∧
      (⟨2, 120, 35⟩ : SourceRange).Fits ∧
      ofText? (SourceRange.render ⟨2, 120, 35⟩) = some ⟨2, 120, 35⟩ := by
  obtain ⟨hspells, hwritten, hagain⟩ := ofText?_spelled
  have hread : ofText? " +07:3:-25\n".toList = some ⟨noFile, 7, 3⟩ := by decide +kernel
  have hfits : (⟨2, 120, 35⟩ : SourceRange).Fits := by decide
  exact ⟨hread, (hspells _ _).1 hread, hagain _ _ hread, hfits, hwritten _ hfits⟩

end TraceTree.SourceRange
