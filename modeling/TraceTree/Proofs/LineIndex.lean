import Mathlib.Data.List.Basic
import Mathlib.Data.List.TakeWhile
import Mathlib.Data.Prod.Lex
import TraceTree.LineIndex

/-!
Lines and columns against the bytes of a text. The index of a text has the offsets right after its
line breaks, so a search in it counts the line breaks before an offset. Main statement: the line of
an offset is the number of line breaks before it and the column is its distance from the last of
them, which makes the conversion strictly increasing (`LineIndex.ofText_lineColumn`).
-/
namespace TraceTree

/-! ### Bytes -/

/-- The bytes of a text in UTF-8. -/
def Text.utf8 (text : String) : List UInt8 := text.toUTF8.data.toList

namespace LineIndex

/-- The byte of a line break. -/
def lineBreak : UInt8 := 10

/-- Where the line of an offset starts: right after the last line break before it, or with the
text. -/
inductive LineStart (bytes : List UInt8) (o : Nat) : Nat → Prop
  | first : (∀ i < o, bytes[i]? ≠ some lineBreak) → LineStart bytes o 0
  | after {i : Nat} : i < o → bytes[i]? = some lineBreak →
      (∀ j < o, i < j → bytes[j]? ≠ some lineBreak) → LineStart bytes o (i + 1)

variable {bytes : List UInt8} {c : Char} {k o o' start : Nat}

theorem LineStart.le (h : LineStart bytes o start) : start ≤ o := by
  cases h with
  | first _ => exact Nat.zero_le o
  | after hlt _ _ => exact hlt

theorem utf8_eq (text : String) :
    Text.utf8 text = text.toList.flatMap String.utf8EncodeChar := by
  rw [Text.utf8, String.toUTF8_eq_toByteArray, ← String.utf8Encode_toList, List.utf8Encode,
    List.toList_data_toByteArray]

theorem utf8EncodeChar_newline : String.utf8EncodeChar '\n' = [lineBreak] := by decide

/-- No other character has the byte of a line break in it. -/
theorem ne_lineBreak_of_mem (h : c ≠ '\n') : ∀ b ∈ String.utf8EncodeChar c, b ≠ lineBreak := by
  have hne : c.val.toNat ≠ 10 := fun hc => h (Char.toNat_inj.1 hc)
  have hbytes : ∀ b ∈ String.utf8EncodeChar c, b.toNat ≠ 10 := by
    rw [String.utf8EncodeChar]
    split_ifs
    all_goals
      simp only [List.forall_mem_cons, List.not_mem_nil, false_imp_iff, implies_true, and_true,
        UInt8.toNat_ofNat']
      omega
  exact fun b hb heq => hbytes b hb (heq ▸ rfl)

/-- The later lines start right after the line breaks. -/
theorem breaksFrom_eq (k : Nat) (cs : List Char) :
    breaksFrom k cs = (cs.flatMap String.utf8EncodeChar).idxsOf lineBreak (k + 1) := by
  induction cs generalizing k with
  | nil => rfl
  | cons c cs ih =>
    have hnext : k + 1 + c.utf8Size = k + c.utf8Size + 1 := by omega
    rw [breaksFrom, List.flatMap_cons, List.idxsOf_append, String.length_utf8EncodeChar, hnext, ih]
    by_cases hc : c = '\n'
    · subst hc
      rw [if_pos rfl, utf8EncodeChar_newline]
      rfl
    · have hnil : (String.utf8EncodeChar c).idxsOf lineBreak (k + 1) = [] :=
        List.idxsOf_eq_nil_iff.2 fun b hb => beq_eq_false_iff_ne.2 (ne_lineBreak_of_mem hc b hb)
      rw [if_neg hc, hnil, List.nil_append]

theorem laterStarts_ofText (text : String) :
    (ofText text).laterStarts = (Text.utf8 text).idxsOf lineBreak 1 := by
  rw [ofText, breaksFrom_eq, utf8_eq]

/-! ### Before an offset -/

/-- The line breaks whose line starts up to `o` are those before `o`. -/
theorem takeWhile_idxsOf (bytes : List UInt8) (k o : Nat) :
    (bytes.idxsOf lineBreak (k + 1)).takeWhile (· ≤ k + o) =
      (bytes.take o).idxsOf lineBreak (k + 1) := by
  induction bytes generalizing k o with
  | nil => simp
  | cons b bytes ih =>
    cases o with
    | zero =>
      rw [List.take_zero, List.idxsOf_nil, List.takeWhile_eq_nil_iff]
      intro hpos
      rw [decide_eq_true_eq]
      exact Nat.not_le.2 (List.le_getElem_idxsOf hpos)
    | succ o =>
      have hnext : k + (o + 1) = k + 1 + o := by omega
      rw [List.take_succ_cons, List.idxsOf_cons, List.idxsOf_cons, hnext]
      split
      · rw [List.takeWhile_cons_of_pos (by simp), ih]
      · exact ih (k + 1) o

/-- The offsets up to `o` at which lines after the first start. -/
def startsUpTo (bytes : List UInt8) (o : Nat) : List Nat := (bytes.take o).idxsOf lineBreak 1

theorem lineColumn_ofText (text : String) (o : Nat) :
    (ofText text).lineColumn o =
      { line := (startsUpTo (Text.utf8 text) o).length
        column := o - (startsUpTo (Text.utf8 text) o).getLastD 0 } := by
  have h := takeWhile_idxsOf (Text.utf8 text) 0 o
  rw [Nat.zero_add, Nat.zero_add] at h
  rw [lineColumn, laterStarts_ofText, h, startsUpTo]

theorem length_startsUpTo (bytes : List UInt8) (o : Nat) :
    (startsUpTo bytes o).length = (bytes.take o).count lineBreak :=
  List.length_idxsOf

theorem mem_startsUpTo :
    start ∈ startsUpTo bytes o ↔ ∃ i < o, bytes[i]? = some lineBreak ∧ start = i + 1 := by
  rw [startsUpTo, List.mem_idxsOf_iff_getElem_sub_pos]
  constructor
  · rintro ⟨hpos, hlt, hbyte⟩
    rw [List.length_take] at hlt
    rw [List.getElem_take, beq_iff_eq] at hbyte
    exact ⟨start - 1, by omega, List.getElem?_eq_some_iff.2 ⟨by omega, hbyte⟩, by omega⟩
  · rintro ⟨i, hi, hbyte, rfl⟩
    obtain ⟨hlt, hbyte⟩ := List.getElem?_eq_some_iff.1 hbyte
    refine ⟨Nat.le_add_left 1 i, by rw [List.length_take]; omega, ?_⟩
    rw [List.getElem_take, beq_iff_eq]
    exact hbyte

theorem startsUpTo_prefix (bytes : List UInt8) (h : o ≤ o') :
    startsUpTo bytes o <+: startsUpTo bytes o' := by
  obtain ⟨rest, hrest⟩ := List.take_prefix_take_left (l := bytes) h
  rw [startsUpTo, startsUpTo, ← hrest, List.idxsOf_append]
  exact List.prefix_append _ _

/-- The line of an offset starts where the last of the lines up to there does. -/
theorem lineStart_getLastD (bytes : List UInt8) (o : Nat) :
    LineStart bytes o ((startsUpTo bytes o).getLastD 0) := by
  rcases List.eq_nil_or_concat' (startsUpTo bytes o) with hnil | ⟨init, last, hlast⟩
  · rw [hnil]
    refine .first fun i hi hbyte => ?_
    have hmem := mem_startsUpTo.2 ⟨i, hi, hbyte, rfl⟩
    simp [hnil] at hmem
  · have hsorted : (startsUpTo bytes o).Pairwise (· < ·) := List.pairwise_idxsOf
    obtain ⟨i, hi, hbyte, rfl⟩ : ∃ i < o, bytes[i]? = some lineBreak ∧ last = i + 1 :=
      mem_startsUpTo.1 (by simp [hlast])
    rw [hlast] at hsorted ⊢
    rw [List.getLastD_concat]
    refine .after hi hbyte fun j hj hij hbyte' => ?_
    have hmem := mem_startsUpTo.2 ⟨j, hj, hbyte', rfl⟩
    rw [hlast] at hmem
    rcases List.mem_append.1 hmem with hmem | hmem
    · have := (List.pairwise_append.1 hsorted).2.2 _ hmem _ (List.mem_singleton_self _)
      omega
    · have := List.mem_singleton.1 hmem
      omega

/-! ### Order -/

/-- Of two offsets the smaller one is on an earlier line, or before the other on its line. -/
theorem lineColumn_lt (text : String) (h : o < o') :
    ((ofText text).lineColumn o).line < ((ofText text).lineColumn o').line ∨
      ((ofText text).lineColumn o).line = ((ofText text).lineColumn o').line ∧
        ((ofText text).lineColumn o).column < ((ofText text).lineColumn o').column := by
  simp only [lineColumn_ofText]
  have hprefix := startsUpTo_prefix (Text.utf8 text) (Nat.le_of_lt h)
  rcases Nat.lt_or_eq_of_le hprefix.length_le with hlt | heq
  · exact .inl hlt
  · have hle := (lineStart_getLastD (Text.utf8 text) o).le
    rw [← hprefix.eq_of_length heq]
    exact .inr ⟨rfl, by omega⟩

/-- The lines of a text are one more than its line breaks. An offset lies on the line whose number
is the count of the line breaks before it, as far from the start of that line as its column says;
past the end this is the last line. Greater offsets have greater lines and columns, in lexicographic
order, and a stretch of text is converted by its two ends when its end is an offset of 64 bits. -/
theorem ofText_lineColumn (text : String) :
    let bytes := Text.utf8 text
    let index := ofText text
    index.lineCount = bytes.count lineBreak + 1 ∧
    (∀ o, (index.lineColumn o).line = (bytes.take o).count lineBreak ∧
      ∃ start, LineStart bytes o start ∧ start + (index.lineColumn o).column = o) ∧
    (StrictMono fun o => toLex ((index.lineColumn o).line, (index.lineColumn o).column)) ∧
    Function.Injective index.lineColumn ∧
    (∀ start length, start + length < Text.bound64 → index.range start length =
      ⟨index.lineColumn start, index.lineColumn (start + length)⟩) ∧
    ∀ o, bytes.length ≤ o → (index.lineColumn o).line + 1 = index.lineCount := by
  intro bytes index
  have hcount : index.lineCount = bytes.count lineBreak + 1 := by
    rw [lineCount, laterStarts_ofText, List.length_idxsOf]
  have hline : ∀ o, (index.lineColumn o).line = (bytes.take o).count lineBreak := fun o => by
    rw [lineColumn_ofText, length_startsUpTo]
  have hmono : StrictMono fun o =>
      toLex ((index.lineColumn o).line, (index.lineColumn o).column) :=
    fun o o' h => Prod.Lex.toLex_lt_toLex.2 (lineColumn_lt text h)
  refine ⟨hcount, fun o => ⟨hline o, _, lineStart_getLastD bytes o, ?_⟩, hmono, fun o o' h => ?_,
    fun start length hstop => ?_, fun o ho => ?_⟩
  · have hle := (lineStart_getLastD bytes o).le
    rw [lineColumn_ofText]
    exact Nat.add_sub_cancel' hle
  · exact hmono.injective (congrArg (fun p => toLex (p.line, p.column)) h)
  · rw [range, Nat.mod_eq_of_lt hstop]
  · rw [hline, hcount, List.take_of_length_le ho]

/-- A stretch of text over two lines, and an offset past the end of the second one. -/
theorem ofText_lineColumn_pastEnd :
    let bytes := Text.utf8 "é\nx"
    let index := ofText "é\nx"
    2 + 2 < Text.bound64 ∧ index.range 2 2 = ⟨⟨0, 2⟩, ⟨1, 1⟩⟩ ∧
    bytes.length ≤ 9 ∧ (index.lineColumn 9).line + 1 = index.lineCount ∧
    index.lineColumn 9 = ⟨1, 6⟩ := by
  obtain ⟨-, -, -, -, hrange, hpast⟩ := ofText_lineColumn "é\nx"
  exact ⟨by decide, hrange 2 2 (by decide), by decide, hpast 9 (by decide), by decide⟩

end LineIndex

end TraceTree
