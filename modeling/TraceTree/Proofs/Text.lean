import Mathlib.Data.List.Basic
import TraceTree.Json.Record
import TraceTree.Text

/-!
Written numbers and trimmed texts read back. Main statements: the digits of a number
within the bound read as the number, with leading zeros allowed (`unsigned?_digits`) and without
(`readNatKey_digits`), and blanks around a text are dropped again (`IsTrimmed.trim_append`).
-/
namespace TraceTree

namespace Text

/-! ### Numbers -/

theorem isDigit_of_mem_digits {n : Nat} {c : Char} (h : c ∈ digits n) : c.isDigit :=
  Nat.isDigit_of_mem_toDigits (by decide) (by decide) h

theorem digits?_digits (n : Nat) : digits? (digits n) = some n := by
  have hnil : (digits n).isEmpty = false := by
    rw [List.isEmpty_eq_false_iff]
    exact Nat.toDigits_ne_nil
  have hall : (digits n).all Char.isDigit = true :=
    List.all_eq_true.2 fun c hc => isDigit_of_mem_digits hc
  have hvalue : valueOfDigits (digits n) = n := Nat.ofDigitChars_toDigits (by decide) (by decide)
  rw [digits?, hnil, hall, hvalue]
  rfl

theorem isDigit_of_digits? {cs : List Char} {n : Nat} (h : digits? cs = some n) :
    ∀ c ∈ cs, c.isDigit := by
  rw [digits?] at h
  split at h
  · rename_i hall
    exact List.all_eq_true.1 (Bool.and_eq_true_iff.1 hall).2
  · contradiction

theorem digits?_plus (cs : List Char) : digits? ('+' :: cs) = none := by
  rw [Option.eq_none_iff_forall_ne_some]
  intro n hn
  exact absurd (isDigit_of_digits? hn '+' List.mem_cons_self) (by decide)

theorem unsigned?_of_digits? {bound n : Nat} {cs : List Char} (h : digits? cs = some n) :
    unsigned? bound cs = if n < bound then some n else none := by
  have hplus : ∀ rest, cs ≠ '+' :: rest := by
    rintro rest rfl
    rw [digits?_plus] at h
    contradiction
  rw [unsigned?, h, Option.filter_some]
  · simp
  · exact hplus

theorem unsigned?_digits {bound n : Nat} (h : n < bound) : unsigned? bound (digits n) = some n := by
  rw [unsigned?_of_digits? (digits?_digits n), if_pos h]

/-- Nothing is read where no number below the bound stands, with or without a sign. -/
theorem unsigned?_eq_none_iff {bound : Nat} {cs : List Char} : unsigned? bound cs = none ↔
    ∀ ds n, cs = ds ∨ cs = '+' :: ds → digits? ds = some n → bound ≤ n := by
  constructor
  · rintro h ds n (rfl | rfl) hn
    · rw [unsigned?_of_digits? hn] at h
      simpa using h
    · rw [unsigned?, hn, Option.filter_some] at h
      simpa using h
  · intro h
    unfold unsigned?
    rw [Option.filter_eq_none_iff]
    intro n hn
    split at hn
    · simpa using h _ n (.inr rfl) hn
    · simpa using h _ n (.inl rfl) hn

theorem mapM_unsigned?_digits {bound : Nat} {ns : List Nat} (h : ∀ n ∈ ns, n < bound) :
    (ns.map digits).mapM (unsigned? bound) = some ns := by
  induction ns with
  | nil => rfl
  | cons n ns ih =>
    rw [List.map_cons, List.mapM_cons, unsigned?_digits (h n List.mem_cons_self),
      ih fun m hm => h m (List.mem_cons_of_mem _ hm)]
    rfl

/-- Only zero starts with a zero. -/
theorem head?_digits_ne {n : Nat} (h : n ≠ 0) : (digits n).head? ≠ some '0' := by
  induction n using Nat.strongRecOn with
  | ind n ih =>
    rw [digits, Nat.toDigits_eq_if (by decide)]
    split
    · rename_i hlt
      have hsingle : ∀ i : Fin 10, i.val ≠ 0 → [Nat.digitChar i.val].head? ≠ some '0' := by decide
      exact hsingle ⟨n, hlt⟩ h
    · rename_i hge
      have hdiv : n / 10 ≠ 0 := by omega
      rw [List.head?_append, Option.or_of_isSome (List.isSome_head?.2 Nat.toDigits_ne_nil)]
      exact ih (n / 10) (by omega) hdiv

/-! ### Pieces -/

theorem mem_intercalate {sep c : Char} {pieces : List (List Char)}
    (h : c ∈ [sep].intercalate pieces) : c = sep ∨ ∃ piece ∈ pieces, c ∈ piece := by
  induction pieces with
  | nil => exact absurd h List.not_mem_nil
  | cons piece rest ih =>
    cases rest with
    | nil =>
      rw [List.intercalate_singleton] at h
      exact .inr ⟨piece, List.mem_cons_self, h⟩
    | cons next rest =>
      rw [List.intercalate_cons_cons, List.append_assoc] at h
      rcases List.mem_append.1 h with h | h
      · exact .inr ⟨piece, List.mem_cons_self, h⟩
      · rcases List.mem_cons.1 h with h | h
        · exact .inl h
        · exact (ih h).imp_right fun ⟨q, hq, hc⟩ => ⟨q, List.mem_cons_of_mem _ hq, hc⟩

/-! ### Runs and ends -/

section

variable {p : Char → Bool} {cs rest : List Char}

theorem takeWhile_eq_nil_of_head (h : rest.head?.all fun c => !p c) :
    rest.takeWhile p = [] ∧ rest.dropWhile p = rest := by
  cases rest with
  | nil => exact ⟨rfl, rfl⟩
  | cons c cs =>
    have hc : p c = false := by simpa using h
    exact ⟨by rw [List.takeWhile_cons, if_neg (by simp [hc])],
      by rw [List.dropWhile_cons, if_neg (by simp [hc])]⟩

/-- A run of characters is found whole when it ends where they end. -/
theorem takeWhile_append_of_head (hcs : ∀ c ∈ cs, p c) (h : rest.head?.all fun c => !p c) :
    (cs ++ rest).takeWhile p = cs ∧ (cs ++ rest).dropWhile p = rest := by
  obtain ⟨htake, hdrop⟩ := takeWhile_eq_nil_of_head h
  exact ⟨by rw [List.takeWhile_append_of_pos hcs, htake, List.append_nil],
    by rw [List.dropWhile_append_of_pos hcs, hdrop]⟩

/-- Whether the text starts and ends with something else than a blank. -/
def IsTrimmed (cs : List Char) : Prop :=
  (cs.head?.any fun c => !isBlank c) ∧ cs.getLast?.any fun c => !isBlank c

theorem isTrimmed_append (hhead : cs.head?.any fun c => !isBlank c)
    (hlast : rest.getLast?.any fun c => !isBlank c) : IsTrimmed (cs ++ rest) := by
  constructor
  · cases cs with
    | nil => contradiction
    | cons c cs => exact hhead
  · rw [List.getLast?_append]
    cases h : rest.getLast? with
    | none => rw [h] at hlast; contradiction
    | some c => rwa [h] at hlast

theorem isTrimmed_of_no_blank (hne : cs ≠ []) (h : ∀ c ∈ cs, isBlank c = false) : IsTrimmed cs := by
  constructor
  · rw [List.head?_eq_some_head hne, Option.any_some, h _ (List.head_mem hne)]
    rfl
  · rw [List.getLast?_eq_some_getLast hne, Option.any_some, h _ (List.getLast_mem hne)]
    rfl

/-- Blanks around a trimmed text are dropped, with what is blank at the start before it. -/
theorem IsTrimmed.trim_append (h : IsTrimmed cs) (lead rest : List Char)
    (hrest : ∀ c ∈ rest, isBlank c) :
    trim (lead ++ (cs ++ rest)) = lead.dropWhile isBlank ++ cs := by
  have hhead : (cs ++ rest).head?.all fun c => !isBlank c := by
    cases cs with
    | nil => exact absurd h.1 (by simp)
    | cons c cs => exact h.1
  have hlead : (lead ++ (cs ++ rest)).dropWhile isBlank =
      lead.dropWhile isBlank ++ (cs ++ rest) := by
    rw [List.dropWhile_append]
    split
    · rename_i hnil
      rw [List.isEmpty_iff.1 hnil, (takeWhile_eq_nil_of_head hhead).2, List.nil_append]
    · rfl
  have hlast : (cs.reverse ++ (lead.dropWhile isBlank).reverse).head?.all fun c => !isBlank c := by
    cases hlist : cs.reverse with
    | nil => exact absurd h.2 (by simp [List.getLast?_eq_head?_reverse, hlist])
    | cons c _ => simpa [List.getLast?_eq_head?_reverse, hlist] using h.2
  rw [trim, hlead, List.reverse_append, List.reverse_append, List.append_assoc,
    (takeWhile_append_of_head (by simpa using hrest) hlast).2, List.reverse_append,
    List.reverse_reverse, List.reverse_reverse]

theorem IsTrimmed.trim (h : IsTrimmed cs) : trim cs = cs := by
  simpa using h.trim_append [] [] (by simp)

/-- What is trimmed off are blanks at both ends. -/
theorem exists_trim (cs : List Char) : ∃ lead rest, cs = lead ++ (trim cs ++ rest) ∧
    (∀ c ∈ lead, isBlank c) ∧ ∀ c ∈ rest, isBlank c := by
  refine ⟨cs.takeWhile isBlank, ((cs.dropWhile isBlank).reverse.takeWhile isBlank).reverse, ?_,
    List.all_eq_true.1 List.all_takeWhile, fun c hc => ?_⟩
  · rw [trim, ← List.reverse_append, List.takeWhile_append_dropWhile,
      List.reverse_reverse, List.takeWhile_append_dropWhile]
  · exact List.all_eq_true.1 List.all_takeWhile c (List.mem_reverse.1 hc)

theorem trim_of_no_blank (h : ∀ c ∈ cs, isBlank c = false) : trim cs = cs := by
  cases cs with
  | nil => rfl
  | cons c cs => exact (isTrimmed_of_no_blank (List.cons_ne_nil c cs) h).trim

theorem isPrefixOf?_eq_none_iff {word cs : List Char} :
    word.isPrefixOf? cs = none ↔ ¬ word <+: cs := by
  rw [← List.isPrefixOf_iff_prefix, ← List.isSome_isPrefixOf?_eq_isPrefixOf,
    Option.not_isSome_iff_eq_none]

theorem isSuffixOf?_eq_none_iff {word cs : List Char} :
    word.isSuffixOf? cs = none ↔ ¬ word <:+ cs := by
  rw [← List.isSuffixOf_iff_suffix, ← List.isSome_isSuffixOf?_eq_isSuffixOf,
    Option.not_isSome_iff_eq_none]

theorem occursIn_iff {word cs : List Char} : occursIn word cs ↔ word <:+: cs := by
  induction cs with
  | nil => rw [occursIn, List.isEmpty_iff, List.infix_nil]
  | cons c cs ih =>
    rw [occursIn, Bool.or_eq_true, List.isPrefixOf_iff_prefix, ih, List.infix_cons_iff]

end

end Text

/-- A number reads back as the name of a member. -/
theorem Json.readNatKey_digits {bound n : Nat} (h : n < bound) :
    readNatKey bound (String.ofList (Text.digits n)) = some n := by
  have hlead : ¬ ((Text.digits n).head? = some '0' ∧ (Text.digits n).length ≠ 1) := by
    rintro ⟨hzero, hlength⟩
    rcases Nat.eq_zero_or_pos n with rfl | hpos
    · exact hlength rfl
    · exact Text.head?_digits_ne (Nat.ne_of_gt hpos) hzero
  rw [readNatKey, String.toList_ofList, if_neg hlead, Text.digits?_digits, Option.filter_some,
    if_pos (decide_eq_true h)]

end TraceTree
