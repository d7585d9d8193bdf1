import Mathlib.Data.List.Forall2
import Mathlib.Data.List.Induction
import TraceTree.Proofs.Text

/-!
Numerals as a grammar. A run of digits spells a number digit by digit, and a sign may stand before
it. Main statements: what is read is what a numeral spells, within the bound
(`unsigned?_eq_some_iff`, `signed?_eq_some_iff`), and a numeral is how its number is written exactly
when it has no plus sign and no zero before other digits (`Unsigned.digits_eq_iff`).
-/
namespace TraceTree.Text

variable {cs : List Char} {n d bound : Nat} {z : Int}

/-! ### Grammar -/

/-- A run of digits and the number that it spells. -/
inductive Decimal : List Char → Nat → Prop
  | digit {d : Nat} : d < 10 → Decimal [d.digitChar] d
  | snoc {cs : List Char} {n d : Nat} : Decimal cs n → d < 10 →
      Decimal (cs ++ [d.digitChar]) (10 * n + d)

/-- A run of digits with an optional plus sign. -/
inductive Unsigned : List Char → Nat → Prop
  | plain {cs : List Char} {n : Nat} : Decimal cs n → Unsigned cs n
  | plus {cs : List Char} {n : Nat} : Decimal cs n → Unsigned ('+' :: cs) n

/-- A run of digits with an optional sign. -/
inductive Signed : List Char → Int → Prop
  | unsigned {cs : List Char} {n : Nat} : Unsigned cs n → Signed cs n
  | minus {cs : List Char} {n : Nat} : Decimal cs n → Signed ('-' :: cs) (-n)

/-- No zero stands before other digits. -/
def HasNoLeadingZero (cs : List Char) : Prop := ∀ rest, cs = '0' :: rest → rest = []

/-! ### Digits -/

theorem digitValue_digitChar (h : d < 10) : digitValue d.digitChar = d :=
  Nat.toNat_digitChar_sub_48_of_lt_ten h

theorem exists_digitChar {c : Char} (h : c.isDigit) : ∃ d < 10, c = d.digitChar := by
  obtain ⟨hlo, hhi⟩ := Char.isDigit_iff_toNat.1 h
  have hlo : 48 ≤ c.toNat := hlo
  have hhi : c.toNat ≤ 57 := hhi
  have hlt : c.toNat - 48 < 10 := by omega
  refine ⟨c.toNat - 48, hlt, Char.toNat_inj.1 ?_⟩
  rw [Nat.toNat_digitChar_of_lt_ten hlt]
  omega

theorem valueOfDigits_snoc (cs : List Char) (c : Char) :
    valueOfDigits (cs ++ [c]) = 10 * valueOfDigits cs + digitValue c := by
  rw [valueOfDigits, List.foldl_append]
  rfl

namespace Decimal

theorem ne_nil (h : Decimal cs n) : cs ≠ [] := by
  cases h <;> simp

theorem isDigit (h : Decimal cs n) : ∀ c ∈ cs, c.isDigit := by
  induction h with
  | digit hd => simp [Nat.isDigit_digitChar, hd]
  | snoc _ hd ih =>
    intro c hc
    rcases List.mem_append.1 hc with hc | hc
    · exact ih c hc
    · rw [List.mem_singleton.1 hc, Nat.isDigit_digitChar, decide_eq_true hd]

theorem valueOfDigits_eq (h : Decimal cs n) : valueOfDigits cs = n := by
  induction h with
  | digit hd => exact (Nat.zero_add _).trans (digitValue_digitChar hd)
  | snoc _ hd ih => rw [valueOfDigits_snoc, ih, digitValue_digitChar hd]

/-- Digits, of which there is one at least, are a numeral. -/
theorem of_isDigit (hne : cs ≠ []) (h : ∀ c ∈ cs, c.isDigit) : Decimal cs (valueOfDigits cs) := by
  induction cs using List.reverseRecOn with
  | nil => exact absurd rfl hne
  | append_singleton cs c ih =>
    obtain ⟨d, hd, rfl⟩ := exists_digitChar (h c (by simp))
    rw [valueOfDigits_snoc, digitValue_digitChar hd]
    rcases List.eq_nil_or_concat cs with rfl | ⟨init, last, rfl⟩
    · exact (Nat.zero_add d).symm ▸ .digit hd
    · exact .snoc (ih (by simp) fun c hc => h c (List.mem_append_left _ hc)) hd

theorem digits_zero : digits 0 = ['0'] := rfl

/-- The digits of a number, the last one apart, are those of its tenth part. -/
theorem digits_snoc (hn : n ≠ 0) (hd : d < 10) : digits (10 * n + d) = digits n ++ [d.digitChar] := by
  rw [digits, digits, ← Nat.toDigits_append_toDigits (by decide) (Nat.pos_of_ne_zero hn) hd,
    Nat.toDigits_of_lt_base hd]

/-- A run of digits is how its number is written unless a zero stands before other digits. -/
theorem digits_eq_iff (h : Decimal cs n) : digits n = cs ↔ HasNoLeadingZero cs := by
  constructor
  · rintro rfl rest hrest
    by_cases hn : n = 0
    · subst hn
      exact (List.cons.inj (digits_zero.symm.trans hrest)).2.symm
    · exact absurd (by rw [hrest]; rfl) (head?_digits_ne hn)
  · intro hlead
    induction h with
    | digit hd => exact Nat.toDigits_of_lt_base hd
    | snoc hcs hd ih =>
      rename_i cs n d
      have hne := hcs.ne_nil
      have hcs' : HasNoLeadingZero cs := fun rest hrest => by
        subst hrest
        exact absurd (hlead _ rfl) (by simp)
      have hn : n ≠ 0 := by
        -- a number without leading zeros is zero only when it is written so
        rintro rfl
        exact absurd (hlead [d.digitChar] (by rw [← ih hcs', digits_zero]; rfl)) (by simp)
      rw [digits_snoc hn hd, ih hcs']

end Decimal

theorem digits?_eq_some_iff : digits? cs = some n ↔ Decimal cs n := by
  rw [digits?]
  constructor
  · intro h
    split at h
    · rename_i hcs
      obtain ⟨hne, hall⟩ := Bool.and_eq_true_iff.1 hcs
      cases h
      exact .of_isDigit (by simpa using hne) (List.all_eq_true.1 hall)
    · contradiction
  · intro h
    have hcs : (!cs.isEmpty && cs.all Char.isDigit) = true :=
      Bool.and_eq_true_iff.2 ⟨by simpa using h.ne_nil, List.all_eq_true.2 h.isDigit⟩
    rw [if_pos hcs, h.valueOfDigits_eq]

/-- The digits of a number spell it. -/
theorem decimal_digits (n : Nat) : Decimal (digits n) n := digits?_eq_some_iff.1 (digits?_digits n)

/-! ### Signs -/

theorem Decimal.head_ne {c : Char} {rest : List Char} (h : Decimal (c :: rest) n) :
    c ≠ '+' ∧ c ≠ '-' := by
  have hc := h.isDigit c List.mem_cons_self
  exact ⟨by rintro rfl; contradiction, by rintro rfl; contradiction⟩

theorem unsigned_plus_iff : Unsigned ('+' :: cs) n ↔ Decimal cs n := by
  refine ⟨fun h => ?_, .plus⟩
  cases h with
  | plain h => exact absurd rfl h.head_ne.1
  | plus h => exact h

theorem unsigned_iff_of_ne (h : ∀ rest, cs ≠ '+' :: rest) : Unsigned cs n ↔ Decimal cs n := by
  refine ⟨fun hcs => ?_, .plain⟩
  cases hcs with
  | plain hcs => exact hcs
  | plus _ => exact absurd rfl (h _)

theorem unsigned?_eq_some_iff : unsigned? bound cs = some n ↔ Unsigned cs n ∧ n < bound := by
  unfold unsigned?
  rw [Option.filter_eq_some_iff, digits?_eq_some_iff, decide_eq_true_iff]
  split
  · rw [unsigned_plus_iff]
  · rename_i hplus
    rw [unsigned_iff_of_ne hplus]

theorem signed_minus_iff : Signed ('-' :: cs) z ↔ ∃ n : Nat, Decimal cs n ∧ -(n : Int) = z := by
  refine ⟨fun h => ?_, fun ⟨n, h, hz⟩ => hz ▸ .minus h⟩
  cases h with
  | unsigned h =>
    cases h with
    | plain h => exact absurd rfl h.head_ne.2
  | minus h => exact ⟨_, h, rfl⟩

theorem signed_iff_of_ne (h : ∀ rest, cs ≠ '-' :: rest) :
    Signed cs z ↔ ∃ n : Nat, Unsigned cs n ∧ n = z := by
  refine ⟨fun hcs => ?_, fun ⟨n, hcs, hz⟩ => hz ▸ .unsigned hcs⟩
  cases hcs with
  | unsigned hcs => exact ⟨_, hcs, rfl⟩
  | minus _ => exact absurd rfl (h _)

theorem signed?_minus_eq_some_iff :
    signed? bound ('-' :: cs) = some z ↔ ∃ n : Nat, (Decimal cs n ∧ n ≤ bound) ∧ -(n : Int) = z := by
  simp only [signed?, bind_pure_comp, Option.map_eq_map, Option.map_map, Option.map_eq_some_iff,
    Option.filter_eq_some_iff, digits?_eq_some_iff, decide_eq_true_iff, Function.comp_apply]

theorem signed?_eq_some_iff_of_ne (h : ∀ rest, cs ≠ '-' :: rest) :
    signed? bound cs = some z ↔ ∃ n : Nat, (Unsigned cs n ∧ n < bound) ∧ n = z := by
  have hread : signed? bound cs = (unsigned? bound cs).map fun n => (n : Int) := by
    unfold signed?
    split
    · exact absurd rfl (h _)
    · rfl
  simp only [hread, bind_pure_comp, Option.map_eq_map, Option.map_map, Option.map_eq_some_iff,
    unsigned?_eq_some_iff, Function.comp_apply]

theorem signed?_eq_some_iff (hbound : 0 < bound) :
    signed? bound cs = some z ↔ Signed cs z ∧ -(bound : Int) ≤ z ∧ z < bound := by
  by_cases hminus : ∃ rest, cs = '-' :: rest
  · obtain ⟨rest, rfl⟩ := hminus
    rw [signed?_minus_eq_some_iff, signed_minus_iff]
    constructor
    · rintro ⟨n, ⟨h, hle⟩, rfl⟩
      exact ⟨⟨n, h, rfl⟩, by omega, by omega⟩
    · rintro ⟨⟨n, h, rfl⟩, hlo, -⟩
      exact ⟨n, ⟨h, by omega⟩, rfl⟩
  · rw [not_exists] at hminus
    rw [signed?_eq_some_iff_of_ne hminus, signed_iff_of_ne hminus]
    constructor
    · rintro ⟨n, ⟨h, hlt⟩, rfl⟩
      exact ⟨⟨n, h, rfl⟩, by omega, by omega⟩
    · rintro ⟨⟨n, h, rfl⟩, -, hlt⟩
      exact ⟨n, ⟨h, by omega⟩, rfl⟩

/-! ### Written forms -/

namespace Unsigned

/-- A numeral is how its number is written unless it has a plus sign or a zero before other
digits. -/
theorem digits_eq_iff (h : Unsigned cs n) : digits n = cs ↔ '+' ∉ cs ∧ HasNoLeadingZero cs := by
  cases h with
  | plain h =>
    have hplus : '+' ∉ cs := fun hmem => absurd (h.isDigit _ hmem) (by decide)
    rw [h.digits_eq_iff, and_iff_right hplus]
  | plus h =>
    refine ⟨fun heq => ?_, fun hplus => absurd List.mem_cons_self hplus.1⟩
    exact absurd (isDigit_of_mem_digits (heq ▸ List.mem_cons_self)) (by decide)

end Unsigned

/-! ### Rows of numerals -/

theorem mapM_unsigned?_eq_some_iff {pieces : List (List Char)} {ns : List Nat} :
    pieces.mapM (unsigned? bound) = some ns ↔
      List.Forall₂ (fun piece n => Unsigned piece n ∧ n < bound) pieces ns := by
  induction pieces generalizing ns with
  | nil => rw [List.mapM_nil, List.forall₂_nil_left_iff, Option.pure_def, Option.some_inj, eq_comm]
  | cons piece pieces ih =>
    simp only [List.mapM_cons, Option.bind_eq_bind, Option.bind_eq_some_iff, Option.pure_def,
      Option.some.injEq, unsigned?_eq_some_iff, ih, List.forall₂_cons_left_iff]
    constructor
    · rintro ⟨n, hn, ms, hms, rfl⟩
      exact ⟨n, ms, hn, hms, rfl⟩
    · rintro ⟨n, ms, hn, hms, rfl⟩
      exact ⟨n, hn, ms, hms, rfl⟩

theorem exists_mapM_unsigned?_iff {pieces : List (List Char)} :
    (∃ ns, pieces.mapM (unsigned? bound) = some ns) ↔
      ∀ piece ∈ pieces, ∃ n, Unsigned piece n ∧ n < bound := by
  simp only [mapM_unsigned?_eq_some_iff]
  induction pieces with
  | nil => exact ⟨fun _ => List.forall_mem_nil _, fun _ => ⟨[], .nil⟩⟩
  | cons piece pieces ih =>
    rw [List.forall_mem_cons, ← ih]
    constructor
    · rintro ⟨_, _ | ⟨hn, hns⟩⟩
      exact ⟨⟨_, hn⟩, _, hns⟩
    · rintro ⟨⟨n, hn⟩, ns, hns⟩
      exact ⟨n :: ns, .cons hn hns⟩

theorem map_digits_eq_iff {pieces : List (List Char)} {ns : List Nat}
    (h : List.Forall₂ (fun piece n => Unsigned piece n ∧ n < bound) pieces ns) :
    ns.map digits = pieces ↔ ∀ piece ∈ pieces, '+' ∉ piece ∧ HasNoLeadingZero piece := by
  induction h with
  | nil => simp
  | cons hpiece _ ih =>
    rw [List.map_cons, List.cons.injEq, hpiece.1.digits_eq_iff, ih, List.forall_mem_cons]

/-! ### Characters -/

/-- The characters that a numeral has. -/
def isNumeralChar (c : Char) : Bool := c == '+' || c == '-' || c.isDigit

theorem isNumeralChar_of_isDigit {c : Char} (h : c.isDigit) : isNumeralChar c := by
  simp [isNumeralChar, h]

theorem Unsigned.isNumeralChar (h : Unsigned cs n) : ∀ c ∈ cs, isNumeralChar c := by
  cases h with
  | plain h => exact fun c hc => isNumeralChar_of_isDigit (h.isDigit c hc)
  | plus h =>
    exact List.forall_mem_cons.2 ⟨rfl, fun c hc => isNumeralChar_of_isDigit (h.isDigit c hc)⟩

theorem Signed.isNumeralChar (h : Signed cs z) : ∀ c ∈ cs, isNumeralChar c := by
  cases h with
  | unsigned h => exact h.isNumeralChar
  | minus h =>
    exact List.forall_mem_cons.2 ⟨rfl, fun c hc => isNumeralChar_of_isDigit (h.isDigit c hc)⟩

theorem isBlank_of_isNumeralChar {c : Char} (h : isNumeralChar c) : isBlank c = false := by
  have hdigits : ∀ d : Fin 10, isBlank d.val.digitChar = false := by decide
  simp only [Text.isNumeralChar, Bool.or_eq_true, beq_iff_eq] at h
  obtain (rfl | rfl) | h := h
  · rfl
  · rfl
  · obtain ⟨d, hd, rfl⟩ := exists_digitChar h
    exact hdigits ⟨d, hd⟩

end TraceTree.Text
