import Mathlib.Data.Nat.Nth
import Mathlib.Logic.Relation
import TraceTree.Instructions

/-!
Where instructions start. From the first byte of a code on each instruction leads to the next one,
over the data that it pushes; the offsets that are reached so inside the code are the instruction
boundaries. Main statement: an offset has a number exactly when it is a boundary, and the number is
the count of the boundaries below (`Instructions.find?_eq_some_iff`).
-/
namespace TraceTree

/-! ### Data in the code -/

namespace Opcode

variable {op : Opcode} {n : Nat}

/-- The instruction pushes the `n` bytes that follow it. -/
def Pushes (op : Opcode) (n : Nat) : Prop := 1 ≤ n ∧ n ≤ 32 ∧ op.toNat = 0x5f + n

theorem immediateSize_of_pushes (h : op.Pushes n) : op.immediateSize = n := by
  obtain ⟨hpos, hle, hop⟩ := h
  rw [immediateSize]
  split <;> omega

theorem pushes_immediateSize (h : op.immediateSize ≠ 0) : op.Pushes op.immediateSize := by
  rw [immediateSize] at h ⊢
  split at h
  · rename_i hop
    rw [if_pos hop]
    exact ⟨by omega, by omega, by omega⟩
  · contradiction

end Opcode

namespace Instructions

variable {code : List UInt8} {op : Opcode} {start pc pc' : Nat}

/-! ### From one instruction to the next -/

/-- After the instruction at `pc` and the data that it pushes comes `pc'`. -/
inductive Follows (code : List UInt8) (pc : Nat) : Nat → Prop
  | push {op : Opcode} {n : Nat} : code[pc]? = some op → op.Pushes n → Follows code pc (pc + 1 + n)
  | plain {op : Opcode} : code[pc]? = some op → (∀ n, ¬ op.Pushes n) → Follows code pc (pc + 1)

theorem follows_iff :
    Follows code pc pc' ↔ ∃ op : Opcode, code[pc]? = some op ∧ pc' = pc + 1 + op.immediateSize := by
  constructor
  · rintro (⟨hop, hpush⟩ | ⟨hop, hplain⟩)
    · exact ⟨_, hop, by rw [Opcode.immediateSize_of_pushes hpush]⟩
    · rename_i op
      refine ⟨op, hop, ?_⟩
      by_cases hzero : op.immediateSize = 0
      · rw [hzero]
      · exact (hplain _ (Opcode.pushes_immediateSize hzero)).elim
  · rintro ⟨op, hop, rfl⟩
    by_cases hzero : op.immediateSize = 0
    · rw [hzero]
      exact .plain hop fun n hpush => by
        have := Opcode.immediateSize_of_pushes hpush
        have := hpush.1
        omega
    · exact .push hop (Opcode.pushes_immediateSize hzero)

theorem Follows.lt (h : Follows code pc pc') : pc < pc' := by
  obtain ⟨op, -, rfl⟩ := follows_iff.1 h
  omega

theorem rightUnique_follows (code : List UInt8) : Relator.RightUnique (Follows code) := by
  intro pc a b ha hb
  obtain ⟨op, hop, rfl⟩ := follows_iff.1 ha
  obtain ⟨op', hop', rfl⟩ := follows_iff.1 hb
  rw [hop] at hop'
  cases hop'
  rfl

theorem le_of_reaches (h : Relation.ReflTransGen (Follows code) pc pc') : pc ≤ pc' := by
  induction h with
  | refl => exact Nat.le_refl _
  | tail _ hnext ih => exact ih.trans hnext.lt.le

/-- In front of a code with one more byte all is one further on. -/
theorem follows_cons_succ {b : UInt8} : Follows (b :: code) (pc + 1) (pc' + 1) ↔
    Follows code pc pc' := by
  simp only [follows_iff, List.getElem?_cons_succ]
  refine exists_congr fun op => and_congr_right fun _ => ?_
  omega

theorem reaches_cons_succ {b : UInt8} :
    Relation.ReflTransGen (Follows (b :: code)) (pc + 1) (pc' + 1) ↔
      Relation.ReflTransGen (Follows code) pc pc' := by
  constructor
  · intro h
    generalize hend : pc' + 1 = stop at h
    induction h generalizing pc' with
    | refl =>
      obtain rfl : pc' = pc := by omega
      exact .refl
    | @tail middle _ hreach hnext ih =>
      -- every offset after the first is a successor
      obtain ⟨m, rfl⟩ : ∃ m, middle = m + 1 :=
        ⟨middle - 1, by have := le_of_reaches hreach; omega⟩
      subst hend
      exact (ih rfl).tail (follows_cons_succ.1 hnext)
  · exact Relation.ReflTransGen.lift (· + 1) (fun _ _ => follows_cons_succ.2) _ _

/-! ### Boundaries -/

/-- From `start` on, an instruction of the code starts at `pc`. -/
def IsBoundaryFrom (start : Nat) (code : List UInt8) (pc : Nat) : Prop :=
  pc < code.length ∧ Relation.ReflTransGen (Follows code) start pc

/-- An instruction of the code starts at `pc`. -/
def IsBoundary (code : List UInt8) (pc : Nat) : Prop := IsBoundaryFrom 0 code pc

theorem not_isBoundaryFrom_nil : ¬ IsBoundaryFrom start [] pc := fun h => absurd h.1 (by simp)

theorem isBoundaryFrom_cons_succ {b : UInt8} :
    IsBoundaryFrom (start + 1) (b :: code) (pc + 1) ↔ IsBoundaryFrom start code pc := by
  rw [IsBoundaryFrom, IsBoundaryFrom, reaches_cons_succ, List.length_cons, Nat.add_lt_add_iff_right]

theorem not_isBoundaryFrom_succ_zero : ¬ IsBoundaryFrom (start + 1) code 0 := fun h =>
  absurd (le_of_reaches h.2) (by omega)

theorem isBoundaryFrom_zero_zero {b : UInt8} : IsBoundaryFrom 0 (b :: code) 0 :=
  ⟨by simp, .refl⟩

/-- The second instruction starts after the data of the first. -/
theorem isBoundaryFrom_zero_succ {b : UInt8} : IsBoundaryFrom 0 (b :: code) (pc + 1) ↔
    IsBoundaryFrom (Opcode.immediateSize b) code pc := by
  refine Iff.trans (and_congr_right fun _ => ?_) (isBoundaryFrom_cons_succ (b := b))
  have hfirst : Follows (b :: code) 0 (Opcode.immediateSize b + 1) :=
    follows_iff.2 ⟨b, rfl, by omega⟩
  constructor
  · intro h
    obtain hzero | ⟨next, hnext, hreach⟩ := h.cases_head
    · omega
    · rwa [rightUnique_follows _ hnext hfirst] at hreach
  · exact .head hfirst

/-! ### Marks -/

theorem isSome_marksFrom (start next : Nat) (code : List UInt8) (pc : Nat) :
    (marksFrom start next code)[pc]?.join.isSome ↔ IsBoundaryFrom start code pc := by
  induction code generalizing start next pc with
  | nil => simp [marksFrom, not_isBoundaryFrom_nil]
  | cons b bs ih =>
    cases start with
    | zero =>
      cases pc with
      | zero => simp [marksFrom, isBoundaryFrom_zero_zero]
      | succ pc => simpa [marksFrom, isBoundaryFrom_zero_succ] using ih _ _ _
    | succ start =>
      cases pc with
      | zero => simp [marksFrom, not_isBoundaryFrom_succ_zero]
      | succ pc => simpa [marksFrom, isBoundaryFrom_cons_succ] using ih _ _ _

instance : DecidablePred (IsBoundaryFrom start code) := fun pc =>
  decidable_of_iff _ (isSome_marksFrom start 0 code pc)

instance : DecidablePred (IsBoundary code) := fun pc =>
  inferInstanceAs (Decidable (IsBoundaryFrom 0 code pc))

/-- A byte in front counts when an instruction starts there. -/
theorem count_cons_succ (b : UInt8) (start pc : Nat) (code : List UInt8) :
    Nat.count (IsBoundaryFrom (start + 1) (b :: code)) (pc + 1) =
      Nat.count (IsBoundaryFrom start code) pc := by
  rw [Nat.count_succ', if_neg not_isBoundaryFrom_succ_zero, Nat.add_zero]
  simp only [isBoundaryFrom_cons_succ]

theorem count_zero_succ (b : UInt8) (pc : Nat) (code : List UInt8) :
    Nat.count (IsBoundaryFrom 0 (b :: code)) (pc + 1) =
      Nat.count (IsBoundaryFrom (Opcode.immediateSize b) code) pc + 1 := by
  rw [Nat.count_succ', if_pos isBoundaryFrom_zero_zero]
  simp only [isBoundaryFrom_zero_succ]

theorem join_marksFrom (start next : Nat) (code : List UInt8) (pc : Nat) :
    (marksFrom start next code)[pc]?.join =
      if IsBoundaryFrom start code pc then
        some (next + Nat.count (IsBoundaryFrom start code) pc)
      else none := by
  induction code generalizing start next pc with
  | nil => simp [marksFrom, not_isBoundaryFrom_nil]
  | cons b bs ih =>
    cases start with
    | zero =>
      cases pc with
      | zero => simp [marksFrom, isBoundaryFrom_zero_zero]
      | succ pc =>
        rw [marksFrom, List.getElem?_cons_succ, ih]
        simp only [isBoundaryFrom_zero_succ, count_zero_succ]
        simp only [Nat.add_assoc, Nat.add_comm 1]
    | succ start =>
      cases pc with
      | zero => simp [marksFrom, not_isBoundaryFrom_succ_zero]
      | succ pc =>
        rw [marksFrom, List.getElem?_cons_succ, ih]
        simp only [isBoundaryFrom_cons_succ, count_cons_succ]

theorem countP_marksFrom (start next : Nat) (code : List UInt8) :
    (marksFrom start next code).countP Option.isSome =
      Nat.count (IsBoundaryFrom start code) code.length := by
  induction code generalizing start next with
  | nil => rfl
  | cons b bs ih =>
    cases start with
    | zero => rw [marksFrom, List.countP_cons_of_pos rfl, ih, List.length_cons, count_zero_succ]
    | succ start =>
      rw [marksFrom, List.countP_cons_of_neg (by simp), ih, List.length_cons, count_cons_succ]

/-! ### Numbers -/

/-- The number of a boundary is how many there are below. -/
theorem find?_ofCode (code : List UInt8) (pc : Nat) :
    (ofCode code).find? pc =
      if IsBoundary code pc then some (Nat.count (IsBoundary code) pc) else none := by
  rw [find?, ofCode, List.getElem?_toArray, join_marksFrom, Nat.zero_add]
  rfl

theorem find?_eq_some_iff {k : Nat} : (ofCode code).find? pc = some k ↔
    IsBoundary code pc ∧ Nat.count (IsBoundary code) pc = k := by
  rw [find?_ofCode]
  split_ifs with h <;> simp [h]

theorem find?_eq_none_iff : (ofCode code).find? pc = none ↔ ¬ IsBoundary code pc := by
  rw [find?_ofCode]
  split_ifs with h <;> simp [h]

theorem count_ofCode (code : List UInt8) :
    (ofCode code).count = Nat.count (IsBoundary code) code.length :=
  countP_marksFrom 0 0 code

/-- No number below the count is left out: the boundary with `k` of them below it has it. -/
theorem lt_count_iff {k : Nat} :
    k < (ofCode code).count ↔ ∃ pc, (ofCode code).find? pc = some k := by
  simp only [count_ofCode, find?_eq_some_iff]
  constructor
  · intro h
    exact ⟨Nat.nth (IsBoundary code) k,
      Nat.nth_mem k fun hfinite => h.trans_le (Nat.count_le_card hfinite _),
      Nat.count_nth fun hfinite => h.trans_le (Nat.count_le_card hfinite _)⟩
  · rintro ⟨pc, hpc, rfl⟩
    exact Nat.count_strict_mono hpc hpc.1

/-- Inside the data of an instruction none starts. -/
theorem not_isBoundary_of_pushes {n : Nat} (hpc : IsBoundary code pc) (hop : code[pc]? = some op)
    (hpush : op.Pushes n) (hlt : pc < pc') (hle : pc' ≤ pc + n) : ¬ IsBoundary code pc' := by
  intro hpc'
  obtain hreach | hreach :=
    Relation.ReflTransGen.total_of_right_unique (rightUnique_follows code) hpc.2 hpc'.2
  · obtain rfl | ⟨next, hnext, hrest⟩ := hreach.cases_head
    · omega
    · rw [rightUnique_follows code hnext (.push hop hpush)] at hrest
      have := le_of_reaches hrest
      omega
  · have := le_of_reaches hreach
    omega

end Instructions

end TraceTree
