import Mathlib.Order.Bounds.Defs
import TraceTree.Bytecode
import TraceTree.Proofs.Instructions
import TraceTree.Proofs.SortedMap

/-!
Lookups by program counter. Main statements: the location of an instruction is the entry of the same
number in the source map, and every other counter has its error (`Bytecode.locate_numbered`); the
function at a counter starts at the greatest entry point that is not after it and has, of several
there, the greatest name, so it is a user function exactly when that one has an id
(`Bytecode.functionAt?_last`).
-/
namespace TraceTree

namespace Bytecode

open Instructions (IsBoundary)

variable {b : Bytecode} {pc : Nat} {entries : List SourceMap.Entry}

/-! ### Locations -/

theorem instructions_eq (b : Bytecode) : b.instructions.value = .ofCode b.object :=
  b.instructions.value_eq

theorem entries_eq (hmap : SourceMap.ofText? b.sourceMap = .ok entries) :
    b.entries.value = .ok entries.toArray := by
  rw [b.entries.value_eq, SourceMap.table, hmap]
  rfl

theorem locate_of_not_isBoundary (h : ¬ IsBoundary b.object pc) :
    b.locate pc = .error (.invalidPc pc) := by
  rw [locate, instructions_eq, Instructions.find?_eq_none_iff.2 h]

theorem locate_of_entry (hmap : SourceMap.ofText? b.sourceMap = .ok entries)
    (h : IsBoundary b.object pc) {e : SourceMap.Entry}
    (he : entries[Nat.count (IsBoundary b.object) pc]? = some e) :
    b.locate pc = .ok e.location := by
  rw [locate, instructions_eq, Instructions.find?_eq_some_iff.2 ⟨h, rfl⟩, entries_eq hmap]
  simp [he]

theorem locate_of_length_le (hmap : SourceMap.ofText? b.sourceMap = .ok entries)
    (h : IsBoundary b.object pc) (hle : entries.length ≤ Nat.count (IsBoundary b.object) pc) :
    b.locate pc =
      .error (.instructionOutOfRange (Nat.count (IsBoundary b.object) pc) entries.length) := by
  rw [locate, instructions_eq, Instructions.find?_eq_some_iff.2 ⟨h, rfl⟩, entries_eq hmap]
  simp [hle]

/-- Exactly the instruction boundaries have a number, which is the count of the boundaries below;
the numbers rise with the counter, leave none out, and data and what is past the end have none. The
location of an instruction is the entry of its number; a counter between boundaries is invalid, and
an instruction after the last entry is out of range. -/
theorem locate_numbered (b : Bytecode) :
    (∀ pc, b.instructions.value.find? pc =
      if IsBoundary b.object pc then some (Nat.count (IsBoundary b.object) pc) else none) ∧
    (∀ pc pc' k k', b.instructions.value.find? pc = some k →
      b.instructions.value.find? pc' = some k' → (pc < pc' ↔ k < k')) ∧
    (∀ k, k < b.instructions.value.count ↔ ∃ pc, b.instructions.value.find? pc = some k) ∧
    (∀ pc, b.object.length ≤ pc → b.instructions.value.find? pc = none) ∧
    (∀ pc (op : Opcode) n pc', IsBoundary b.object pc → b.object[pc]? = some op → op.Pushes n →
      pc < pc' → pc' ≤ pc + n → b.instructions.value.find? pc' = none) ∧
    ∀ entries, SourceMap.ofText? b.sourceMap = .ok entries → ∀ pc,
      (∀ l, b.locate pc = .ok l ↔ IsBoundary b.object pc ∧
        ∃ e, entries[Nat.count (IsBoundary b.object) pc]? = some e ∧
          l = { file := e.index, start := e.offset, length := e.length, jump := e.jump }) ∧
      (∀ error, b.locate pc = .error error ↔
        ¬ IsBoundary b.object pc ∧ error = .invalidPc pc ∨
        IsBoundary b.object pc ∧ entries.length ≤ Nat.count (IsBoundary b.object) pc ∧
          error = .instructionOutOfRange (Nat.count (IsBoundary b.object) pc) entries.length) := by
  rw [instructions_eq]
  refine ⟨Instructions.find?_ofCode _, ?_, fun k => Instructions.lt_count_iff, ?_, ?_, ?_⟩
  · intro pc pc' k k' h h'
    obtain ⟨hpc, rfl⟩ := Instructions.find?_eq_some_iff.1 h
    obtain ⟨hpc', rfl⟩ := Instructions.find?_eq_some_iff.1 h'
    exact ⟨Nat.count_strict_mono hpc, Nat.lt_of_count_lt_count⟩
  · exact fun pc hle => Instructions.find?_eq_none_iff.2 fun hpc => by
      have := hpc.1
      omega
  · exact fun pc op n pc' hpc hop hpush hlt hle => Instructions.find?_eq_none_iff.2
      (Instructions.not_isBoundary_of_pushes hpc hop hpush hlt hle)
  · intro entries hmap pc
    by_cases hpc : IsBoundary b.object pc
    · cases he : entries[Nat.count (IsBoundary b.object) pc]? with
      | none =>
        have hle := List.getElem?_eq_none_iff.1 he
        rw [locate_of_length_le hmap hpc hle]
        simp [hpc, hle, eq_comm]
      | some e =>
        have hlt := (List.getElem?_eq_some_iff.1 he).1
        rw [locate_of_entry hmap hpc he]
        simp [hpc, hlt, eq_comm, SourceMap.Entry.location]
    · rw [locate_of_not_isBoundary hpc]
      simp [hpc, eq_comm]

/-- An instruction with one byte of data, one without, and one whose data is cut off. -/
def cutShort : Bytecode :=
  { object := [0x60, 0x80, 0x5b, 0x61, 0x01], sourceMap := "0:10:0:-;12:4" }

theorem locate_numbered_cutShort :
    SourceMap.ofText? cutShort.sourceMap =
        .ok [⟨0, 10, some 0, .other, 0⟩, ⟨12, 4, some 0, .other, 0⟩] ∧
      cutShort.locate 1 = .error (.invalidPc 1) ∧
      cutShort.locate 2 = .ok { file := some 0, start := 12, length := 4, jump := .other } ∧
      cutShort.locate 3 = .error (.instructionOutOfRange 2 2) ∧
      cutShort.instructions.value.find? 4 = none := by
  have hmap : SourceMap.ofText? cutShort.sourceMap =
      .ok [⟨0, 10, some 0, .other, 0⟩, ⟨12, 4, some 0, .other, 0⟩] := by decide +kernel
  obtain ⟨-, -, -, -, hdata, hlocate⟩ := locate_numbered cutShort
  refine ⟨hmap, ?_, ?_, ?_, ?_⟩
  · exact ((hlocate _ hmap 1).2 _).2 (.inl ⟨by decide, rfl⟩)
  · exact ((hlocate _ hmap 2).1 _).2 ⟨by decide, _, rfl, rfl⟩
  · exact ((hlocate _ hmap 3).2 _).2 (.inr ⟨by decide, by decide, rfl⟩)
  · exact hdata 3 0x61 2 4 (by decide) rfl ⟨by decide, by decide, rfl⟩ (by decide) (by decide)

end Bytecode

/-! ### Entry points -/

namespace FunctionEntry

variable {functions : SortedMap String FunctionDebug} {e e' : FunctionEntry}

/-- The entry is told of a function that has an entry point. -/
def ComesFrom (functions : SortedMap String FunctionDebug) (e : FunctionEntry) : Prop :=
  ∃ d, functions.find? e.name = some d ∧ d.entryPoint = some e.entryPoint ∧ d.id = e.id

theorem ComesFrom.eq_of_name (h : e.ComesFrom functions) (h' : e'.ComesFrom functions)
    (hname : e.name = e'.name) : e = e' := by
  obtain ⟨d, hd, hentry, hid⟩ := h
  obtain ⟨d', hd', hentry', hid'⟩ := h'
  rw [hname, hd'] at hd
  cases hd
  rw [hentry] at hentry'
  cases e
  cases e'
  simp_all

/-- By entry point, and by name where several functions have one entry point. -/
def Before (e e' : FunctionEntry) : Prop :=
  e.entryPoint < e'.entryPoint ∨ e.entryPoint = e'.entryPoint ∧ compare e.name e'.name = .lt

/-- Sorting leaves elements in their order when they may stand in any. -/
theorem filter_mergeSort {α : Type} {le : α → α → Bool}
    (htrans : ∀ a b c, le a b → le b c → le a c) (htotal : ∀ a b, le a b || le b a)
    {p : α → Bool} (hp : ∀ a b, p a → p b → le a b) (l : List α) :
    (l.mergeSort le).filter p = l.filter p := by
  have hsorted : (l.filter p).Pairwise fun a b => le a b :=
    List.pairwise_of_forall_mem_list fun a ha b hb =>
      hp a b (List.mem_filter.1 ha).2 (List.mem_filter.1 hb).2
  have hsub := (List.sublist_mergeSort htrans htotal hsorted List.filter_sublist).filter p
  rw [List.filter_filter] at hsub
  simp only [Bool.and_self] at hsub
  exact (hsub.eq_of_length ((List.mergeSort_perm l le).filter p).length_eq.symm).symm

/-- What is sorted into a table: the entries, in the order of the names. -/
theorem exists_rows (functions : SortedMap String FunctionDebug) :
    ∃ rows : List FunctionEntry,
      table functions = rows.mergeSort (fun a b => a.entryPoint ≤ b.entryPoint) ∧
      (rows.Pairwise fun a b => compare a.name b.name = .lt) ∧
      ∀ e, e ∈ rows ↔ e.ComesFrom functions := by
  refine ⟨_, rfl, ?_, fun e => ?_⟩
  · refine List.Pairwise.filterMap _ (fun m m' hlt e he e' he' => ?_) functions.ascending
    obtain ⟨_, -, rfl⟩ := Option.map_eq_some_iff.1 he
    obtain ⟨_, -, rfl⟩ := Option.map_eq_some_iff.1 he'
    exact hlt
  · rw [List.mem_filterMap, ComesFrom]
    constructor
    · rintro ⟨m, hm, he⟩
      obtain ⟨entryPoint, hentry, rfl⟩ := Option.map_eq_some_iff.1 he
      exact ⟨m.2, SortedMap.find?_eq_some_iff.2 hm, hentry, rfl⟩
    · rintro ⟨d, hd, hentry, hid⟩
      refine ⟨_, SortedMap.find?_eq_some_iff.1 hd, ?_⟩
      simp [hentry, hid]

theorem mem_table : e ∈ table functions ↔ e.ComesFrom functions := by
  obtain ⟨rows, htable, -, hmem⟩ := exists_rows functions
  rw [htable, (List.mergeSort_perm _ _).mem_iff, hmem]

/-- Sorting by entry point alone keeps the order of the names among equal ones. -/
theorem pairwise_table (functions : SortedMap String FunctionDebug) :
    (table functions).Pairwise Before := by
  obtain ⟨rows, htable, hnames, -⟩ := exists_rows functions
  have htrans : ∀ a b c : FunctionEntry, decide (a.entryPoint ≤ b.entryPoint) →
      decide (b.entryPoint ≤ c.entryPoint) → decide (a.entryPoint ≤ c.entryPoint) := by
    simp only [decide_eq_true_eq]
    exact fun a b c => Nat.le_trans
  have htotal : ∀ a b : FunctionEntry,
      decide (a.entryPoint ≤ b.entryPoint) || decide (b.entryPoint ≤ a.entryPoint) := by
    simp only [Bool.or_eq_true, decide_eq_true_eq]
    exact fun a b => Nat.le_total _ _
  rw [htable, List.pairwise_iff_forall_sublist]
  intro a b hab
  have hle : a.entryPoint ≤ b.entryPoint := by
    simpa using List.pairwise_iff_forall_sublist.1 (List.pairwise_mergeSort htrans htotal rows) hab
  obtain hlt | heq := Nat.lt_or_eq_of_le hle
  · exact .inl hlt
  · have hsub := hab.filter fun e => e.entryPoint == b.entryPoint
    rw [filter_mergeSort htrans htotal (by simp; omega)] at hsub
    simp only [heq, beq_self_eq_true, List.filter_cons_of_pos, List.filter_nil] at hsub
    exact .inr ⟨heq, List.pairwise_iff_forall_sublist.1 hnames (hsub.trans List.filter_sublist)⟩

theorem Before.asymm (h : e.Before e') : ¬ e'.Before e := by
  rintro (hlt | ⟨heq, hname⟩)
  · obtain hlt' | ⟨heq, -⟩ := h <;> omega
  · obtain hlt | ⟨-, hname'⟩ := h
    · omega
    · exact absurd (Std.TransCmp.lt_trans hname hname') (by simp)

theorem getLast?_eq_some_iff {l : List FunctionEntry} (h : l.Pairwise Before) :
    l.getLast? = some e ↔ e ∈ l ∧ ∀ e' ∈ l, e' = e ∨ e'.Before e := by
  have hlast : ∀ last, l.getLast? = some last → ∀ e' ∈ l, e' = last ∨ e'.Before last := by
    intro last hlast e' he'
    obtain ⟨init, rfl⟩ := List.getLast?_eq_some_iff.1 hlast
    obtain he' | he' := List.mem_append.1 he'
    · exact .inr ((List.pairwise_append.1 h).2.2 e' he' last (by simp))
    · exact .inl (List.mem_singleton.1 he')
  constructor
  · exact fun he => ⟨List.mem_of_getLast? he, hlast e he⟩
  · rintro ⟨he, hmax⟩
    have hsome := List.getLast?_eq_some_getLast (List.ne_nil_of_mem he)
    obtain heq | hbefore := hlast _ hsome e he
    · rw [hsome, ← heq]
    · obtain heq | hafter := hmax _ (List.getLast_mem (List.ne_nil_of_mem he))
      · rw [hsome, heq]
      · exact absurd hafter hbefore.asymm

end FunctionEntry

/-! ### Functions -/

namespace Bytecode

variable {b : Bytecode} {pc start : Nat} {f : FunctionEntry}

/-- The entry points that are not after `pc`. -/
def entryPointsTo (b : Bytecode) (pc : Nat) : Set Nat :=
  {start | start ≤ pc ∧ ∃ f : FunctionEntry, f.ComesFrom b.functions ∧ f.entryPoint = start}

/-- Of the functions that start there, `f` has the greatest name. -/
def IsLastAt (b : Bytecode) (start : Nat) (f : FunctionEntry) : Prop :=
  f.ComesFrom b.functions ∧ f.entryPoint = start ∧
    ∀ g : FunctionEntry, g.ComesFrom b.functions → g.entryPoint = start →
      (compare g.name f.name).isLE

theorem functionAt?_eq (b : Bytecode) (pc : Nat) : b.functionAt? pc =
    ((FunctionEntry.table b.functions).filter fun e => e.entryPoint ≤ pc).getLast? := by
  rw [functionAt?, b.functionEntries.value_eq, SortedMap.takeWhile_eq_filter]
  refine (FunctionEntry.pairwise_table _).imp fun {e e'} h hle => ?_
  simp only [decide_eq_true_eq] at hle ⊢
  obtain hlt | ⟨heq, -⟩ := h <;> omega

theorem functionAt?_eq_none_iff : b.functionAt? pc = none ↔ b.entryPointsTo pc = ∅ := by
  rw [functionAt?_eq, List.getLast?_eq_none_iff, List.filter_eq_nil_iff,
    Set.eq_empty_iff_forall_notMem]
  simp only [FunctionEntry.mem_table, decide_eq_true_eq]
  constructor
  · rintro h _ ⟨hle, f, hf, rfl⟩
    exact h f hf hle
  · exact fun h f hf hle => h _ ⟨hle, f, hf, rfl⟩

theorem functionAt?_eq_some_iff (h : IsGreatest (b.entryPointsTo pc) start) :
    b.functionAt? pc = some f ↔ b.IsLastAt start f := by
  rw [functionAt?_eq, FunctionEntry.getLast?_eq_some_iff
    ((FunctionEntry.pairwise_table _).sublist List.filter_sublist)]
  simp only [List.mem_filter, FunctionEntry.mem_table, decide_eq_true_eq]
  obtain ⟨⟨hstart, g, hg, rfl⟩, hgreatest⟩ := h
  constructor
  · rintro ⟨⟨hf, hle⟩, hmax⟩
    have hfg : f.entryPoint = g.entryPoint := by
      refine Nat.le_antisymm (hgreatest ⟨hle, f, hf, rfl⟩) ?_
      obtain rfl | hlt | ⟨heq, -⟩ := hmax g ⟨hg, hstart⟩ <;> omega
    refine ⟨hf, hfg, fun e he heg => ?_⟩
    obtain rfl | hlt | ⟨-, hname⟩ := hmax e ⟨he, by omega⟩
    · simp
    · omega
    · simp [hname]
  · rintro ⟨hf, hfg, hlast⟩
    refine ⟨⟨hf, by omega⟩, fun e ⟨he, hle⟩ => ?_⟩
    obtain hlt | heq := Nat.lt_or_eq_of_le (hgreatest ⟨hle, e, he, rfl⟩)
    · exact .inr (.inl (by omega))
    · obtain hname | hname := Ordering.isLE_iff_eq_lt_or_eq_eq.1 (hlast e he heq)
      · exact .inr (.inr ⟨by omega, hname⟩)
      · exact .inl (he.eq_of_name hf (Std.LawfulEqCmp.eq_of_compare hname))

/-- There is a function at a counter unless all start after it. It starts at the greatest entry
point up to there, and of several that start there the one with the greatest name is taken: a user
function is found when that one has an id. So where some user function starts, one is found exactly
when no function without an id has the greatest name there. -/
theorem functionAt?_last (b : Bytecode) (pc : Nat) :
    (b.functionAt? pc = none ↔ b.entryPointsTo pc = ∅) ∧
    ∀ start, IsGreatest (b.entryPointsTo pc) start →
      (∃ f, b.functionAt? pc = some f ∧ b.IsLastAt start f) ∧
      (∀ f, b.userFunctionAt? pc = some f ↔ b.IsLastAt start f ∧ f.id.isSome) ∧
      (((b.userFunctionAt? pc).isSome ↔
          ∃ f : FunctionEntry, f.ComesFrom b.functions ∧ f.entryPoint = start ∧ f.id.isSome) ↔
        ¬ ∃ f g : FunctionEntry, f.ComesFrom b.functions ∧ f.entryPoint = start ∧ f.id.isSome ∧
          b.IsLastAt start g ∧ g.id = none) := by
  refine ⟨functionAt?_eq_none_iff, fun start hstart => ?_⟩
  obtain ⟨last, hlast⟩ : ∃ f, b.functionAt? pc = some f := by
    rw [← Option.isSome_iff_exists, Option.isSome_iff_ne_none, Ne, functionAt?_eq_none_iff]
    exact Set.nonempty_iff_ne_empty.1 ⟨start, hstart.1⟩
  have hisLast := (functionAt?_eq_some_iff hstart).1 hlast
  have hunique : ∀ f, b.IsLastAt start f → f = last := fun f hf =>
    Option.some.inj (((functionAt?_eq_some_iff hstart).2 hf).symm.trans hlast)
  have huser : ∀ f, b.userFunctionAt? pc = some f ↔ b.IsLastAt start f ∧ f.id.isSome := by
    intro f
    rw [userFunctionAt?, Option.filter_eq_some_iff, functionAt?_eq_some_iff hstart]
  have hsome : (b.userFunctionAt? pc).isSome ↔ last.id.isSome := by
    rw [userFunctionAt?, hlast]
    cases hid : last.id <;> simp [hid]
  refine ⟨⟨last, hlast, hisLast⟩, huser, ?_⟩
  rw [hsome]
  constructor
  · rintro h ⟨f, g, hf, hfstart, hid, hg, hnone⟩
    rw [hunique g hg] at hnone
    have := h.2 ⟨f, hf, hfstart, hid⟩
    simp [hnone] at this
  · intro h
    refine ⟨fun hid => ⟨last, hisLast.1, hisLast.2.1, hid⟩, fun ⟨f, hf, hfstart, hid⟩ => ?_⟩
    rw [Option.isSome_iff_ne_none]
    exact fun hnone => h ⟨f, last, hf, hfstart, hid, hisLast, hnone⟩

/-- A user function and a compiler's own one that start at the same counter. -/
def sharedStart : Bytecode :=
  { functions := (SortedMap.empty.insert "@f_10" ⟨some 12, some 10, none, none⟩).insert "abi_decode"
      ⟨some 12, none, none, none⟩ }

theorem functionAt?_last_sharedStart :
    IsGreatest (sharedStart.entryPointsTo 14) 12 ∧
      FunctionEntry.ComesFrom sharedStart.functions ⟨12, some 10, "@f_10"⟩ ∧
      sharedStart.functionAt? 14 = some ⟨12, none, "abi_decode"⟩ ∧
      sharedStart.userFunctionAt? 14 = none := by
  have hfind : ∀ name, sharedStart.functions.find? name =
      if name = "abi_decode" then some ⟨some 12, none, none, none⟩
      else if name = "@f_10" then some ⟨some 12, some 10, none, none⟩ else none := fun name => by
    simp only [sharedStart, SortedMap.find?_insert, SortedMap.find?_empty]
  have huser : FunctionEntry.ComesFrom sharedStart.functions ⟨12, some 10, "@f_10"⟩ :=
    ⟨_, hfind _, rfl, rfl⟩
  have hdecode : FunctionEntry.ComesFrom sharedStart.functions ⟨12, none, "abi_decode"⟩ :=
    ⟨_, hfind _, rfl, rfl⟩
  have honly : ∀ f : FunctionEntry, f.ComesFrom sharedStart.functions →
      f = ⟨12, none, "abi_decode"⟩ ∨ f = ⟨12, some 10, "@f_10"⟩ := by
    rintro ⟨start, id, name⟩ ⟨d, hd, hstart, hid⟩
    rw [hfind] at hd
    split_ifs at hd <;> cases hd <;> simp_all
  have hstart : IsGreatest (sharedStart.entryPointsTo 14) 12 := by
    refine ⟨⟨by decide, _, huser, rfl⟩, ?_⟩
    rintro _ ⟨-, f, hf, rfl⟩
    obtain rfl | rfl := honly f hf <;> decide
  have hisLast : ∀ f, sharedStart.IsLastAt 12 f → f = ⟨12, none, "abi_decode"⟩ := fun f hf => by
    obtain rfl | rfl := honly f hf.1
    · rfl
    · exact absurd (hf.2.2 _ hdecode rfl) (by decide)
  obtain ⟨⟨last, hlast, hat⟩, hfound, -⟩ := (functionAt?_last sharedStart 14).2 12 hstart
  rw [hisLast last hat] at hlast
  refine ⟨hstart, huser, hlast, Option.eq_none_iff_forall_ne_some.2 fun f hf => ?_⟩
  obtain ⟨hat, hid⟩ := (hfound f).1 hf
  rw [hisLast f hat] at hid
  contradiction

end Bytecode

end TraceTree
