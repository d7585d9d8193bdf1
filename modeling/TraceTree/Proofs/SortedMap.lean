import Mathlib.Data.List.Perm.Subperm
import TraceTree.SortedMap

/-!
Lookups in sorted maps: what a change does to them, and the entry that `floor?` finds. Main
statements: `floor?` gives the entry with the greatest key that is not above the given one, and
gives none only when there is no such key (`floor?_spec`, `exists_floor?`), whatever entries there
are above (`floor?_filter`), and a map comes from its entries in any order (`ofList_of_perm`).
-/
namespace TraceTree.SortedMap

variable {κ ν : Type} [Ord κ]

theorem findIn_map_adjust [Std.TransOrd κ] [Std.LawfulEqOrd κ] [DecidableEq κ] (k k' : κ)
    (f : ν → ν) (l : List (κ × ν)) :
    findIn k (l.map fun e => if compare k' e.1 = .eq then (e.1, f e.2) else e)
      = if k = k' then (findIn k l).map f else findIn k l := by
  induction l with
  | nil => simp [findIn]
  | cons e l ih =>
    rw [List.map_cons, findIn, ih]
    by_cases hk : compare k e.1 = .eq
    · have : k = e.1 := Std.LawfulEqCmp.eq_of_compare hk
      subst this
      by_cases hk' : compare k' e.1 = .eq
      · have : k' = e.1 := Std.LawfulEqCmp.eq_of_compare hk'
        simp [this, findIn]
      · have : e.1 ≠ k' := fun h => hk' (by simp [h])
        simp [hk', this, findIn]
    · by_cases hk' : compare k' e.1 = .eq
      · simp [hk, hk', findIn]
      · simp [hk, hk', findIn]

/-- Changing the value under a key changes the lookup of that key only. -/
theorem find?_adjust [Std.TransOrd κ] [Std.LawfulEqOrd κ] [DecidableEq κ] (m : SortedMap κ ν)
    (k k' : κ) (f : ν → ν) :
    (m.adjust k' f).find? k = if k = k' then (m.find? k).map f else m.find? k :=
  findIn_map_adjust k k' f m.entries

/-- A change of a value does not show in what it leaves alone. -/
theorem map_find?_adjust [Std.TransOrd κ] [Std.LawfulEqOrd κ] [DecidableEq κ] {μ : Type}
    (m : SortedMap κ ν) {f : ν → ν} {g : ν → μ} (hg : ∀ v, g (f v) = g v) (k k' : κ) :
    ((m.adjust k' f).find? k).map g = (m.find? k).map g := by
  rw [find?_adjust]
  split
  · rw [Option.map_map]
    exact congrArg (fun h => (m.find? k).map h) (funext hg)
  · rfl

theorem mem_values_iff [Std.TransOrd κ] [Std.LawfulEqOrd κ] {m : SortedMap κ ν} {v : ν} :
    v ∈ m.values ↔ ∃ k, m.find? k = some v := by
  simp only [values, List.mem_map, find?_eq_some_iff]
  constructor
  · rintro ⟨e, he, rfl⟩
    exact ⟨e.1, he⟩
  · rintro ⟨k, hk⟩
    exact ⟨(k, v), hk, rfl⟩

theorem mem_keys_iff [Std.TransOrd κ] [Std.LawfulEqOrd κ] {m : SortedMap κ ν} {k : κ} :
    k ∈ m.keys ↔ (m.find? k).isSome := by
  simp only [keys, List.mem_map, Option.isSome_iff_exists, find?_eq_some_iff]
  constructor
  · rintro ⟨e, he, rfl⟩
    exact ⟨e.2, he⟩
  · rintro ⟨v, hv⟩
    exact ⟨(k, v), hv, rfl⟩

/-- No more different keys can be found than there are entries. -/
theorem length_le_size [Std.TransOrd κ] [Std.LawfulEqOrd κ] {m : SortedMap κ ν} {l : List κ}
    (hl : l.Nodup) (hm : ∀ k ∈ l, (m.find? k).isSome) : l.length ≤ m.size := by
  have hsub : l ⊆ m.keys := fun k hk => mem_keys_iff.2 (hm k hk)
  have hle := (hl.subperm hsub).length_le
  rwa [keys, List.length_map] at hle

/-! ### Values that come in or change -/

theorem find?_upsert [Std.TransOrd κ] [Std.LawfulEqOrd κ] [DecidableEq κ] (m : SortedMap κ ν)
    (k k' : κ) (v : ν) (f : ν → ν) :
    (m.upsert k' v f).find? k = if k = k' then some (f ((m.find? k').getD v)) else m.find? k :=
  find?_insert m k k' _

/-! ### Entries that are kept -/

theorem find?_filter [Std.TransOrd κ] [Std.LawfulEqOrd κ] (m : SortedMap κ ν) (p : κ → ν → Bool)
    (k : κ) : (m.filter p).find? k = (m.find? k).filter (p k) := by
  refine Option.ext fun v => ?_
  rw [Option.filter_eq_some_iff, find?_eq_some_iff, find?_eq_some_iff]
  exact List.mem_filter

theorem filter_insert [Std.TransOrd κ] [Std.LawfulEqOrd κ] [DecidableEq κ] {p : κ → ν → Bool}
    {k : κ} {v : ν} (m : SortedMap κ ν) (hv : p k v) :
    (m.insert k v).filter p = (m.filter p).insert k v := by
  refine ext_find? fun k' => ?_
  rw [find?_filter, find?_insert, find?_insert, find?_filter]
  split_ifs with hk
  · rw [hk, Option.filter_some_pos hv]
  · rfl

/-- An entry that is not kept leaves the others as they were, when it replaces none that is. -/
theorem filter_insert_of_not [Std.TransOrd κ] [Std.LawfulEqOrd κ] [DecidableEq κ]
    {p : κ → ν → Bool} {k : κ} {v : ν} {m : SortedMap κ ν} (hv : ¬ p k v)
    (hold : ∀ v', m.find? k = some v' → ¬ p k v') : (m.insert k v).filter p = m.filter p := by
  refine ext_find? fun k' => ?_
  rw [find?_filter, find?_insert, find?_filter]
  split_ifs with hk
  · subst hk
    rw [Option.filter_some_neg (eq_false_of_ne_true hv), eq_comm, Option.filter_eq_none_iff]
    exact hold
  · rfl

/-! ### The greatest key not above a given one -/

/-- What holds up to some point of a list only is found by going up to that point. -/
theorem takeWhile_eq_filter {α : Type} {P : α → Bool} {l : List α}
    (h : l.Pairwise fun a b => P b → P a) : l.takeWhile P = l.filter P := by
  induction l with
  | nil => rfl
  | cons a l ih =>
    rw [List.pairwise_cons] at h
    by_cases ha : P a
    · rw [List.takeWhile_cons_of_pos ha, List.filter_cons_of_pos ha, ih h.2]
    · rw [List.takeWhile_cons_of_neg ha, List.filter_cons_of_neg ha, eq_comm,
        List.filter_eq_nil_iff]
      exact fun b hb hPb => ha (h.1 b hb hPb)

/-- In an ascending list nothing that comes after the first greater key is small enough. -/
theorem takeWhile_isLE [Std.TransOrd κ] {l : List (κ × ν)}
    (h : l.Pairwise fun a b => compare a.1 b.1 = .lt) (k : κ) :
    l.takeWhile (fun e => (compare e.1 k).isLE) = l.filter fun e => (compare e.1 k).isLE :=
  takeWhile_eq_filter <| h.imp fun hab hb =>
    Ordering.isLE_of_eq_lt (Std.TransCmp.lt_of_lt_of_isLE hab hb)

theorem mem_takeWhile_iff [Std.TransOrd κ] {l : List (κ × ν)}
    (h : l.Pairwise fun a b => compare a.1 b.1 = .lt) {k : κ} {e : κ × ν} :
    e ∈ l.takeWhile (fun e => (compare e.1 k).isLE) ↔ e ∈ l ∧ (compare e.1 k).isLE := by
  rw [takeWhile_isLE h, List.mem_filter]

theorem floor?_spec [Std.TransOrd κ] [Std.LawfulEqOrd κ] {m : SortedMap κ ν} {k : κ}
    {e : κ × ν} (h : m.floor? k = some e) :
    m.find? e.1 = some e.2 ∧ (compare e.1 k).isLE ∧
      ∀ k' v', m.find? k' = some v' → (compare k' k).isLE → (compare k' e.1).isLE := by
  obtain ⟨ys, hys⟩ := List.getLast?_eq_some_iff.1 h
  have hmem : e ∈ m.entries ∧ (compare e.1 k).isLE := by
    rw [← mem_takeWhile_iff m.ascending, hys]
    simp
  refine ⟨find?_eq_some_iff.2 hmem.1, hmem.2, ?_⟩
  intro k' v' hfind hle
  have hin := (mem_takeWhile_iff m.ascending).2 ⟨find?_eq_some_iff.1 hfind, hle⟩
  have hasc := m.ascending.sublist (List.takeWhile_sublist fun e => (compare e.1 k).isLE)
  rw [hys] at hin hasc
  rcases List.mem_append.1 hin with hin | hin
  · exact Ordering.isLE_of_eq_lt ((List.pairwise_append.1 hasc).2.2 _ hin e (by simp))
  · rw [← List.mem_singleton.1 hin]
    simp

theorem exists_floor? [Std.TransOrd κ] [Std.LawfulEqOrd κ] {m : SortedMap κ ν} {k k' : κ}
    {v : ν} (h : m.find? k' = some v) (hle : (compare k' k).isLE) : ∃ e, m.floor? k = some e := by
  have hmem := (mem_takeWhile_iff m.ascending).2 ⟨find?_eq_some_iff.1 h, hle⟩
  have hne := List.ne_nil_of_mem hmem
  exact ⟨_, List.getLast?_eq_some_getLast hne⟩

/-- Entries whose keys are above do not count. -/
theorem floor?_filter [Std.TransOrd κ] {m : SortedMap κ ν} {p : κ → ν → Bool} {k : κ}
    (h : ∀ k' v', (compare k' k).isLE → p k' v') : (m.filter p).floor? k = m.floor? k := by
  rw [floor?, floor?, takeWhile_isLE (m.filter p).ascending, takeWhile_isLE m.ascending, filter,
    List.filter_filter]
  congr 1
  refine List.filter_congr fun e _ => ?_
  by_cases hle : (compare e.1 k).isLE
  · rw [hle, h e.1 e.2 hle]
    rfl
  · rw [Bool.not_eq_true] at hle
    rw [hle]
    rfl

/-! ### Maps of lists -/

theorem find?_foldl_insert [Std.TransOrd κ] [Std.LawfulEqOrd κ] [DecidableEq κ] {l : List (κ × ν)}
    (hnodup : (l.map (·.1)).Nodup) (m : SortedMap κ ν) {k : κ} {v : ν} :
    (l.foldl (fun m e => m.insert e.1 e.2) m).find? k = some v ↔
      (k, v) ∈ l ∨ k ∉ l.map (·.1) ∧ m.find? k = some v := by
  induction l generalizing m with
  | nil => simp
  | cons e l ih =>
    rw [List.map_cons, List.nodup_cons] at hnodup
    rw [List.foldl_cons, ih hnodup.2, find?_insert]
    by_cases hk : k = e.1
    · subst hk
      simp [hnodup.1, Prod.ext_iff, eq_comm, or_comm]
    · simp [hk, Prod.ext_iff]

theorem isSome_find?_foldl_insert [Std.TransOrd κ] [Std.LawfulEqOrd κ] [DecidableEq κ]
    (l : List (κ × ν)) (m : SortedMap κ ν) (k : κ) :
    ((l.foldl (fun m e => m.insert e.1 e.2) m).find? k).isSome ↔
      k ∈ l.map (·.1) ∨ (m.find? k).isSome := by
  induction l generalizing m with
  | nil => simp
  | cons e l ih =>
    rw [List.foldl_cons, ih, find?_insert]
    by_cases hk : k = e.1 <;> simp [hk]

/-- The map of a list has the keys of the list, however often they stand there. -/
theorem isSome_find?_ofList [Std.TransOrd κ] [Std.LawfulEqOrd κ] [DecidableEq κ] {l : List (κ × ν)}
    {k : κ} : ((ofList l).find? k).isSome ↔ k ∈ l.map (·.1) := by
  rw [ofList, isSome_find?_foldl_insert]
  simp

/-- A map is what its entries make, in any order. -/
theorem ofList_of_perm [Std.TransOrd κ] [Std.LawfulEqOrd κ] [DecidableEq κ] {m : SortedMap κ ν}
    {l : List (κ × ν)} (h : l.Perm m.entries) : ofList l = m := by
  have hnodup : (l.map (·.1)).Nodup := by
    rw [(h.map _).nodup_iff, List.Nodup, List.pairwise_map]
    refine m.ascending.imp fun {a b} hlt heq => ?_
    rw [heq] at hlt
    simp at hlt
  refine ext_find? fun k => Option.ext fun v => ?_
  rw [ofList, find?_foldl_insert hnodup, find?_empty, find?_eq_some_iff, h.mem_iff]
  simp

end TraceTree.SortedMap
