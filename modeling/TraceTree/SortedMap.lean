/-!
Finite maps whose entries stand in strictly ascending key order. The order is part of the type, so
two maps with the same entries are the same map, and a range of keys is a stretch of the list.
Main statements: a lookup after `insert` sees the new entry and nothing else changed
(`find?_insert`), and maps with equal lookups are equal (`ext_find?`).
-/
namespace TraceTree

/-- A finite map, as the list of its entries in strictly ascending key order. -/
structure SortedMap (κ ν : Type) [Ord κ] where
  entries : List (κ × ν)
  ascending : entries.Pairwise fun a b => compare a.1 b.1 = .lt

namespace SortedMap

variable {κ ν : Type} [Ord κ]

theorem ext_entries {m m' : SortedMap κ ν} (h : m.entries = m'.entries) : m = m' := by
  cases m; cases m'; simp_all

instance [DecidableEq κ] [DecidableEq ν] : DecidableEq (SortedMap κ ν) := fun m m' =>
  if h : m.entries = m'.entries then isTrue (ext_entries h)
  else isFalse fun e => h (congrArg entries e)

/-- The map without entries. -/
def empty : SortedMap κ ν := ⟨[], .nil⟩

instance : EmptyCollection (SortedMap κ ν) := ⟨empty⟩
instance : Inhabited (SortedMap κ ν) := ⟨empty⟩

def isEmpty (m : SortedMap κ ν) : Bool := m.entries.isEmpty

def size (m : SortedMap κ ν) : Nat := m.entries.length

def keys (m : SortedMap κ ν) : List κ := m.entries.map (·.1)

def values (m : SortedMap κ ν) : List ν := m.entries.map (·.2)

/-! ### Lookup -/

/-- The value that a list of entries has first under `k`. -/
def findIn (k : κ) : List (κ × ν) → Option ν
  | [] => none
  | e :: rest => if compare k e.1 = .eq then some e.2 else findIn k rest

/-- The value under `k`. -/
def find? (m : SortedMap κ ν) (k : κ) : Option ν := findIn k m.entries

def contains (m : SortedMap κ ν) (k : κ) : Bool := (m.find? k).isSome

/-- The entry with the greatest key that is not above `k`. -/
def floor? (m : SortedMap κ ν) (k : κ) : Option (κ × ν) :=
  (m.entries.takeWhile fun e => (compare e.1 k).isLE).getLast?

/-- The entries whose key is not below `k`, in order. -/
def entriesFrom (m : SortedMap κ ν) (k : κ) : List (κ × ν) :=
  m.entries.dropWhile fun e => (compare e.1 k).isLT

/-! ### Change -/

/-- Puts an entry at its place in an ascending list, over the one with the same key. -/
def insertIn (k : κ) (v : ν) : List (κ × ν) → List (κ × ν)
  | [] => [(k, v)]
  | e :: rest =>
    match compare k e.1 with
    | .lt => (k, v) :: e :: rest
    | .eq => (k, v) :: rest
    | .gt => e :: insertIn k v rest

theorem mem_insertIn {k : κ} {v : ν} {l : List (κ × ν)} {e : κ × ν} :
    e ∈ insertIn k v l → e = (k, v) ∨ e ∈ l := by
  induction l with
  | nil => simp [insertIn]
  | cons a l ih =>
    rw [insertIn]
    split <;> grind

theorem insertIn_ascending [Std.TransOrd κ] [Std.LawfulEqOrd κ] {k : κ} {v : ν}
    {l : List (κ × ν)} (h : l.Pairwise fun a b => compare a.1 b.1 = .lt) :
    (insertIn k v l).Pairwise fun a b => compare a.1 b.1 = .lt := by
  induction l with
  | nil => simp [insertIn]
  | cons a l ih =>
    rw [List.pairwise_cons] at h
    rw [insertIn]
    split
    · rename_i hlt
      refine .cons (fun b hb => ?_) (.cons h.1 h.2)
      rcases List.mem_cons.1 hb with rfl | hb
      · exact hlt
      · exact Std.TransCmp.lt_trans hlt (h.1 b hb)
    · rename_i heq
      have hk : k = a.1 := Std.LawfulEqCmp.eq_of_compare heq
      exact .cons (fun b hb => hk ▸ h.1 b hb) h.2
    · rename_i hgt
      refine .cons (fun b hb => ?_) (ih h.2)
      rcases mem_insertIn hb with rfl | hb
      · exact Std.OrientedCmp.lt_of_gt hgt
      · exact h.1 b hb

/-- Puts `v` under `k`, over the value that was there. -/
def insert [Std.TransOrd κ] [Std.LawfulEqOrd κ] (m : SortedMap κ ν) (k : κ) (v : ν) :
    SortedMap κ ν :=
  ⟨insertIn k v m.entries, insertIn_ascending m.ascending⟩

/-- Changes the value under `k` by `f`, and nothing when there is none. -/
def adjust (m : SortedMap κ ν) (k : κ) (f : ν → ν) : SortedMap κ ν :=
  ⟨m.entries.map fun e => if compare k e.1 = .eq then (e.1, f e.2) else e, by
    refine List.pairwise_map.2 (m.ascending.imp fun {a b} h => ?_)
    split <;> split <;> exact h⟩

/-- Changes the value under `k` by `f`, starting from `v` when there is none. -/
def upsert [Std.TransOrd κ] [Std.LawfulEqOrd κ] (m : SortedMap κ ν) (k : κ) (v : ν)
    (f : ν → ν) : SortedMap κ ν :=
  m.insert k (f ((m.find? k).getD v))

/-- The entries that `p` keeps. -/
def filter (m : SortedMap κ ν) (p : κ → ν → Bool) : SortedMap κ ν :=
  ⟨m.entries.filter fun e => p e.1 e.2, m.ascending.filter _⟩

/-- The map of a list of entries; of two with one key the later stays. -/
def ofList [Std.TransOrd κ] [Std.LawfulEqOrd κ] (l : List (κ × ν)) : SortedMap κ ν :=
  l.foldl (fun m e => m.insert e.1 e.2) empty

/-! ### Laws -/

theorem findIn_insertIn_self [Std.ReflOrd κ] (k : κ) (v : ν) (l : List (κ × ν)) :
    findIn k (insertIn k v l) = some v := by
  induction l with
  | nil => simp [insertIn, findIn]
  | cons a l ih => rw [insertIn]; split <;> simp_all [findIn]

theorem findIn_insertIn_ne [Std.LawfulEqOrd κ] {k k' : κ} (v : ν) (h : k ≠ k')
    (l : List (κ × ν)) : findIn k (insertIn k' v l) = findIn k l := by
  induction l with
  | nil => simp [insertIn, findIn, h]
  | cons a l ih => rw [insertIn]; split <;> simp_all [findIn]

theorem find?_insert [Std.TransOrd κ] [Std.LawfulEqOrd κ] [DecidableEq κ] (m : SortedMap κ ν)
    (k k' : κ) (v : ν) : (m.insert k' v).find? k = if k = k' then some v else m.find? k := by
  by_cases h : k = k'
  · subst h; simp [find?, insert, findIn_insertIn_self]
  · simp [find?, insert, findIn_insertIn_ne v h, h]

@[simp] theorem find?_empty (k : κ) : (empty : SortedMap κ ν).find? k = none := rfl

theorem findIn_eq_some_iff [Std.TransOrd κ] [Std.LawfulEqOrd κ] {l : List (κ × ν)}
    (h : l.Pairwise fun a b => compare a.1 b.1 = .lt) {k : κ} {v : ν} :
    findIn k l = some v ↔ (k, v) ∈ l := by
  induction l with
  | nil => simp [findIn]
  | cons a l ih =>
    rw [List.pairwise_cons] at h
    simp only [findIn, List.mem_cons]
    split
    · rename_i hk
      have hk : k = a.1 := Std.LawfulEqCmp.eq_of_compare hk
      subst hk
      constructor
      · rintro ⟨⟩; exact .inl rfl
      · rintro (e | hm)
        · exact congrArg some (congrArg Prod.snd e).symm
        · have := h.1 _ hm
          simp at this
    · rename_i hk
      rw [ih h.2]
      constructor
      · exact .inr
      · rintro (e | hm)
        · exact absurd (by simp [← e]) hk
        · exact hm

theorem find?_eq_some_iff [Std.TransOrd κ] [Std.LawfulEqOrd κ] {m : SortedMap κ ν} {k : κ}
    {v : ν} : m.find? k = some v ↔ (k, v) ∈ m.entries :=
  findIn_eq_some_iff m.ascending

theorem ascending_ext [Std.TransOrd κ] : ∀ {l l' : List (κ × ν)},
    (l.Pairwise fun a b => compare a.1 b.1 = .lt) →
    (l'.Pairwise fun a b => compare a.1 b.1 = .lt) → (∀ e, e ∈ l ↔ e ∈ l') → l = l'
  | [], [], _, _, _ => rfl
  | [], b :: _, _, _, he => absurd ((he b).2 (.head _)) List.not_mem_nil
  | a :: _, [], _, _, he => absurd ((he a).1 (.head _)) List.not_mem_nil
  | a :: l, b :: l', h, h', he => by
    rw [List.pairwise_cons] at h h'
    have irrefl : ∀ e : κ × ν, compare e.1 e.1 ≠ .lt := fun e => by simp
    have hab : a = b := by
      rcases List.mem_cons.1 ((he a).1 (.head _)) with hab | hab
      · exact hab
      · rcases List.mem_cons.1 ((he b).2 (.head _)) with hba | hba
        · exact hba.symm
        · exact absurd (Std.TransCmp.lt_trans (h.1 b hba) (h'.1 a hab)) (irrefl a)
    subst hab
    refine congrArg (a :: ·) (ascending_ext h.2 h'.2 fun e => ⟨fun hm => ?_, fun hm => ?_⟩)
    · rcases List.mem_cons.1 ((he e).1 (.tail _ hm)) with rfl | h2
      · exact absurd (h.1 _ hm) (irrefl _)
      · exact h2
    · rcases List.mem_cons.1 ((he e).2 (.tail _ hm)) with rfl | h2
      · exact absurd (h'.1 _ hm) (irrefl _)
      · exact h2

theorem ext_find? [Std.TransOrd κ] [Std.LawfulEqOrd κ] {m m' : SortedMap κ ν}
    (h : ∀ k, m.find? k = m'.find? k) : m = m' := by
  refine ext_entries (ascending_ext m.ascending m'.ascending fun e => ?_)
  have he := h e.1
  rw [← find?_eq_some_iff (k := e.1) (v := e.2), ← find?_eq_some_iff (k := e.1) (v := e.2), he]

end SortedMap

end TraceTree
