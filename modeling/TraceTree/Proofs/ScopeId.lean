import Mathlib.Data.List.Infix
import TraceTree.Proofs.Text
import TraceTree.ScopeId

/-!
Scope ids as a tree. The ids around one id form a chain (`contains_total`), an id is around a child
exactly when it is that child or around its parent (`contains_child_iff`), and two ids neither of
which is around the other lie below different children of one id (`diverge`). An id reads back from
its text (`ofText?_render`).
-/
namespace TraceTree.ScopeId

variable {a b c p q id : ScopeId} {m n : Nat}

@[simp] theorem path_child (p : ScopeId) (n : Nat) : (p.child n).path = p.path ++ [n] := rfl

@[simp] theorem path_root : root.path = [1] := rfl

theorem path_inj : a.path = b.path ↔ a = b :=
  ⟨ext_path, fun h => h ▸ rfl⟩

@[simp] theorem child_inj : p.child m = q.child n ↔ p = q ∧ m = n := by
  rw [← path_inj, path_child, path_child, List.append_singleton_inj, path_inj]

theorem child_ne_root (p : ScopeId) (n : Nat) : p.child n ≠ root := by
  intro h
  have hlen := congrArg (fun id : ScopeId => id.path.length) h
  have hpos := List.length_pos_iff.2 p.path_ne_nil
  simp only [path_child, path_root, List.length_append, List.length_singleton] at hlen
  omega

theorem parent?_eq_some_iff : id.parent? = some p ↔ ∃ n, id = p.child n := by
  constructor
  · intro h
    simp only [parent?, ofPath?, Option.dite_none_right_eq_some, Option.some.injEq] at h
    obtain ⟨_, rfl⟩ := h
    refine ⟨id.path.getLast id.path_ne_nil, ext_path ?_⟩
    exact (List.dropLast_append_getLast id.path_ne_nil).symm
  · rintro ⟨n, rfl⟩
    exact parent?_child p n

/-! ### Being around an id -/

@[simp] theorem contains_refl (a : ScopeId) : a.contains a :=
  contains_iff.2 (List.prefix_refl _)

theorem contains_trans (hab : a.contains b) (hbc : b.contains c) : a.contains c :=
  contains_iff.2 ((contains_iff.1 hab).trans (contains_iff.1 hbc))

theorem contains_antisymm (hab : a.contains b) (hba : b.contains a) : a = b :=
  have hle := (contains_iff.1 hba).length_le
  ext_path ((contains_iff.1 hab).eq_of_length_le hle)

@[simp] theorem contains_child (p : ScopeId) (n : Nat) : p.contains (p.child n) :=
  contains_iff.2 (List.prefix_append _ _)

theorem contains_child_iff : a.contains (p.child n) ↔ a = p.child n ∨ a.contains p := by
  rw [contains_iff, contains_iff, path_child, List.prefix_concat_iff, ← path_inj, path_child]

theorem not_child_contains (p : ScopeId) (n : Nat) : ¬ (p.child n).contains p := by
  intro h
  have := (contains_iff.1 h).length_le
  simp only [path_child, List.length_append, List.length_singleton] at this
  omega

/-- The ids around one id form a chain. -/
theorem contains_total (hac : a.contains c) (hbc : b.contains c) : a.contains b ∨ b.contains a := by
  rw [contains_iff, contains_iff]
  exact List.prefix_or_prefix_of_prefix (contains_iff.1 hac) (contains_iff.1 hbc)

theorem isAncestorOf_iff : a.isAncestorOf b ↔ a.contains b ∧ a ≠ b := by
  simp only [isAncestorOf, Bool.and_eq_true, decide_eq_true_eq]
  constructor
  · rintro ⟨hlt, h⟩
    exact ⟨h, fun e => by simp [e] at hlt⟩
  · rintro ⟨h, hne⟩
    have hp := contains_iff.1 h
    refine ⟨lt_of_le_of_ne hp.length_le fun e => hne (ext_path (hp.eq_of_length e)), h⟩

theorem parent?_eq_some_iff_depth :
    id.parent? = some p ↔ p.isAncestorOf id ∧ id.depth = p.depth + 1 := by
  have hpos := List.length_pos_iff.2 p.path_ne_nil
  rw [parent?_eq_some_iff]
  constructor
  · rintro ⟨n, rfl⟩
    exact ⟨isAncestorOf_iff.2 ⟨contains_child p n, fun h =>
      not_child_contains p n (h ▸ contains_refl p)⟩, depth_child p n⟩
  · rintro ⟨habove, hdepth⟩
    obtain ⟨tail, htail⟩ := contains_iff.1 (isAncestorOf_iff.1 habove).1
    have hlen := congrArg List.length htail
    simp only [depth, List.length_append] at hdepth hlen
    obtain ⟨n, rfl⟩ := List.length_eq_one_iff.1 (show tail.length = 1 by omega)
    exact ⟨n, ext_path htail.symm⟩

theorem eq_root_or_child (h : root.contains id) : id = root ∨ ∃ p n, id = p.child n ∧
    root.contains p := by
  obtain ⟨tail, htail⟩ := contains_iff.1 h
  rcases List.eq_nil_or_concat tail with rfl | ⟨init, n, rfl⟩
  · exact .inl (ext_path (by simpa using htail.symm))
  · refine .inr ⟨⟨root.path ++ init, by simp⟩, n, ext_path ?_, contains_iff.2 (by simp)⟩
    simpa [List.append_assoc] using htail.symm

theorem eq_root_of_contains_root (h : a.contains root) : a = root := by
  have hp := contains_iff.1 h
  have hpos := List.length_pos_iff.2 a.path_ne_nil
  exact ext_path (hp.eq_of_length_le hpos)

theorem prefix_or_diverge : ∀ x y : List Nat, x <+: y ∨ y <+: x ∨
    ∃ l m n, m ≠ n ∧ l ++ [m] <+: x ∧ l ++ [n] <+: y
  | [], y => .inl (List.nil_prefix)
  | x, [] => .inr (.inl (List.nil_prefix))
  | m :: x, n :: y => by
    by_cases hmn : m = n
    · subst hmn
      rcases prefix_or_diverge x y with h | h | ⟨l, i, j, hij, hi, hj⟩
      · exact .inl ((List.prefix_cons_inj m).2 h)
      · exact .inr (.inl ((List.prefix_cons_inj m).2 h))
      · exact .inr (.inr ⟨m :: l, i, j, hij, (List.prefix_cons_inj m).2 hi,
          (List.prefix_cons_inj m).2 hj⟩)
    · exact .inr (.inr ⟨[], m, n, hmn, by simp, by simp⟩)

/-- Below the root, two ids neither of which is around the other lie below different children of
one id. -/
theorem diverge (ha : root.contains a) (hb : root.contains b) (hab : ¬ a.contains b)
    (hba : ¬ b.contains a) :
    ∃ (p : ScopeId) (m n : Nat), m ≠ n ∧ (p.child m).contains a ∧ (p.child n).contains b := by
  rw [contains_iff] at hab hba
  obtain ⟨l, m, n, hmn, hm, hn⟩ :=
    ((prefix_or_diverge a.path b.path).resolve_left hab).resolve_left hba
  have hl : l ≠ [] := by
    -- Both paths start with the root's ordinal, so they cannot part at once.
    rintro rfl
    obtain ⟨_, ha⟩ := contains_iff.1 ha
    obtain ⟨_, hb⟩ := contains_iff.1 hb
    obtain ⟨_, hm⟩ := hm
    obtain ⟨_, hn⟩ := hn
    rw [← ha] at hm
    rw [← hb] at hn
    simp at hm hn
    exact hmn (hm.1.trans hn.1.symm)
  exact ⟨⟨l, hl⟩, m, n, hmn, contains_iff.2 hm, contains_iff.2 hn⟩

/-! ### Order -/

theorem compare_append (l x y : List Nat) : compare (l ++ x) (l ++ y) = compare x y := by
  induction l with
  | nil => rfl
  | cons n l ih => rw [List.cons_append, List.cons_append, List.compare_cons_cons, ih]; simp

/-- An id comes before those below it. -/
theorem compare_of_contains (h : a.contains b) (hne : a ≠ b) : compare a b = .lt := by
  obtain ⟨tail, htail⟩ := contains_iff.1 h
  cases tail with
  | nil => exact absurd (ext_path (by simpa using htail)) hne
  | cons n tail =>
    show compare a.path b.path = .lt
    have := compare_append a.path [] (n :: tail)
    rwa [List.append_nil, htail] at this

theorem isLE_of_contains (h : a.contains b) : (compare a b).isLE := by
  by_cases hne : a = b
  · simp [hne]
  · rw [compare_of_contains h hne]
    rfl

/-- An id before another does not lie below it. -/
theorem not_contains_of_lt (h : compare a b = .lt) : ¬ b.contains a := by
  intro hin
  have hle := isLE_of_contains hin
  rw [Std.OrientedCmp.gt_of_lt h] at hle
  cases hle

/-- Of two paths that part, the one with the smaller ordinal there comes first. -/
theorem compare_of_diverge {l x y : List Nat} (hmn : m < n) (hx : l ++ [m] <+: x)
    (hy : l ++ [n] <+: y) : compare x y = .lt := by
  obtain ⟨u, rfl⟩ := hx
  obtain ⟨v, rfl⟩ := hy
  rw [List.append_assoc, List.append_assoc, compare_append, List.singleton_append,
    List.singleton_append, List.compare_cons_cons, Nat.compare_eq_lt.2 hmn]
  rfl

/-- What lies below an earlier child comes before what lies below a later one. -/
theorem compare_of_siblings (hmn : m < n) (ha : (p.child m).contains a)
    (hb : (p.child n).contains b) : compare a b = .lt :=
  compare_of_diverge hmn (contains_iff.1 ha) (contains_iff.1 hb)

/-- What stands between an id and one below it lies below it too. -/
theorem contains_of_between (hpa : (compare p a).isLE) (hab : (compare a b).isLE)
    (hpb : p.contains b) : p.contains a := by
  rcases prefix_or_diverge p.path a.path with h | h | ⟨l, m, n, hmn, hp, ha⟩
  · exact contains_iff.2 h
  · exact Std.LawfulEqCmp.eq_of_compare
      (Std.OrientedCmp.isLE_antisymm (isLE_of_contains (contains_iff.2 h)) hpa) ▸ contains_refl a
  · rcases Nat.lt_or_gt_of_ne hmn with hlt | hgt
    · have hba : compare b a = .lt := compare_of_diverge hlt (hp.trans (contains_iff.1 hpb)) ha
      rw [Std.OrientedCmp.gt_of_lt hba] at hab
      cases hab
    · have hap : compare a p = .lt := compare_of_diverge hgt ha hp
      rw [Std.OrientedCmp.gt_of_lt hap] at hpa
      cases hpa

/-! ### Text -/

/-- The ordinals of the id are numbers of 32 bits. -/
def Fits (id : ScopeId) : Prop := ∀ n ∈ id.path, n < Text.bound32

instance (id : ScopeId) : Decidable id.Fits := inferInstanceAs (Decidable (∀ n ∈ id.path, _))

/-- The pieces of the written form are the digits of the ordinals. -/
theorem splitOn_render (id : ScopeId) : id.render.splitOn '.' = id.path.map Text.digits := by
  refine List.splitOn_intercalate '.' (fun piece hpiece hdot => ?_) (by simpa using id.path_ne_nil)
  obtain ⟨n, -, rfl⟩ := List.mem_map.1 hpiece
  exact absurd (Text.isDigit_of_mem_digits hdot) (by decide)

/-- An id reads back from its written form. -/
theorem ofText?_render (h : id.Fits) : ofText? id.render = some id := by
  rw [ofText?, splitOn_render, Text.mapM_unsigned?_digits h, Option.bind_some, ofPath?,
    dif_pos id.path_ne_nil]

theorem ofString?_toString (h : id.Fits) : ofString? id.toString = some id := by
  rw [ofString?, toString, String.toList_ofList]
  exact ofText?_render h

end TraceTree.ScopeId
