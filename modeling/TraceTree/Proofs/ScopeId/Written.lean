import TraceTree.Proofs.ScopeId
import TraceTree.Proofs.SortedMap
import TraceTree.Proofs.Text.Numeral

/-!
Scope ids as they are written and as they are sorted. A text is read as an id when each of its
pieces is a numeral of 32 bits (`ofText?_eq_some_iff`), and is the written form of that id when its
numerals are (`render_eq_iff`). Of two ids the one comes first that is around the other or has the
smaller ordinal where they part (`compare_eq_lt_iff`), so in a sorted list of ids those below one
id, itself included, are one stretch that starts with it (`isInfix_filter_contains`,
`head?_filter_contains`).
-/
namespace TraceTree.ScopeId

open Text (HasNoLeadingZero Unsigned bound32)

variable {a b c p id : ScopeId} {cs : List Char} {ids : List ScopeId}

/-! ### Text -/

theorem ofPath?_eq_some_iff {path : List Nat} : ofPath? path = some id ↔ id.path = path := by
  rw [ofPath?, Option.dite_none_right_eq_some]
  constructor
  · rintro ⟨hpath, h⟩
    cases h
    rfl
  · rintro rfl
    exact ⟨id.path_ne_nil, rfl⟩

theorem ofText?_eq_some_iff : ofText? cs = some id ↔
    List.Forall₂ (fun piece n => Unsigned piece n ∧ n < bound32) (cs.splitOn '.') id.path := by
  simp only [ofText?, Option.bind_eq_some_iff, ofPath?_eq_some_iff,
    Text.mapM_unsigned?_eq_some_iff, exists_eq_right']

theorem exists_ofText?_iff : (∃ id, ofText? cs = some id) ↔
    ∀ piece ∈ cs.splitOn '.', ∃ n, Unsigned piece n ∧ n < bound32 := by
  rw [← Text.exists_mapM_unsigned?_iff]
  simp only [ofText?_eq_some_iff, ← Text.mapM_unsigned?_eq_some_iff]
  constructor
  · exact fun ⟨id, hid⟩ => ⟨id.path, hid⟩
  · rintro ⟨path, hpath⟩
    have hlength := (Text.mapM_unsigned?_eq_some_iff.1 hpath).length_eq
    have hpieces := List.length_pos_iff.2 (List.splitOn_ne_nil '.' cs)
    exact ⟨⟨path, List.length_pos_iff.1 (hlength ▸ hpieces)⟩, hpath⟩

/-- The text that an id was read from is its written form unless a piece has a plus sign or a zero
before other digits. -/
theorem render_eq_iff (h : ofText? cs = some id) :
    id.render = cs ↔ ∀ piece ∈ cs.splitOn '.', '+' ∉ piece ∧ HasNoLeadingZero piece := by
  rw [← Text.map_digits_eq_iff (ofText?_eq_some_iff.1 h)]
  constructor
  · rintro rfl
    exact (splitOn_render id).symm
  · intro hpieces
    rw [render, hpieces, List.intercalate_splitOn]

theorem toString_eq_iff {s : String} : id.toString = s ↔ id.render = s.toList := by
  rw [toString, ← String.toList_inj, String.toList_ofList]

/-! ### Order -/

/-- An id comes before another when it is around it or has the smaller ordinal where they part. -/
theorem compare_eq_lt_iff : compare a b = .lt ↔
    a.isAncestorOf b ∨ ∃ l m n, m < n ∧ l ++ [m] <+: a.path ∧ l ++ [n] <+: b.path := by
  constructor
  · intro hlt
    have hne : a ≠ b := by
      rintro rfl
      simp at hlt
    rcases prefix_or_diverge a.path b.path with h | h | ⟨l, m, n, hmn, ha, hb⟩
    · exact .inl (isAncestorOf_iff.2 ⟨contains_iff.2 h, hne⟩)
    · exact absurd (contains_iff.2 h) (not_contains_of_lt hlt)
    · refine .inr ⟨l, m, n, ?_, ha, hb⟩
      by_contra hle
      have hgt : compare b a = .lt := compare_of_diverge (by omega) hb ha
      rw [Std.OrientedCmp.gt_of_lt hgt] at hlt
      cases hlt
  · rintro (h | ⟨l, m, n, hmn, ha, hb⟩)
    · exact compare_of_contains (isAncestorOf_iff.1 h).1 (isAncestorOf_iff.1 h).2
    · exact compare_of_diverge hmn ha hb

theorem compare_trichotomy (a b : ScopeId) : compare a b = .lt ∨ a = b ∨ compare b a = .lt := by
  cases h : compare a b with
  | lt => exact .inl rfl
  | eq => exact .inr (.inl (Std.LawfulEqCmp.eq_of_compare h))
  | gt => exact .inr (.inr (Std.OrientedCmp.lt_of_gt h))

/-- What stands between two ids below `p` lies below it too. -/
theorem contains_of_isLE (ha : p.contains a) (hc : p.contains c) (hab : (compare a b).isLE)
    (hbc : (compare b c).isLE) : p.contains b :=
  contains_of_between (Std.TransCmp.isLE_trans (isLE_of_contains ha) hab) hbc hc

/-! ### Sorted lists -/

/-- In a list that starts with an id below `p`, all such ids come first. -/
theorem takeWhile_contains (hids : (a :: ids).Pairwise fun a b => compare a b = .lt)
    (ha : p.contains a) : (a :: ids).takeWhile p.contains = (a :: ids).filter p.contains := by
  rw [List.takeWhile_cons_of_pos ha, List.filter_cons_of_pos ha]
  rw [List.pairwise_cons] at hids
  refine congrArg (a :: ·) (SortedMap.takeWhile_eq_filter ?_)
  exact hids.2.imp_of_mem fun {b c} hb _ hbc hc =>
    contains_of_isLE ha hc (Ordering.isLE_of_eq_lt (hids.1 b hb)) (Ordering.isLE_of_eq_lt hbc)

/-- The ids below one id, itself included, stand together. -/
theorem isInfix_filter_contains (p : ScopeId) (hids : ids.Pairwise fun a b => compare a b = .lt) :
    ids.filter p.contains <:+: ids := by
  induction ids with
  | nil => exact List.infix_rfl
  | cons a ids ih =>
    by_cases ha : p.contains a
    · rw [← takeWhile_contains hids ha]
      exact (List.takeWhile_prefix _).isInfix
    · rw [List.filter_cons_of_neg ha]
      exact (ih (List.pairwise_cons.1 hids).2).trans (List.suffix_cons a ids).isInfix

/-- An id stands before all that is below it. -/
theorem head?_filter_contains (hids : ids.Pairwise fun a b => compare a b = .lt) (hp : p ∈ ids) :
    (ids.filter p.contains).head? = some p := by
  have hmem : p ∈ ids.filter p.contains := List.mem_filter.2 ⟨hp, contains_refl p⟩
  have hsorted := hids.filter p.contains
  cases hfilter : ids.filter p.contains with
  | nil => simp [hfilter] at hmem
  | cons first rest =>
    rw [hfilter] at hmem hsorted
    obtain rfl | hrest := List.mem_cons.1 hmem
    · rfl
    · have hfirst : first ∈ ids.filter p.contains := hfilter ▸ List.mem_cons_self
      exact absurd (List.mem_filter.1 hfirst).2
        (not_contains_of_lt ((List.pairwise_cons.1 hsorted).1 p hrest))

/-! ### Main statement -/

/-- Ids read back from their written forms, and the texts that are read are rows of numerals, of
which those without plus signs and superfluous zeros are the written forms. The ids are in a total
order by the numbers of their ordinals, in which the ids that one is around stand together, that one
before all others. -/
theorem ofString?_preorder :
    (∀ id : ScopeId, id.Fits → ofString? id.toString = some id) ∧
    (∀ s : String, (∃ id, ofString? s = some id) ↔
      ∀ piece ∈ s.toList.splitOn '.', ∃ n, Unsigned piece n ∧ n < bound32) ∧
    (∀ (s : String) (id : ScopeId), ofString? s = some id →
      (id.toString = s ↔
        ∀ piece ∈ s.toList.splitOn '.', '+' ∉ piece ∧ HasNoLeadingZero piece)) ∧
    (∀ a b : ScopeId, compare a b = .lt ∨ a = b ∨ compare b a = .lt) ∧
    (∀ a b c : ScopeId, (compare a b).isLE → (compare b c).isLE → (compare a c).isLE) ∧
    (∀ a b : ScopeId, compare a b = .lt ↔
      a.isAncestorOf b ∨ ∃ l m n, m < n ∧ l ++ [m] <+: a.path ∧ l ++ [n] <+: b.path) ∧
    (∀ p a : ScopeId, p.contains a → (compare p a).isLE) ∧
    (∀ p a b c : ScopeId, p.contains a → p.contains c → (compare a b).isLE → (compare b c).isLE →
      p.contains b) ∧
    ∀ (p : ScopeId) (ids : List ScopeId), ids.Pairwise (fun a b => compare a b = .lt) →
      ids.filter p.contains <:+: ids ∧ (p ∈ ids → (ids.filter p.contains).head? = some p) :=
  ⟨fun _ => ofString?_toString, fun _ => exists_ofText?_iff,
    fun _ _ h => toString_eq_iff.trans (render_eq_iff h), compare_trichotomy,
    fun _ _ _ => Std.TransCmp.isLE_trans, fun _ _ => compare_eq_lt_iff,
    fun _ _ => isLE_of_contains, fun _ _ _ _ => contains_of_isLE,
    fun p _ h => ⟨isInfix_filter_contains p h, head?_filter_contains h⟩⟩

/-- A text that is no written form, and a sorted list in which the tenth child stands last. -/
theorem ofString?_preorder_tenth :
    let ids : List ScopeId := [⟨[1], by simp⟩, ⟨[1, 2], by simp⟩, ⟨[1, 2, 1], by simp⟩,
      ⟨[1, 2, 7], by simp⟩, ⟨[1, 10], by simp⟩]
    let p : ScopeId := ⟨[1, 2], by simp⟩
    ScopeId.Fits ⟨[1, 2, 7], by simp⟩ ∧
      ofString? (toString ⟨[1, 2, 7], by simp⟩) = some ⟨[1, 2, 7], by simp⟩ ∧
      ofString? "1.+2.07" = some ⟨[1, 2, 7], by simp⟩ ∧
      toString ⟨[1, 2, 7], by simp⟩ ≠ "1.+2.07" ∧
      p.contains ⟨[1, 2, 1], by simp⟩ ∧ compare p ⟨[1, 10], by simp⟩ = .lt ∧
      ids.Pairwise (fun a b => compare a b = .lt) ∧
      ids.filter p.contains <:+: ids ∧ (ids.filter p.contains).head? = some p := by
  intro ids p
  obtain ⟨hback, -, hwritten, -, -, hlt, hbefore, hbetween, hsorted⟩ := ofString?_preorder
  have hfits : ScopeId.Fits ⟨[1, 2, 7], by simp⟩ := by decide
  have hread : ofString? "1.+2.07" = some ⟨[1, 2, 7], by simp⟩ := by decide +kernel
  have hids : ids.Pairwise (fun a b => compare a b = .lt) := by decide +kernel
  refine ⟨hfits, hback _ hfits, hread, fun h => ?_, ?_, ?_, hids, (hsorted p ids hids).1,
    (hsorted p ids hids).2 (by decide)⟩
  · exact absurd ((hwritten _ _ hread).1 h "+2".toList (by decide +kernel)).1 (by decide)
  · exact hbetween p p _ ⟨[1, 2, 7], by simp⟩ (by decide) (by decide)
      (hbefore p _ (by decide)) (by decide +kernel)
  · exact (hlt _ _).2 (.inr ⟨[1], 2, 10, by decide, by decide, by decide⟩)

end TraceTree.ScopeId
