import Mathlib.Data.List.Forall2
import TraceTree.Json.Basic

/-!
JSON values up to the order of members. Main statements: a member that one object has, an object in
another order has too (`Reordered.exists_member`), and sorting the members by name is a change of
order when no object has two of one name (`reordered_canonical`).
-/
namespace TraceTree.Json

/-- The same value, with the members of its objects at any depth in another order. -/
inductive Reordered : Json → Json → Prop where
  | refl (j : Json) : Reordered j j
  | array {xs ys : List Json} (items : List.Forall₂ Reordered xs ys) :
      Reordered (.array xs) (.array ys)
  | object {ms ns : List (String × Json)} {values : List Json}
      (members : List.Forall₂ Reordered (ms.map (·.2)) values)
      (order : ns.Perm ((ms.map (·.1)).zip values)) : Reordered (.object ms) (.object ns)

/-! ### Members by name -/

section Members

variable {name : String} {v : Json} {ms ns : List (String × Json)}

theorem mem_of_memberIn (h : memberIn name ms = some v) : (name, v) ∈ ms := by
  induction ms with
  | nil => cases h
  | cons m ms ih =>
    rw [memberIn] at h
    split at h
    · rename_i hname
      cases h
      exact hname ▸ List.mem_cons_self
    · exact List.mem_cons_of_mem _ (ih h)

/-- In an object without two members of one name every member is found. -/
theorem memberIn_of_mem (hnodup : (ms.map (·.1)).Nodup) (h : (name, v) ∈ ms) :
    memberIn name ms = some v := by
  induction ms with
  | nil => cases h
  | cons m ms ih =>
    rw [List.map_cons, List.nodup_cons] at hnodup
    rw [memberIn]
    rcases List.mem_cons.1 h with rfl | h
    · exact if_pos rfl
    · have hne : m.1 ≠ name := by
        rintro rfl
        exact hnodup.1 (List.mem_map.2 ⟨_, h, rfl⟩)
      rw [if_neg hne]
      exact ih hnodup.2 h

end Members

/-! ### Changes of order -/

theorem reordered_items (xs : List Json) : List.Forall₂ Reordered xs xs :=
  List.forall₂_same.2 fun x _ => .refl x

theorem reordered_of_perm {ms ns : List (String × Json)} (h : ns.Perm ms) :
    (Json.object ms).Reordered (.object ns) :=
  .object (reordered_items (ms.map (·.2))) (by rwa [List.zip_map', List.map_id'])

/-- A change of order within the first member. -/
theorem reordered_cons {name : String} {v w : Json} (ms : List (String × Json))
    (h : v.Reordered w) : (Json.object ((name, v) :: ms)).Reordered (.object ((name, w) :: ms)) :=
  .object (.cons h (reordered_items (ms.map (·.2))))
    (by rw [List.map_cons, List.zip_cons_cons, List.zip_map', List.map_id'])

/-! ### What another order keeps -/

namespace Reordered

variable {j : Json}

theorem of_bool {b : Bool} (h : (Json.bool b).Reordered j) : j = .bool b := by
  cases h
  rfl

theorem of_integer {n : Int} (h : (Json.integer n).Reordered j) : j = .integer n := by
  cases h
  rfl

theorem of_string {s : String} (h : (Json.string s).Reordered j) : j = .string s := by
  cases h
  rfl

theorem of_null (h : Json.null.Reordered j) : j = .null := by
  cases h
  rfl

theorem of_array {xs : List Json} (h : (Json.array xs).Reordered j) :
    ∃ ys, j = .array ys ∧ List.Forall₂ Reordered xs ys := by
  cases h with
  | refl => exact ⟨xs, rfl, reordered_items xs⟩
  | array items => exact ⟨_, rfl, items⟩

theorem of_object {ms : List (String × Json)} (h : (Json.object ms).Reordered j) :
    ∃ ns values, j = .object ns ∧ List.Forall₂ Reordered (ms.map (·.2)) values ∧
      ns.Perm ((ms.map (·.1)).zip values) := by
  cases h with
  | refl =>
    refine ⟨ms, ms.map (·.2), rfl, reordered_items _, ?_⟩
    rw [List.zip_map', List.map_id']
  | object members order => exact ⟨_, _, rfl, members, order⟩

/-- An object of one member has one order. -/
theorem of_single {name : String} {v : Json} (h : (Json.object [(name, v)]).Reordered j) :
    ∃ w, j = .object [(name, w)] ∧ v.Reordered w := by
  obtain ⟨ns, values, rfl, hvalues, hperm⟩ := h.of_object
  obtain ⟨w, rest, hw, hrest, rfl⟩ := List.forall₂_cons_left_iff.1 hvalues
  cases hrest
  exact ⟨w, by rw [List.perm_singleton.1 hperm], hw⟩

end Reordered

section Objects

variable {ms ns : List (String × Json)} {values : List Json}

theorem names_reordered (hvalues : List.Forall₂ Reordered (ms.map (·.2)) values)
    (hperm : ns.Perm ((ms.map (·.1)).zip values)) : (ns.map (·.1)).Perm (ms.map (·.1)) := by
  have hlength : (ms.map (·.1)).length ≤ values.length := by
    simpa using Nat.le_of_eq hvalues.length_eq
  have hnames := hperm.map (·.1)
  rwa [List.map_fst_zip hlength] at hnames

theorem exists_mem_zip (hvalues : List.Forall₂ Reordered (ms.map (·.2)) values) {name : String}
    {v : Json} (h : (name, v) ∈ ms) : ∃ w, (name, w) ∈ (ms.map (·.1)).zip values ∧ v.Reordered w := by
  induction ms generalizing values with
  | nil => cases h
  | cons m ms ih =>
    obtain ⟨w, rest, hw, hrest, rfl⟩ := List.forall₂_cons_left_iff.1 hvalues
    rcases List.mem_cons.1 h with rfl | h
    · exact ⟨w, List.mem_cons_self, hw⟩
    · obtain ⟨w', hmem, hw'⟩ := ih hrest h
      exact ⟨w', List.mem_cons_of_mem _ hmem, hw'⟩

/-- A member that an object has under a name, the object in another order has there too. -/
theorem Reordered.exists_member {j : Json} (h : (Json.object ms).Reordered j)
    (hnodup : (ms.map (·.1)).Nodup) : ∃ ns, j = .object ns ∧ (ns.map (·.1)).Perm (ms.map (·.1)) ∧
      ∀ name v, memberIn name ms = some v → ∃ w, memberIn name ns = some w ∧ v.Reordered w := by
  obtain ⟨ns, values, rfl, hvalues, hperm⟩ := h.of_object
  have hnames := names_reordered hvalues hperm
  refine ⟨ns, rfl, hnames, fun name v hv => ?_⟩
  obtain ⟨w, hmem, hw⟩ := exists_mem_zip hvalues (mem_of_memberIn hv)
  exact ⟨w, memberIn_of_mem (hnames.nodup_iff.2 hnodup) (hperm.mem_iff.2 hmem), hw⟩

end Objects

/-! ### Canonical order -/

mutual

/-- No object in the value has two members of one name. -/
def namesDistinct : Json → Bool
  | .array xs => namesDistinctItems xs
  | .object ms => decide (ms.map (·.1)).Nodup && namesDistinctMembers ms
  | _ => true

def namesDistinctItems : List Json → Bool
  | [] => true
  | x :: xs => namesDistinct x && namesDistinctItems xs

def namesDistinctMembers : List (String × Json) → Bool
  | [] => true
  | (_, v) :: ms => namesDistinct v && namesDistinctMembers ms

end

@[simp] theorem namesDistinct_array {xs : List Json} :
    (Json.array xs).namesDistinct ↔ ∀ x ∈ xs, x.namesDistinct := by
  rw [namesDistinct]
  induction xs with
  | nil => simp [namesDistinctItems]
  | cons x xs ih => simp [namesDistinctItems, ih]

@[simp] theorem namesDistinct_object {ms : List (String × Json)} :
    (Json.object ms).namesDistinct ↔ (ms.map (·.1)).Nodup ∧ ∀ m ∈ ms, m.2.namesDistinct := by
  have hmembers : namesDistinctMembers ms ↔ ∀ m ∈ ms, m.2.namesDistinct := by
    induction ms with
    | nil => simp [namesDistinctMembers]
    | cons m ms ih => simp [namesDistinctMembers, ih]
  rw [namesDistinct, Bool.and_eq_true, decide_eq_true_eq, hmembers]

theorem map_fst_canonicalMembers (ms : List (String × Json)) :
    (canonicalMembers ms).map (·.1) = ms.map (·.1) := by
  induction ms with
  | nil => rfl
  | cons m ms ih => rw [canonicalMembers, List.map_cons, ih, List.map_cons]

theorem keepLast_of_nodup {ms : List (String × Json)} (h : (ms.map (·.1)).Nodup) :
    keepLast ms = ms := by
  fun_induction keepLast ms with
  | case1 => rfl
  | case2 => rfl
  | case3 m m' rest heq ih => simp [heq] at h
  | case4 m m' rest hne ih => rw [ih (List.nodup_cons.1 h).2]

theorem sortMembers_perm {ms : List (String × Json)} (h : (ms.map (·.1)).Nodup) :
    (sortMembers ms).Perm ms := by
  have hperm := List.mergeSort_perm ms fun a b => (compare a.1 b.1).isLE
  rw [sortMembers, keepLast_of_nodup ((hperm.map (·.1)).nodup_iff.2 h)]
  exact hperm

mutual

/-- Where no object has two members of one name, the canonical form is the value in another
order. -/
theorem reordered_canonical : ∀ {j : Json}, j.namesDistinct → j.Reordered j.canonical
  | .array xs, h => .array (reordered_canonicalItems h)
  | .object ms, h => by
    rw [namesDistinct, Bool.and_eq_true, decide_eq_true_eq] at h
    refine .object (reordered_canonicalMembers h.2) ?_
    rw [← map_fst_canonicalMembers, List.zip_map', List.map_id']
    refine sortMembers_perm ?_
    rw [map_fst_canonicalMembers]
    exact h.1
  | .null, _ | .bool _, _ | .integer _, _ | .decimal _, _ | .string _, _ | .unreadable, _ => .refl _

theorem reordered_canonicalItems : ∀ {xs : List Json}, namesDistinctItems xs →
    List.Forall₂ Reordered xs (canonicalItems xs)
  | [], _ => .nil
  | x :: xs, h => by
    rw [namesDistinctItems, Bool.and_eq_true] at h
    exact .cons (reordered_canonical h.1) (reordered_canonicalItems h.2)

theorem reordered_canonicalMembers : ∀ {ms : List (String × Json)}, namesDistinctMembers ms →
    List.Forall₂ Reordered (ms.map (·.2)) ((canonicalMembers ms).map (·.2))
  | [], _ => .nil
  | (name, v) :: ms, h => by
    rw [namesDistinctMembers, Bool.and_eq_true] at h
    exact .cons (reordered_canonical h.1) (reordered_canonicalMembers h.2)

end

end TraceTree.Json
