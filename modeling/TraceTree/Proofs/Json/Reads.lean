import Mathlib.Data.List.Perm.Basic
import TraceTree.Json.Record
import TraceTree.Proofs.Json.Reordered
import TraceTree.Proofs.SortedMap

/-!
Reading back what was written. A reader makes a value of a text when it makes it of the text with
its members in any order (`Reads`). Each way of writing has a lemma that says when it reads back:
scalars, options, lists, pairs, maps whose keys read back (`Reads.ofMap`) and records
(`Reads.record`). Such maps are written without two members of one name (`namesDistinct_ofMap`).
-/
namespace TraceTree.Json

/-- What `read` makes of the value is `a`, in whatever order its members are. -/
def Reads {α : Type} (read : Json → Option α) (j : Json) (a : α) : Prop :=
  ∀ j', j.Reordered j' → read j' = some a

variable {α β κ ν : Type} {read : Json → Option α}

/-! ### Simple data -/

theorem reads_bool (b : Bool) : Reads readBool (.bool b) b := by
  intro j h
  rw [h.of_bool]
  rfl

theorem reads_string (s : String) : Reads readString (.string s) s := by
  intro j h
  rw [h.of_string]
  rfl

theorem reads_nat {bound n : Nat} (hn : n < bound) : Reads (asNat? bound) (.nat n) n := by
  intro j h
  rw [h.of_integer]
  exact if_pos hn

theorem reads_nat32 {n : Nat} (hn : n < Text.bound32) : Reads readNat32 (.nat n) n := reads_nat hn

theorem reads_nat64 {n : Nat} (hn : n < Text.bound64) : Reads readNat64 (.nat n) n := reads_nat hn

theorem reads_byte (b : UInt8) : Reads readByte (.nat b.toNat) b := by
  intro j h
  rw [readByte, readNat8, reads_nat b.toNat_lt j h, Option.map_some, UInt8.ofNat_toNat]

/-- A case without data is its name. -/
theorem reads_tag {ofName? : String → Option α} {name : String} {a : α}
    (h : ofName? name = some a) : Reads (fun j => (readTag j).bind ofName?) (.string name) a := by
  intro j hj
  rw [hj.of_string]
  exact h

/-! ### Parts -/

theorem Reads.option {f : α → Json} {o : Option α} (hnull : read .null = none)
    (h : ∀ a ∈ o, Reads read (f a) a) : Reads (readOption read) (option f o) o := by
  intro j hj
  cases o with
  | none =>
    rw [hj.of_null]
    rfl
  | some a =>
    have hread := h a rfl j hj
    rw [readOption, hread]
    · rfl
    · rintro rfl
      rw [hnull] at hread
      cases hread

theorem mapM_of_forall₂ {f : β → Option α} {xs : List α} {ys : List β}
    (h : List.Forall₂ (fun y x => f y = some x) ys xs) : ys.mapM f = some xs := by
  induction h with
  | nil => rfl
  | cons hx _ ih => rw [List.mapM_cons, hx, ih]; rfl

theorem forall₂_list {f : α → Json} {xs : List α} {ys : List Json}
    (h : ∀ x ∈ xs, Reads read (f x) x) (hys : List.Forall₂ Reordered (xs.map f) ys) :
    List.Forall₂ (fun y x => read y = some x) ys xs := by
  induction xs generalizing ys with
  | nil =>
    cases hys
    exact .nil
  | cons x xs ih =>
    obtain ⟨y, rest, hy, hrest, rfl⟩ := List.forall₂_cons_left_iff.1 hys
    exact .cons (h x List.mem_cons_self y hy)
      (ih (fun x hx => h x (List.mem_cons_of_mem _ hx)) hrest)

theorem Reads.list {f : α → Json} {xs : List α} (h : ∀ x ∈ xs, Reads read (f x) x) :
    Reads (readList read) (list f xs) xs := by
  intro j hj
  obtain ⟨ys, rfl, hys⟩ := hj.of_array
  exact mapM_of_forall₂ (forall₂_list h hys)

theorem Reads.pair {first : Json → Option α} {second : Json → Option β} {x y : Json} {a : α} {b : β}
    (ha : Reads first x a) (hb : Reads second y b) :
    Reads (readPair first second) (.array [x, y]) (a, b) := by
  intro j hj
  obtain ⟨_, rfl, hx⟩ := hj.of_array
  obtain ⟨x', _, hx', hy, rfl⟩ := List.forall₂_cons_left_iff.1 hx
  obtain ⟨y', _, hy', hend, rfl⟩ := List.forall₂_cons_left_iff.1 hy
  cases hend
  rw [readPair, ha x' hx', hb y' hy']
  rfl

/-! ### Maps -/

/-- The members of a written map, in their own order, read as its entries. -/
theorem forall₂_ofMap {readKey : String → Option κ} {read : Json → Option ν} {key : κ → String}
    {value : ν → Json} {entries : List (κ × ν)} {values : List Json}
    (hkey : ∀ e ∈ entries, readKey (key e.1) = some e.1)
    (hvalue : ∀ e ∈ entries, Reads read (value e.2) e.2)
    (h : List.Forall₂ Reordered ((entries.map fun e => (key e.1, value e.2)).map (·.2)) values) :
    List.Forall₂ (fun m e => (do return (← readKey m.1, ← read m.2)) = some e)
      (((entries.map fun e => (key e.1, value e.2)).map (·.1)).zip values) entries := by
  induction entries generalizing values with
  | nil =>
    cases h
    exact .nil
  | cons e entries ih =>
    obtain ⟨w, rest, hw, hrest, rfl⟩ := List.forall₂_cons_left_iff.1 h
    refine .cons ?_ (ih (fun e he => hkey e (List.mem_cons_of_mem _ he))
      (fun e he => hvalue e (List.mem_cons_of_mem _ he)) hrest)
    rw [hkey e List.mem_cons_self, hvalue e List.mem_cons_self w hw]
    rfl

section Maps

variable [Ord κ] [Std.TransOrd κ] [Std.LawfulEqOrd κ] [DecidableEq κ]

/-- A map reads back, whatever the order of its keys as texts, when its keys and values do. -/
theorem Reads.ofMap {readKey : String → Option κ} {read : Json → Option ν} {key : κ → String}
    {value : ν → Json} {m : SortedMap κ ν}
    (hkey : ∀ e ∈ m.entries, readKey (key e.1) = some e.1)
    (hvalue : ∀ e ∈ m.entries, Reads read (value e.2) e.2) :
    Reads (readMap readKey read) (ofMap key value m) m := by
  intro j hj
  obtain ⟨ns, values, rfl, hvalues, hperm⟩ := hj.of_object
  obtain ⟨l, hl, hentries⟩ :=
    List.perm_comp_forall₂ hperm (forall₂_ofMap hkey hvalue hvalues)
  rw [readMap, mapM_of_forall₂ hl, Option.map_some, SortedMap.ofList_of_perm hentries]

end Maps

/-! ### Records -/

/-- The members of the object are among the fields, each of them in some order. -/
def Fields.Holds (fs : Fields) (ms : List (String × Json)) : Prop :=
  ∀ name v, memberIn name ms = some v → ∃ w, memberIn name fs.found = some w ∧ v.Reordered w

namespace Fields.Holds

variable {fs : Fields} {ms : List (String × Json)} {name : String} {v : Json} {a : α}

theorem required (h : fs.Holds ms) (hv : memberIn name ms = some v) (ha : Reads read v a) :
    fs.required name read = some a := by
  obtain ⟨w, hw, hvw⟩ := h name v hv
  rw [Fields.required, hw]
  exact ha w hvw

theorem optional {o : Option α} (h : fs.Holds ms) (hv : memberIn name ms = some v)
    (ho : Reads (readOption read) v o) : fs.optional name read = some o := by
  obtain ⟨w, hw, hvw⟩ := h name v hv
  rw [Fields.optional, hw]
  exact ho w hvw

end Fields.Holds

/-- An object with the declared fields as its members has them in any order. -/
theorem exists_fields {ms : List (String × Json)} {j : Json} (names : List String)
    (hnames : ms.map (·.1) = names) (hnodup : names.Nodup) (h : (Json.object ms).Reordered j) :
    ∃ ns, j = .object ns ∧ fields? names j = some ⟨ns, false⟩ ∧ Fields.Holds ⟨ns, false⟩ ms := by
  subst hnames
  obtain ⟨ns, rfl, hperm, hholds⟩ := h.exists_member hnodup
  have hknown : (ns.filter fun m => (ms.map (·.1)).contains m.1) = ns := by
    refine List.filter_eq_self.2 fun m hm => ?_
    rw [List.contains_iff_mem]
    exact hperm.mem_iff.1 (List.mem_map_of_mem hm)
  refine ⟨ns, rfl, ?_, hholds⟩
  rw [fields?, hknown, if_pos (hperm.nodup_iff.2 hnodup)]

/-- A record reads back when it does from its fields. -/
theorem Reads.record {ms : List (String × Json)} {names : List String}
    {make : Fields → Option α} {a : α} (hnames : ms.map (·.1) = names) (hnodup : names.Nodup)
    (h : ∀ fs : Fields, fs.Holds ms → make fs = some a) :
    Reads (fun j => (j.fields? names) >>= make) (.object ms) a := by
  intro j hj
  obtain ⟨ns, rfl, hfields, hholds⟩ := exists_fields names hnames hnodup hj
  dsimp only
  rw [hfields]
  exact h _ hholds

/-! ### Distinct names -/

@[simp] theorem namesDistinct_nat (n : Nat) : (Json.nat n).namesDistinct := rfl

@[simp] theorem namesDistinct_string (s : String) : (Json.string s).namesDistinct := rfl

@[simp] theorem namesDistinct_bool (b : Bool) : (Json.bool b).namesDistinct := rfl

theorem namesDistinct_option {f : α → Json} {o : Option α} (h : ∀ a, (f a).namesDistinct) :
    (option f o).namesDistinct := by
  cases o with
  | none => rfl
  | some a => exact h a

theorem namesDistinct_list {f : α → Json} {xs : List α} (h : ∀ x, (f x).namesDistinct) :
    (list f xs).namesDistinct := by
  simp [list, h]

/-- A written map has no two members of one name when its keys read back. -/
theorem namesDistinct_ofMap [Ord κ] [Std.TransOrd κ] (readKey : String → Option κ)
    {key : κ → String} {value : ν → Json} {m : SortedMap κ ν}
    (hkey : ∀ e ∈ m.entries, readKey (key e.1) = some e.1)
    (hvalue : ∀ e ∈ m.entries, (value e.2).namesDistinct) : (ofMap key value m).namesDistinct := by
  rw [ofMap, namesDistinct_object]
  constructor
  · rw [List.map_map, List.Nodup, List.pairwise_map]
    refine m.ascending.imp_of_mem fun {a b} ha hb hlt heq => ?_
    have hname : key a.1 = key b.1 := heq
    have hread := hkey a ha
    rw [hname, hkey b hb, Option.some.injEq] at hread
    rw [hread] at hlt
    simp at hlt
  · intro member hmember
    obtain ⟨e, he, rfl⟩ := List.mem_map.1 hmember
    exact hvalue e he

end TraceTree.Json
