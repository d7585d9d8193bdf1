import Mathlib.Data.List.Induction
import Mathlib.Data.List.Nodup
import TraceTree.CallTree.Query
import TraceTree.Proofs.SortedMap

/-!
The variables of a tree against the list of all that were registered. The index by declaration keeps
no record but a scope and a name, so it finds the right one only as long as no name of a scope is
used again. Main statement: registering a variable under a free name keeps the tree in step with the
list (`Recorded.addVariable`), and then the index answers with the last record of a declaration
(`Recorded.variableById?_eq`).
-/
namespace TraceTree.CallTree

/-- The variable of that name in a scope. -/
def local? (t : CallTree) (id : ScopeId) (name : String) : Option VariableRecord :=
  ((t.scope? id).map (·.locals)).bind fun m => m.find? name

/-- The last of the records that were made for a declaration. -/
def lastRecord? (records : List VariableRecord) (declaration : Nat) : Option VariableRecord :=
  (records.filter fun r => r.astId = some declaration).getLast?

section

variable {records more : List VariableRecord} {r : VariableRecord} {i : Nat}

theorem lastRecord?_append (records more : List VariableRecord) (i : Nat) :
    lastRecord? (records ++ more) i = (lastRecord? more i).or (lastRecord? records i) := by
  rw [lastRecord?, List.filter_append, List.getLast?_append]
  rfl

theorem lastRecord?_singleton (r : VariableRecord) (i : Nat) :
    lastRecord? [r] i = if r.astId = some i then some r else none := by
  rw [lastRecord?, List.filter_singleton]
  split <;> simp [*]

theorem lastRecord?_eq_some (h : lastRecord? records i = some r) :
    r ∈ records ∧ r.astId = some i := by
  have hmem := List.mem_filter.1 (List.mem_of_getLast? h)
  exact ⟨hmem.1, of_decide_eq_true hmem.2⟩

/-- Among records in the order in which they were made the last one of a declaration is the latest.
-/
theorem declaredAt_le_lastRecord? (h : records.Pairwise fun a b => a.declaredAt ≤ b.declaredAt)
    (hr : lastRecord? records i = some r) {r' : VariableRecord} (hmem : r' ∈ records)
    (hid : r'.astId = some i) : r'.declaredAt ≤ r.declaredAt := by
  obtain ⟨before, hsplit⟩ := List.getLast?_eq_some_iff.1 hr
  have hmade := h.filter fun r => r.astId = some i
  have hin : r' ∈ records.filter fun r => r.astId = some i :=
    List.mem_filter.2 ⟨hmem, decide_eq_true hid⟩
  rw [hsplit] at hmade hin
  rcases List.mem_append.1 hin with hin | hin
  · exact (List.pairwise_append.1 hmade).2.2 r' hin r (List.mem_singleton_self r)
  · exact Nat.le_of_eq (congrArg VariableRecord.declaredAt (List.mem_singleton.1 hin))

theorem isSome_lastRecord? : (lastRecord? records i).isSome ↔ ∃ r ∈ records, r.astId = some i := by
  rw [lastRecord?, List.getLast?_isSome, ne_eq, List.filter_eq_nil_iff]
  simp

end

theorem local?_of_scope? {t : CallTree} {id : ScopeId} {s : Scope} (hs : t.scope? id = some s)
    (name : String) : t.local? id name = s.locals.find? name := by
  rw [local?, hs]
  rfl

theorem local?_eq_none {t : CallTree} {id : ScopeId} (h : t.scope? id = none) (name : String) :
    t.local? id name = none := by
  rw [local?, h]
  rfl

theorem hasLocal_iff {t : CallTree} {id : ScopeId} {name : String} :
    t.hasLocal id name ↔ (t.local? id name).isSome := by
  rw [hasLocal, local?, ← scope?]
  cases t.scope? id <;> rfl

theorem variableById?_eq_bind (t : CallTree) (i : Nat) :
    t.variableById? i = (t.variableIndex.find? i).bind fun e => t.local? e.1 e.2 := by
  rw [variableById?]
  refine Option.bind_congr fun e _ => ?_
  rw [local?]
  show (t.scope? e.1 >>= fun s => s.locals.find? e.2) = _
  cases t.scope? e.1 <;> rfl

theorem local?_addVariable {t : CallTree} {r : VariableRecord} (h : (t.scope? r.scope).isSome)
    (id : ScopeId) (name : String) :
    (t.addVariable r).local? id name =
      if id = r.scope ∧ name = r.name then some r else t.local? id name := by
  obtain ⟨s, hs⟩ := Option.isSome_iff_exists.1 h
  have hfind : t.scopes.find? r.scope = some s := hs
  rw [addVariable, if_pos (show t.scopes.contains r.scope from h), local?, local?, scope?, scope?,
    SortedMap.find?_adjust]
  by_cases hid : id = r.scope
  · subst hid
    rw [if_pos rfl, hfind]
    show (s.locals.insert r.name r).find? name = _
    rw [SortedMap.find?_insert]
    simp
  · rw [if_neg hid, if_neg fun hboth => hid hboth.1]

theorem variableIndex_addVariable {t : CallTree} {r : VariableRecord}
    (h : (t.scope? r.scope).isSome) (i : Nat) :
    (t.addVariable r).variableIndex.find? i =
      if r.astId = some i then some (r.scope, r.name) else t.variableIndex.find? i := by
  rw [addVariable, if_pos (show t.scopes.contains r.scope from h)]
  cases r.astId with
  | none => simp
  | some j =>
    show (t.variableIndex.insert j (r.scope, r.name)).find? i = _
    rw [SortedMap.find?_insert]
    exact if_congr (eq_comm.trans (Option.some_inj).symm) rfl rfl

theorem isSome_scope?_addVariable {t : CallTree} {id : ScopeId} (h : (t.scope? id).isSome)
    (r : VariableRecord) : ((t.addVariable r).scope? id).isSome := by
  rw [addVariable]
  split
  · rw [scope?, SortedMap.find?_adjust]
    split
    · rw [Option.isSome_map]
      exact h
    · exact h
  · exact h

/-! ### Variables of one scope, in order -/

/-- The last of the records that were made under a name. -/
def lastNamed? (records : List VariableRecord) (name : String) : Option VariableRecord :=
  (records.filter fun r => r.name = name).getLast?

section

variable {t : CallTree} {id : ScopeId} {records : List VariableRecord} {r : VariableRecord}

theorem addVariables_concat (t : CallTree) (records : List VariableRecord) (r : VariableRecord) :
    t.addVariables (records ++ [r]) = (t.addVariables records).addVariable r := by
  rw [addVariables, List.foldl_append]
  rfl

theorem isSome_scope?_addVariables (h : (t.scope? id).isSome) (records : List VariableRecord) :
    ((t.addVariables records).scope? id).isSome := by
  induction records using List.reverseRecOn with
  | nil => exact h
  | append_singleton records r ih =>
    rw [addVariables_concat]
    exact isSome_scope?_addVariable ih r

theorem lastNamed?_concat (records : List VariableRecord) (r : VariableRecord) (name : String) :
    lastNamed? (records ++ [r]) name =
      if r.name = name then some r else lastNamed? records name := by
  rw [lastNamed?, lastNamed?, List.filter_append, List.filter_singleton, List.getLast?_append]
  split <;> simp_all

/-- A name leads to the variable that was last registered under it. -/
theorem local?_addVariables (h : (t.scope? id).isSome) (hscope : ∀ r ∈ records, r.scope = id)
    (name : String) :
    (t.addVariables records).local? id name = (lastNamed? records name).or (t.local? id name) := by
  induction records using List.reverseRecOn with
  | nil => rfl
  | append_singleton records r ih =>
    rw [List.forall_mem_append, List.forall_mem_singleton] at hscope
    obtain ⟨hscope, rfl⟩ := hscope
    rw [addVariables_concat, local?_addVariable (isSome_scope?_addVariables h records),
      lastNamed?_concat, ih hscope]
    by_cases hname : r.name = name
    · rw [if_pos ⟨rfl, hname.symm⟩, if_pos hname]
      rfl
    · rw [if_neg fun hboth => hname hboth.2.symm, if_neg hname]

/-- A declaration leads to the place of the variable that it was last registered as. -/
theorem variableIndex_addVariables (h : (t.scope? id).isSome)
    (hscope : ∀ r ∈ records, r.scope = id) (i : Nat) :
    (t.addVariables records).variableIndex.find? i =
      ((lastRecord? records i).map fun r => (id, r.name)).or (t.variableIndex.find? i) := by
  induction records using List.reverseRecOn with
  | nil => rfl
  | append_singleton records r ih =>
    rw [List.forall_mem_append, List.forall_mem_singleton] at hscope
    obtain ⟨hscope, rfl⟩ := hscope
    rw [addVariables_concat, variableIndex_addVariable (isSome_scope?_addVariables h records),
      lastRecord?_append, lastRecord?_singleton, ih hscope]
    split <;> rfl

theorem isSome_lastNamed? (h : r ∈ records) : (lastNamed? records r.name).isSome := by
  rw [lastNamed?, List.getLast?_isSome, ne_eq, List.filter_eq_nil_iff]
  exact fun hnone => hnone r h (decide_eq_true rfl)

theorem local?_addVariables_of_mem (h : (t.scope? id).isSome) (hscope : ∀ r ∈ records, r.scope = id)
    (hr : r ∈ records) :
    (t.addVariables records).local? id r.name = lastNamed? records r.name := by
  rw [local?_addVariables h hscope]
  exact Option.or_of_isSome (isSome_lastNamed? hr)

/-- A declaration leads to the variable that was last registered under the name of its own. -/
theorem variableById?_addVariables (h : (t.scope? id).isSome)
    (hscope : ∀ r ∈ records, r.scope = id) {i : Nat} (hlast : lastRecord? records i = some r) :
    (t.addVariables records).variableById? i = lastNamed? records r.name := by
  rw [variableById?_eq_bind, variableIndex_addVariables h hscope, hlast]
  exact local?_addVariables_of_mem h hscope (lastRecord?_eq_some hlast).1

/-- Each item is the last one with its key exactly if no key comes twice. -/
theorem forall_getLast?_filter_iff {α κ : Type} [DecidableEq κ] {l : List α} (hl : l.Nodup)
    (key : α → κ) :
    (∀ a ∈ l, (l.filter fun b => key b = key a).getLast? = some a) ↔ (l.map key).Nodup := by
  constructor
  · intro h
    refine hl.map_on fun a ha b hb hkey => Option.some.inj ?_
    rw [← h a ha, ← h b hb, hkey]
  · intro h a ha
    have hmem : a ∈ l.filter fun b => key b = key a := List.mem_filter.2 ⟨ha, decide_eq_true rfl⟩
    obtain ⟨b, hb⟩ := Option.isSome_iff_exists.1 (List.getLast?_isSome.2 (List.ne_nil_of_mem hmem))
    obtain ⟨hb', hkey⟩ := List.mem_filter.1 (List.mem_of_getLast? hb)
    rw [hb, List.inj_on_of_nodup_map h hb' ha (of_decide_eq_true hkey)]

/-- Variables that are registered in one scope are all found under their names exactly if no two
have one name. -/
theorem forall_local?_addVariables_iff (h : (t.scope? id).isSome)
    (hscope : ∀ r ∈ records, r.scope = id) (hnodup : records.Nodup) :
    (∀ r ∈ records, (t.addVariables records).local? id r.name = some r) ↔
      (records.map (·.name)).Nodup := by
  rw [← forall_getLast?_filter_iff hnodup]
  exact forall₂_congr fun r hr => by rw [local?_addVariables_of_mem h hscope hr, lastNamed?]

/-- They are all found by their declarations exactly if besides no two are of one declaration. -/
theorem forall_variableById?_addVariables_iff (h : (t.scope? id).isSome)
    (hscope : ∀ r ∈ records, r.scope = id) (hnodup : records.Nodup)
    (hdeclared : ∀ r ∈ records, r.astId.isSome) :
    (∀ r ∈ records, r.astId.bind (t.addVariables records).variableById? = some r) ↔
      (records.map (·.astId)).Nodup ∧ (records.map (·.name)).Nodup := by
  have hfound : (records.map (·.astId)).Nodup → ∀ r ∈ records,
      r.astId.bind (t.addVariables records).variableById? = lastNamed? records r.name := by
    intro hids r hr
    obtain ⟨i, hi⟩ := Option.isSome_iff_exists.1 (hdeclared r hr)
    have hlast := (forall_getLast?_filter_iff hnodup _).2 hids r hr
    rw [hi] at hlast ⊢
    exact variableById?_addVariables h hscope hlast
  constructor
  · intro hall
    have hids : (records.map (·.astId)).Nodup := by
      refine hnodup.map_on fun a ha b hb hid => Option.some.inj ?_
      rw [← hall a ha, ← hall b hb, hid]
    refine ⟨hids, (forall_getLast?_filter_iff hnodup _).1 fun r hr => ?_⟩
    rw [← hall r hr, hfound hids r hr, lastNamed?]
  · rintro ⟨hids, hnames⟩ r hr
    rw [hfound hids r hr]
    exact (forall_getLast?_filter_iff hnodup _).2 hnames r hr

end

/-! ### All variables -/

/-- The tree has what was registered: each record stands in its scope under its name, and the index
has the place of the last one of each declaration. -/
structure Recorded (records : List VariableRecord) (t : CallTree) : Prop where
  found : ∀ {id name r}, t.local? id name = some r ↔ r ∈ records ∧ r.scope = id ∧ r.name = name
  index : ∀ i, t.variableIndex.find? i = (lastRecord? records i).map fun r => (r.scope, r.name)

namespace Recorded

variable {records more : List VariableRecord} {t t' : CallTree} {r : VariableRecord}

theorem congr (h : Recorded records t) (hlocals : ∀ id name, t'.local? id name = t.local? id name)
    (hindex : t'.variableIndex = t.variableIndex) : Recorded records t' :=
  ⟨fun {id name r} => by rw [hlocals]; exact h.found, fun i => by rw [hindex]; exact h.index i⟩

/-- A variable whose name is free in its scope is registered beside the others. -/
theorem addVariable (h : Recorded records t) (hscope : (t.scope? r.scope).isSome)
    (hfree : t.local? r.scope r.name = none) : Recorded (records ++ [r]) (t.addVariable r) where
  found {id name r'} := by
    rw [local?_addVariable hscope, List.mem_append, List.mem_singleton]
    split
    · rename_i hkey
      obtain ⟨rfl, rfl⟩ := hkey
      rw [Option.some.injEq]
      constructor
      · rintro rfl
        exact ⟨.inr rfl, rfl, rfl⟩
      · rintro ⟨hmem | rfl, hid, hname⟩
        · rw [h.found.2 ⟨hmem, hid, hname⟩] at hfree
          cases hfree
        · rfl
    · rename_i hkey
      rw [h.found]
      constructor
      · rintro ⟨hmem, hid, hname⟩
        exact ⟨.inl hmem, hid, hname⟩
      · rintro ⟨hmem | rfl, rfl, rfl⟩
        · exact ⟨hmem, rfl, rfl⟩
        · exact absurd ⟨rfl, rfl⟩ hkey
  index i := by
    rw [variableIndex_addVariable hscope, lastRecord?_append, lastRecord?_singleton, h.index]
    split <;> simp

/-- Variables with names of their own are registered in order. -/
theorem addVariables (h : Recorded records t) (hscope : ∀ r ∈ more, (t.scope? r.scope).isSome)
    (hfree : ∀ r ∈ more, t.local? r.scope r.name = none)
    (hnames : more.Pairwise fun a b => a.scope = b.scope → a.name ≠ b.name) :
    Recorded (records ++ more) (t.addVariables more) := by
  rw [CallTree.addVariables]
  induction more generalizing records t with
  | nil => rwa [List.append_nil]
  | cons r more ih =>
    rw [List.forall_mem_cons] at hscope hfree
    rw [List.pairwise_cons] at hnames
    rw [List.append_cons, List.foldl_cons]
    refine ih (h.addVariable hscope.1 hfree.1) ?_ ?_ hnames.2
    · exact fun r' hr' => isSome_scope?_addVariable (hscope.2 r' hr') r
    · intro r' hr'
      rw [local?_addVariable hscope.1, if_neg, hfree.2 r' hr']
      rintro ⟨hid, hname⟩
      exact hnames.1 r' hr' hid.symm hname.symm

/-- The index answers with the last record of a declaration. -/
theorem variableById?_eq (h : Recorded records t) (i : Nat) :
    t.variableById? i = lastRecord? records i := by
  rw [variableById?_eq_bind, h.index]
  cases hlast : lastRecord? records i with
  | none => rfl
  | some r => exact h.found.2 ⟨(lastRecord?_eq_some hlast).1, rfl, rfl⟩

end Recorded

end TraceTree.CallTree
