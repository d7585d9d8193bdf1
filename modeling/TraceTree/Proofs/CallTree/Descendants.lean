import TraceTree.Proofs.CallTree.PointQuery
import TraceTree.Proofs.Trace

/-!
What lies below a scope. The scopes are kept in the order of their ids, in which all that lies below
one id comes right after it in one stretch. Main statements: a scan of that stretch finds exactly
the scopes below an id (`WellFormed.descendants_eq`), and the gas of an id with all below it is the
sum over the scopes whose ids it contains, in 64 bits (`WellFormed.cumulativeGas_eq`).
-/
namespace TraceTree

/-! ### Stretches of a sorted map -/

/-- The entries before a key that is there, and those from it on. -/
theorem SortedMap.exists_split {κ ν : Type} [Ord κ] [Std.TransOrd κ] [Std.LawfulEqOrd κ]
    {m : SortedMap κ ν} {k : κ} {v : ν} (h : m.find? k = some v) :
    ∃ before after, m.entries = before ++ (k, v) :: after ∧
      m.entriesFrom k = (k, v) :: after ∧ (∀ e ∈ before, compare e.1 k = .lt) ∧
      ∀ e ∈ after, compare k e.1 = .lt := by
  obtain ⟨before, after, hsplit⟩ := List.append_of_mem (find?_eq_some_iff.1 h)
  have hasc := m.ascending
  rw [hsplit, List.pairwise_append, List.pairwise_cons] at hasc
  obtain ⟨-, ⟨hafter, -⟩, hbefore⟩ := hasc
  have hlt : ∀ e ∈ before, compare e.1 k = .lt := fun e he => hbefore e he _ List.mem_cons_self
  refine ⟨before, after, hsplit, ?_, hlt, fun e he => hafter e he⟩
  rw [entriesFrom, hsplit, List.dropWhile_append_of_pos fun e he => by rw [hlt e he]; rfl,
    List.dropWhile_cons_of_neg (by simp)]

namespace CallTree.WellFormed

variable {t : CallTree} {id : ScopeId} {s : Scope}

theorem key_eq (wf : t.WellFormed) {e : ScopeId × Scope} (he : e ∈ t.scopes.entries) :
    e.2.id = e.1 :=
  wf.keyed (SortedMap.find?_eq_some_iff.2 he)

/-- A choice among the scopes by their ids is one among the entries by their keys. -/
theorem filter_allScopes (wf : t.WellFormed) (P : ScopeId → Bool) :
    t.allScopes.filter (fun s => P s.id) = (t.scopes.entries.filter fun e => P e.1).map (·.2) := by
  rw [allScopes, SortedMap.values, List.filter_map]
  refine congrArg (List.map _) (List.filter_congr fun e he => ?_)
  rw [Function.comp_apply, wf.key_eq he]

/-- In the stretch after an id those below it come first. -/
theorem takeWhile_isAncestorOf {l : List (ScopeId × Scope)}
    (hl : l.Pairwise fun a b => compare a.1 b.1 = .lt) (hid : ∀ e ∈ l, compare id e.1 = .lt) :
    l.takeWhile (fun e => id.isAncestorOf e.1) = l.filter fun e => id.isAncestorOf e.1 := by
  refine SortedMap.takeWhile_eq_filter (hl.imp_of_mem fun {a b} ha _ hlt hb => ?_)
  have hpa := Ordering.isLE_of_eq_lt (hid a ha)
  have hab := Ordering.isLE_of_eq_lt hlt
  refine ScopeId.isAncestorOf_iff.2
    ⟨ScopeId.contains_of_between hpa hab (ScopeId.isAncestorOf_iff.1 hb).1, fun h => ?_⟩
  have := hid a ha
  simp [h] at this

/-- From an id that has a scope on come first that scope and then those below it. -/
theorem exists_entriesFrom (hs : t.scope? id = some s) : ∃ after,
    t.scopes.entriesFrom id = (id, s) :: after ∧
      after.takeWhile (fun e => id.isAncestorOf e.1) =
        t.scopes.entries.filter (fun e => id.isAncestorOf e.1) ∧
      t.scopes.entries.filter (fun e => id.contains e.1) =
        (id, s) :: t.scopes.entries.filter fun e => id.isAncestorOf e.1 := by
  obtain ⟨before, after, hsplit, hfrom, hbefore, hafter⟩ := SortedMap.exists_split hs
  have hasc := t.scopes.ascending
  rw [hsplit, List.pairwise_append, List.pairwise_cons] at hasc
  have hnil : before.filter (fun e => id.contains e.1) = [] :=
    List.filter_eq_nil_iff.2 fun e he => ScopeId.not_contains_of_lt (hbefore e he)
  have hnil' : before.filter (fun e => id.isAncestorOf e.1) = [] :=
    List.filter_eq_nil_iff.2 fun e he hin =>
      ScopeId.not_contains_of_lt (hbefore e he) (ScopeId.isAncestorOf_iff.1 hin).1
  have hsame : after.filter (fun e => id.contains e.1) =
      after.filter fun e => id.isAncestorOf e.1 := by
    refine List.filter_congr fun e he => ?_
    rw [Bool.eq_iff_iff, ScopeId.isAncestorOf_iff, iff_self_and]
    rintro - rfl
    simpa using hafter e he
  have hself : ((id, s) :: after).filter (fun e => id.isAncestorOf e.1) =
      after.filter fun e => id.isAncestorOf e.1 :=
    List.filter_cons_of_neg (by simp [ScopeId.isAncestorOf_iff])
  have hself' : ((id, s) :: after).filter (fun e => id.contains e.1) =
      (id, s) :: after.filter fun e => id.contains e.1 :=
    List.filter_cons_of_pos (by simp)
  refine ⟨after, hfrom, ?_, ?_⟩
  · rw [takeWhile_isAncestorOf hasc.2.1.2 hafter, hsplit, List.filter_append, hnil',
      List.nil_append, hself]
  · rw [hsplit, List.filter_append, List.filter_append, hnil, hnil', List.nil_append,
      List.nil_append, hself, hself', hsame]

/-- A scan from an id finds exactly the scopes below it. -/
theorem descendants_eq (wf : t.WellFormed) (id : ScopeId) :
    t.descendants id = t.allScopes.filter fun s => id.isAncestorOf s.id := by
  rw [filter_allScopes wf fun a => id.isAncestorOf a, descendants]
  congr 1
  cases hs : t.scope? id with
  | none =>
    -- Nothing lies below an id that has no scope.
    have hno : ∀ e ∈ t.scopes.entries, ¬ id.isAncestorOf e.1 := by
      intro e he hbelow
      have hfound : (t.scope? e.1).isSome := by
        rw [scope?, SortedMap.find?_eq_some_iff.2 he]
        rfl
      have hsome := wf.upward hfound (ScopeId.isAncestorOf_iff.1 hbelow).1
      rw [hs] at hsome
      cases hsome
    rw [List.filter_eq_nil_iff.2 hno, List.eq_nil_iff_forall_not_mem]
    intro e he
    have hbelow : id.isAncestorOf e.1 := by
      simpa using List.all_eq_true.1 List.all_takeWhile e he
    have hin := (List.takeWhile_sublist _).mem he
    exact hno e ((List.dropWhile_sublist _).mem ((List.drop_sublist _ _).mem hin)) hbelow
  | some s =>
    obtain ⟨after, hfrom, hbelow, -⟩ := exists_entriesFrom hs
    rw [hfrom, List.drop_one, List.tail_cons, hbelow]

/-- What an id contains that has no scope has none either. -/
theorem not_contains_of_scope?_eq_none (wf : t.WellFormed) (hs : t.scope? id = none) :
    ∀ s ∈ t.allScopes, ¬ id.contains s.id := by
  intro s hmem hin
  obtain ⟨a, ha⟩ := SortedMap.mem_values_iff.1 hmem
  rw [wf.keyed ha] at hin
  have hsome := wf.upward (show (t.scope? a).isSome by rw [scope?, ha]; rfl) hin
  rw [hs] at hsome
  cases hsome

/-- The gas of an id and of all below it is the sum over the scopes whose ids it contains. -/
theorem cumulativeGas_eq (wf : t.WellFormed) (id : ScopeId) :
    t.cumulativeGas id =
      ((t.allScopes.filter fun s => id.contains s.id).map (·.gasCost)).sum % Text.bound64 := by
  rw [← Gas.total_eq, cumulativeGas, wf.descendants_eq]
  cases hs : t.scope? id with
  | none =>
    have hno := wf.not_contains_of_scope?_eq_none hs
    have hbelow : ∀ s ∈ t.allScopes, ¬ id.isAncestorOf s.id :=
      fun s hmem hin => hno s hmem (ScopeId.isAncestorOf_iff.1 hin).1
    rw [List.filter_eq_nil_iff.2 hno, List.filter_eq_nil_iff.2 hbelow]
    rfl
  | some s =>
    obtain ⟨-, -, -, hcontains⟩ := exists_entriesFrom hs
    rw [filter_allScopes wf fun a => id.isAncestorOf a, filter_allScopes wf fun a => id.contains a,
      hcontains]
    rfl

end CallTree.WellFormed

end TraceTree
