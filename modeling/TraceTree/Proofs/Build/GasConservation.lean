import Mathlib.Order.Interval.Finset.Nat
import TraceTree.Proofs.Build.CallDepth
import TraceTree.Proofs.Build.GasAttribution
import TraceTree.Proofs.CallTree.Descendants

/-!
Gas over a whole call. A step is paid for by one scope, and that lies in exactly the call frames
that take the step: a constructor that pays for a step at which something opens inside of it has no
call frame around that step (`Payers.contains_payer_iff`). Main statement: no gas is lost and none
is counted twice, over the whole tree and over each call frame (`build_cumulativeGas`).
-/
namespace TraceTree

/-! ### Sums over steps -/

/-- What different payers pay together is what is paid by one of them. -/
theorem sum_payers {ids : List ScopeId} (hids : ids.Nodup) (cost : Nat → Nat)
    (payer : Nat → ScopeId) (n : Nat) :
    (ids.map fun id => ∑ t ∈ Finset.range n, if payer t = id then cost t else 0).sum =
      ∑ t ∈ Finset.range n, if payer t ∈ ids then cost t else 0 := by
  induction ids with
  | nil => simp
  | cons id ids ih =>
    rw [List.nodup_cons] at hids
    rw [List.map_cons, List.sum_cons, ih hids.2, ← Finset.sum_add_distrib]
    refine Finset.sum_congr rfl fun t _ => ?_
    by_cases hid : payer t = id
    · rw [if_pos hid, if_neg (hid ▸ hids.1), if_pos (List.mem_cons.2 (.inl hid)), Nat.add_zero]
    · rw [if_neg hid, Nat.zero_add]
      simp [hid]

namespace Build

/-! ### Call frames and the scopes that pay -/

section Frames

variable {src : Sources} {tree : CallTree} {pass : Nat → Pass} {payer : Nat → ScopeId} {t : Nat}
  {a b id : ScopeId} {r s : Scope}

/-- A call frame inside the body of a function starts after that body. -/
theorem History.firstStep_lt_of_contains (hist : History src tree pass)
    (hr : tree.scope? a = some r) (hbody : ¬ r.kind.isFrame) (hs : tree.scope? b = some s)
    (hframe : s.kind.isFrame) (hab : a.contains b)
    (hstep : r.firstStep < src.context.trace.length) : r.firstStep < s.firstStep := by
  have hordered := hist.ordered hstep.le
  have hgrows := hist.grows_tree hstep
  -- Before its first step the body is not there, so nothing is below its id.
  have hnone : (pass r.firstStep).tree.skeleton.scopes a = none := by
    cases ho : (pass r.firstStep).tree.skeleton.scopes a with
    | none => rfl
    | some o =>
      obtain ⟨o', ho', -, hkind, -, hfirst, -⟩ := hgrows.exists_kept ho
      rw [CallTree.outline_of_scope? rfl hr] at ho'
      cases ho'
      have hlt := hordered.framed.begun ho (hkind ▸ hbody)
      rw [← hfirst] at hlt
      exact absurd hlt (lt_irrefl _)
  have hnone' : (pass r.firstStep).tree.skeleton.scopes b = none := by
    rw [← Option.not_isSome_iff_eq_none]
    intro hb
    have ha := hordered.sound.numbered.upward hb hab
    rw [show (pass r.firstStep).layout.tree.scopes a = none from hnone] at ha
    cases ha
  exact (hgrows.fresh hnone' (CallTree.outline_of_scope? rfl hs)).2 hframe

/-- The scope that pays for a step lies in exactly the call frames that take the step. -/
theorem Payers.contains_payer_iff (pay : Payers src tree payer) (wf : tree.WellFormed)
    (hist : History src tree pass) (ht : t < src.context.trace.length)
    (hs : tree.scope? id = some s) (hframe : s.kind.isFrame) :
    id.contains (payer t) ↔ s.contains t := by
  constructor
  · intro hin
    obtain ⟨r, hr, hcov⟩ := pay.covers ht
    exact wf.contains_of_contains hs hr hin hcov
  · intro hcov
    rcases pay.innermost ht hs hcov with hin | ⟨hin, r, hr, hkind, rfl⟩
    · exact hin
    · have hbody : ¬ r.kind.isFrame := by
        rw [hkind]
        decide
      have hlt := hist.firstStep_lt_of_contains hr hbody hs hframe hin ht
      obtain ⟨l, -, hiff⟩ := wf.contains_iff hs
      exact absurd ((hiff _).1 hcov).1 (Nat.not_le.2 hlt)

/-- What some scopes pay together is the cost of the steps that one of them pays for. -/
theorem Payers.sum_filter (pay : Payers src tree payer) (wf : tree.WellFormed)
    (P : ScopeId → Bool) :
    ((tree.allScopes.filter fun s => P s.id).map (·.gasCost)).sum ≡
      ∑ t ∈ Finset.range src.context.trace.length,
        if P (payer t) then src.context.trace.costAt t else 0 [MOD Text.bound64] := by
  let ids := (tree.allScopes.filter fun s => P s.id).map (·.id)
  have hids : ids.Nodup := (nodup_ids wf).sublist (List.filter_sublist.map _)
  have hgas : ((tree.allScopes.filter fun s => P s.id).map (·.gasCost)).sum ≡
      (ids.map fun id => ∑ t ∈ Finset.range src.context.trace.length,
        if payer t = id then src.context.trace.costAt t else 0).sum [MOD Text.bound64] := by
    rw [List.map_map]
    refine Nat.ModEq.listSum_map fun s hs => ?_
    rw [pay.sums ((mem_allScopes wf).1 (List.mem_filter.1 hs).1)]
    exact Nat.mod_modEq _ _
  refine hgas.trans ?_
  rw [sum_payers hids]
  refine Nat.ModEq.sum fun t ht => ?_
  obtain ⟨r, hr, -⟩ := pay.covers (Finset.mem_range.1 ht)
  have hid := wf.keyed hr
  have hpays : payer t ∈ ids ↔ P (payer t) := by
    simp only [ids, List.mem_map, List.mem_filter, mem_allScopes wf]
    constructor
    · rintro ⟨s, ⟨-, hP⟩, hs⟩
      rwa [← hs]
    · intro hP
      exact ⟨r, ⟨hid.symm ▸ hr, hid.symm ▸ hP⟩, hid⟩
  rw [if_congr hpays rfl rfl]

/-- The gas of a tree is the cost of its trace, and the gas of a call frame with all below it is the
cost of the steps that it takes, all in 64 bits. -/
theorem build_cumulativeGas (src : Sources) (tree : CallTree) (h : src.build = .ready tree) :
    tree.totalGas = src.context.trace.totalCost ∧
    ∀ id s, tree.scope? id = some s → s.kind.isFrame → ∃ l, s.lastStep = some l ∧
      tree.cumulativeGas id =
        (∑ t ∈ Finset.Icc s.firstStep l, src.context.trace.costAt t) % Text.bound64 := by
  obtain ⟨wf, hpos, hcount⟩ := wellFormed_of_build h
  obtain ⟨pass, hist⟩ := exists_history h
  obtain ⟨payer, pay⟩ := exists_payers h
  constructor
  · have htotal := pay.sum_filter wf fun _ => true
    rw [List.filter_true] at htotal
    rw [CallTree.totalGas, Gas.total_eq, htotal, Trace.totalCost_eq_sum]
    simp only [if_true]
  · intro id s hs hframe
    obtain ⟨l, hl, -, hlast⟩ := wf.closed hs
    have hcontains : ∀ t, s.contains t ↔ s.firstStep ≤ t ∧ t ≤ l := by simp [Scope.contains, hl]
    refine ⟨l, hl, ?_⟩
    rw [wf.cumulativeGas_eq, pay.sum_filter wf fun a => id.contains a, ← Finset.sum_filter]
    refine congrArg (· % Text.bound64) (Finset.sum_congr (Finset.ext fun t => ?_) fun _ _ => rfl)
    rw [Finset.mem_filter, Finset.mem_range, Finset.mem_Icc, ← hcontains]
    constructor
    · rintro ⟨ht, hin⟩
      exact (pay.contains_payer_iff wf hist ht hs hframe).1 hin
    · intro hcov
      have hle := ((hcontains t).1 hcov).2
      have ht : t < src.context.trace.length := by omega
      exact ⟨ht, (pay.contains_payer_iff wf hist ht hs hframe).2 hcov⟩

end Frames

theorem build_cumulativeGas_call : ∃ tree id s l, callSources.build = .ready tree ∧
    tree.totalGas = callSources.context.trace.totalCost ∧ tree.scope? id = some s ∧
      s.kind = .externalCall ∧ s.lastStep = some l ∧ tree.cumulativeGas id =
        (∑ t ∈ Finset.Icc s.firstStep l, callSources.context.trace.costAt t) % Text.bound64 := by
  obtain ⟨tree, h⟩ := Outcome.exists_of_isReady isReady_call
  have hcall : callSources.build.tree?.all (fun t =>
      t.allScopes.any fun s => s.kind == .externalCall) := by decide +kernel
  rw [h, Outcome.tree?, Option.all_some, List.any_eq_true] at hcall
  obtain ⟨s, hmem, hkind⟩ := hcall
  rw [beq_iff_eq] at hkind
  obtain ⟨id, hs⟩ := SortedMap.mem_values_iff.1 hmem
  obtain ⟨htotal, hframes⟩ := build_cumulativeGas callSources tree h
  obtain ⟨l, hl, hgas⟩ := hframes id s hs (by rw [hkind]; rfl)
  exact ⟨tree, id, s, l, h, htotal, hs, hkind, hl, hgas⟩

end Build

end TraceTree
