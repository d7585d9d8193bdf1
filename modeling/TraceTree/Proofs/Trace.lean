import Mathlib.Algebra.BigOperators.Fin
import TraceTree.Proofs.SortedMap
import TraceTree.Trace

/-!
Amounts of gas, in lists, in maps and over a trace. Main statements: amounts that are added in 64
bits come to their sum modulo that bound (`Gas.total_eq`), so a change of one value of a map adds as
much to all of them as to that value (`SortedMap.total_upsert`), and a trace costs the sum of what
its steps cost (`Trace.totalCost_eq_sum`).
-/
namespace TraceTree

namespace Gas

/-- It makes no difference whether each sum is cut or the last one. -/
theorem total_eq (amounts : List Nat) : total amounts = amounts.sum % Text.bound64 := by
  induction amounts with
  | nil => rfl
  | cons amount rest ih =>
    rw [total, List.foldr_cons, ← total, ih, add, Nat.add_mod_mod, List.sum_cons]

example : total [Text.bound64 - 1, 3] = 2 := by decide

theorem total_concat (amounts : List Nat) (amount : Nat) :
    total (amounts ++ [amount]) = add (total amounts) amount := by
  rw [total_eq, total_eq, add_mod_left, List.sum_append, List.sum_singleton]

end Gas

namespace SortedMap

variable {κ ν : Type} [Ord κ]

/-- An entry counts in the place of the one with the same key. -/
theorem sum_insertIn [Std.TransOrd κ] [Std.LawfulEqOrd κ] {l : List (κ × ν)}
    (h : l.Pairwise fun a b => compare a.1 b.1 = .lt) (k : κ) (v : ν) (w : ν → Nat) :
    ((insertIn k v l).map fun e => w e.2).sum + ((findIn k l).map w).getD 0 =
      (l.map fun e => w e.2).sum + w v := by
  induction l with
  | nil => simp [insertIn, findIn]
  | cons e l ih =>
    rw [List.pairwise_cons] at h
    rw [insertIn]
    split
    · rename_i hlt
      have hnone : findIn k (e :: l) = none := by
        rw [Option.eq_none_iff_forall_ne_some]
        intro v' hv'
        rw [findIn_eq_some_iff (List.pairwise_cons.2 h)] at hv'
        rcases List.mem_cons.1 hv' with rfl | hmem
        · simp at hlt
        · have := Std.TransCmp.lt_trans hlt (h.1 _ hmem)
          simp at this
      simp only [hnone, List.map_cons, List.sum_cons, Option.map_none, Option.getD_none]
      omega
    · rename_i heq
      simp only [findIn, heq, if_true, List.map_cons, List.sum_cons, Option.map_some,
        Option.getD_some]
      omega
    · rename_i hgt
      have hne : compare k e.1 ≠ .eq := by simp [hgt]
      have := ih h.2
      simp only [findIn, if_neg hne, List.map_cons, List.sum_cons]
      omega

/-- A change that adds to the amount of a value, whatever it was, adds as much to all of them. -/
theorem total_upsert [Std.TransOrd κ] [Std.LawfulEqOrd κ] (m : SortedMap κ ν) {w : ν → Nat}
    {f : ν → ν} {v : ν} {n : Nat} (hv : w v = 0) (hf : ∀ u, w (f u) = Gas.add (w u) n) (k : κ) :
    Gas.total ((m.upsert k v f).values.map w) = Gas.add (Gas.total (m.values.map w)) n := by
  have hsum := sum_insertIn m.ascending k (f ((m.find? k).getD v)) w
  have hold : w ((m.find? k).getD v) = ((findIn k m.entries).map w).getD 0 := by
    rw [find?]
    cases findIn k m.entries <;> simp [hv]
  rw [hf, hold, Gas.add, Text.bound64] at hsum
  rw [Gas.total_eq, Gas.total_eq, Gas.add_mod_left, Text.bound64]
  simp only [values, List.map_map, Function.comp_def, upsert, insert]
  omega

end SortedMap

namespace Trace

theorem length_costs (steps : List TraceStep) : (costs steps).length = steps.length := by
  induction steps with
  | nil => rfl
  | cons s rest ih => simp [costs, ih]

/-- What a step costs stands at its place in the list of costs. -/
theorem costAt_eq_getElem? (t : Trace) (i : Nat) : t.costAt i = ((costs t.steps)[i]?).getD 0 := by
  unfold costAt
  induction t.steps generalizing i with
  | nil => simp [costs]
  | cons s rest ih =>
    cases i with
    | zero => simp [costs]
    | succ i => simpa [costs] using ih i

/-- The cost of a trace is the sum of the costs at its steps. -/
theorem totalCost_eq_sum (t : Trace) :
    t.totalCost = (∑ i ∈ Finset.range t.length, t.costAt i) % Text.bound64 := by
  have hlength : (costs t.steps).length = t.length := length_costs t.steps
  rw [totalCost, Gas.total_eq, ← Fin.sum_univ_getElem, ← hlength, Finset.sum_range]
  congr 1
  refine Finset.sum_congr rfl fun i _ => ?_
  rw [costAt_eq_getElem?, List.getElem?_eq_getElem i.isLt, Option.getD_some]

end Trace

end TraceTree
