import TraceTree.Proofs.SortedMap
import TraceTree.Recording

/-!
The steps of a recording and of its first steps. Main statements: every recording that is made has a
stack and code for each step (`complete_ofTrace`, `entered_ofTrace` and what follows them), and what
is known of a step that is kept does not depend on the steps that are cut off (`codeAt_truncated`,
`stackAt_truncated`).
-/
namespace TraceTree.Recording

variable {r : Recording} {n step : Nat}

/-! ### Stacks -/

/-- There is a stack for each step. A trace that is recorded has this, and all that is changed in a
recording or cut off keeps it. -/
def Complete (r : Recording) : Prop := r.stackAtStep.size = r.trace.length

theorem complete_ofTrace (trace : Trace) (entry : CodeAddress) : (ofTrace trace entry).Complete :=
  Array.size_replicate

theorem Complete.withCodeFrom (h : r.Complete) (step : Nat) (code : CodeAddress) :
    (r.withCodeFrom step code).Complete := h

theorem Complete.withStack (h : r.Complete) (step : Nat) (stack : List Nat) :
    (r.withStack step stack).Complete :=
  Array.size_setIfInBounds.trans h

theorem Complete.truncated (h : r.Complete) (n : Nat) : (r.truncated n).Complete := by
  show (r.stackAtStep.take n).size = (r.trace.steps.take n).length
  rw [Array.take_eq_extract, Array.size_extract, h, List.length_take, Trace.length, Nat.sub_zero]

theorem Complete.exists_stack (h : r.Complete) (hstep : step < r.trace.length) :
    ∃ stack, r.stackAt step = .ok stack := by
  rw [← h] at hstep
  exact ⟨r.stackAtStep[step], by rw [stackAt, Array.getElem?_eq_getElem hstep]⟩

theorem stackAt_truncated (hstep : step < n) : (r.truncated n).stackAt step = r.stackAt step := by
  have hget : (r.truncated n).stackAtStep[step]? = r.stackAtStep[step]? := by
    show (r.stackAtStep.take n)[step]? = _
    rw [Array.take_eq_extract, Array.getElem?_extract, Nat.sub_zero, Nat.zero_add]
    split
    · rfl
    · rw [Array.getElem?_eq_none (by omega)]
  rw [stackAt, stackAt, hget]

/-! ### Code -/

/-- It is known which code runs first. A trace that is recorded has this, and all that is changed in
a recording or cut off keeps it. -/
def Entered (r : Recording) : Prop := (r.code.find? 0).isSome

theorem entered_ofTrace (trace : Trace) (entry : CodeAddress) : (ofTrace trace entry).Entered := by
  simp [Entered, ofTrace, SortedMap.find?_insert]

theorem Entered.withCodeFrom (h : r.Entered) (step : Nat) (code : CodeAddress) :
    (r.withCodeFrom step code).Entered := by
  rw [Entered, Recording.withCodeFrom, SortedMap.find?_insert]
  split_ifs
  · rfl
  · exact h

theorem Entered.withStack (h : r.Entered) (step : Nat) (stack : List Nat) :
    (r.withStack step stack).Entered := h

theorem Entered.truncated (h : r.Entered) (n : Nat) : (r.truncated n).Entered := by
  obtain ⟨code, hcode⟩ := Option.isSome_iff_exists.1 h
  rw [SortedMap.find?_eq_some_iff] at hcode
  have hkept : (r.truncated n).code.find? 0 = some code := by
    rw [SortedMap.find?_eq_some_iff]
    exact List.mem_filter.2 ⟨hcode, decide_eq_true (by omega)⟩
  simp [Entered, hkept]

/-- Some code runs at each step. -/
theorem Entered.exists_codeAt (h : r.Entered) (hstep : step < r.trace.length) :
    ∃ code, r.codeAt step = .ok code := by
  obtain ⟨first, hfirst⟩ := Option.isSome_iff_exists.1 h
  obtain ⟨e, he⟩ := SortedMap.exists_floor? hfirst
    (show (compare 0 step).isLE from Nat.isLE_compare.2 (Nat.zero_le step))
  exact ⟨e.2, by rw [codeAt, if_neg (Nat.not_le.2 hstep), he]⟩

theorem length_truncated (r : Recording) (n : Nat) :
    (r.truncated n).trace.length = min n r.trace.length :=
  List.length_take

theorem codeAt_truncated (hn : step < n) (hstep : step < r.trace.length) :
    (r.truncated n).codeAt step = r.codeAt step := by
  have hfloor : (r.truncated n).code.floor? step = r.code.floor? step := by
    refine SortedMap.floor?_filter fun k _ hk => ?_
    have hle : k ≤ step := Nat.isLE_compare.1 hk
    rw [decide_eq_true_eq]
    omega
  rw [codeAt, codeAt, length_truncated, if_neg (by omega), if_neg (by omega), hfloor]

/-- Where code runs there is code for the steps that follow. -/
theorem exists_codeAt_succ {code : CodeAddress} (h : r.codeAt step = .ok code)
    (hstep : step + 1 < r.trace.length) : ∃ code', r.codeAt (step + 1) = .ok code' := by
  rw [codeAt, if_neg (by omega)] at h
  rw [codeAt, if_neg (by omega)]
  cases hfloor : r.code.floor? step with
  | none =>
    rw [hfloor] at h
    cases h
  | some e =>
    obtain ⟨hfound, hle, -⟩ := SortedMap.floor?_spec hfloor
    obtain ⟨e', he'⟩ := SortedMap.exists_floor? hfound
      (show (compare e.1 (step + 1)).isLE from
        Nat.isLE_compare.2 (Nat.le_succ_of_le (Nat.isLE_compare.1 hle)))
    exact ⟨e'.2, by rw [he']⟩

end TraceTree.Recording
