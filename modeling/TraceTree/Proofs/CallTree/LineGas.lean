import Mathlib.Algebra.BigOperators.Group.Finset.Basic
import TraceTree.CallTree.Query
import TraceTree.Proofs.Trace

/-!
The gas of source lines against the locations of steps. Main statement: a location that comes in
together with its line keeps every line and the sum of all lines in agreement with the steps that
are shown there (`LinesCounted.note`).
-/
namespace TraceTree

/-! ### Lines of steps -/

/-- The file and the line at which a location is shown. -/
def StepLocation.line? (l : StepLocation) : Option (Nat × Nat) := do
  let file ← l.valid.file
  let range ← l.lineColumn
  return (file, range.start.line)

theorem StepLocation.line?_eq_some_iff {l : StepLocation} {file line : Nat} :
    l.line? = some (file, line) ↔
      l.valid.file = some file ∧ ∃ range, l.lineColumn = some range ∧ range.start.line = line := by
  cases hfile : l.valid.file <;> cases hrange : l.lineColumn <;> simp [line?, hfile, hrange]

namespace CallTree

/-- The file and the line at which a step is shown. -/
def lineAt? (t : CallTree) (step : Nat) : Option (Nat × Nat) :=
  (t.locationAt? step).bind StepLocation.line?

/-- The step is shown at that line of that file. -/
def RunsLine (t : CallTree) (step file line : Nat) : Prop :=
  ∃ l range, t.locationAt? step = some l ∧ l.valid.file = some file ∧
    l.lineColumn = some range ∧ range.start.line = line

/-- The steps that are shown at a line, in their order. -/
def stepsOn (t : CallTree) (file line : Nat) : List Nat :=
  (List.range t.locations.size).filter fun s => t.lineAt? s = some (file, line)

/-- The gas of all lines. -/
def lineGasTotal (t : CallTree) : Nat :=
  Gas.total (t.gasPerLine.values.map fun lines => Gas.total (lines.values.map (·.gasCost)))

variable {t t' : CallTree} {cost : Nat → Nat} {file line step gas : Nat} {l : StepLocation}

theorem runsLine_iff : t.RunsLine step file line ↔ t.lineAt? step = some (file, line) := by
  rw [lineAt?, Option.bind_eq_some_iff]
  simp only [StepLocation.line?_eq_some_iff, RunsLine]
  grind

theorem exists_runsLine_iff : (∃ file line, t.RunsLine step file line) ↔ (t.lineAt? step).isSome := by
  simp only [runsLine_iff, Option.isSome_iff_exists, Prod.exists]

instance (t : CallTree) : DecidablePred fun s => ∃ file line, t.RunsLine s file line :=
  fun _ => decidable_of_iff _ exists_runsLine_iff.symm

theorem RunsLine.unique {file' line' : Nat} (h : t.RunsLine step file line)
    (h' : t.RunsLine step file' line') : file = file' ∧ line = line' := by
  rw [runsLine_iff] at h h'
  simpa [h] using h'

theorem lineAt?_eq_none (h : t.locations.size ≤ step) : t.lineAt? step = none := by
  simp [lineAt?, locationAt?, h]

theorem mem_stepsOn : step ∈ t.stepsOn file line ↔ t.RunsLine step file line := by
  simp only [runsLine_iff, stepsOn, List.mem_filter, List.mem_range, decide_eq_true_eq,
    and_iff_right_iff_imp]
  intro h
  by_contra hle
  rw [lineAt?_eq_none (Nat.not_lt.1 hle)] at h
  cases h

theorem pairwise_stepsOn (t : CallTree) (file line : Nat) :
    (t.stepsOn file line).Pairwise (· < ·) :=
  List.pairwise_lt_range.filter _

theorem lineAt?_pushLocation (t : CallTree) (l : StepLocation) (step : Nat) :
    (t.pushLocation l).lineAt? step =
      if step = t.locations.size then l.line? else t.lineAt? step := by
  simp only [lineAt?, locationAt?, pushLocation, Array.getElem?_push]
  split_ifs <;> rfl

theorem stepsOn_pushLocation (t : CallTree) (l : StepLocation) (file line : Nat) :
    (t.pushLocation l).stepsOn file line =
      t.stepsOn file line ++ if l.line? = some (file, line) then [t.locations.size] else [] := by
  have hsize : (t.pushLocation l).locations.size = t.locations.size + 1 := Array.size_push l
  rw [stepsOn, hsize, List.range_succ, List.filter_append]
  congr 1
  · refine List.filter_congr fun s hs => ?_
    rw [lineAt?_pushLocation, if_neg (List.mem_range.1 hs).ne]
  · simp [List.filter_cons, lineAt?_pushLocation]

theorem stepsOn_addLineGas (t : CallTree) (file line step gas file' line' : Nat) :
    (t.addLineGas file line step gas).stepsOn file' line' = t.stepsOn file' line' := rfl

theorem lineGas?_addLineGas (t : CallTree) (file line step gas file' line' : Nat) :
    (t.addLineGas file line step gas).lineGas? file' line' =
      if (file', line') = (file, line) then
        some (((t.lineGas? file line).getD {}).add step gas)
      else t.lineGas? file' line' := by
  have hlines : ∀ line', ((t.gasPerLine.find? file).getD ∅).find? line' = t.lineGas? file line' := by
    intro line'
    cases h : t.gasPerLine.find? file with
    | none => rw [lineGas?, h]; rfl
    | some lines => rw [lineGas?, h]; rfl
  rw [lineGas?, addLineGas]
  dsimp only
  rw [SortedMap.find?_upsert]
  by_cases hfile : file' = file
  · subst hfile
    rw [if_pos rfl, Option.bind_some, SortedMap.find?_upsert, hlines, hlines]
    simp
  · simp [hfile, lineGas?]

theorem lineGasTotal_addLineGas (t : CallTree) (file line step gas : Nat) :
    (t.addLineGas file line step gas).lineGasTotal = Gas.add t.lineGasTotal gas := by
  refine SortedMap.total_upsert t.gasPerLine rfl (fun lines => ?_) file
  exact SortedMap.total_upsert lines (w := LineGas.gasCost) rfl (fun _ => rfl) line

end CallTree

/-! ### Lines counted from their steps -/

/-- What the steps of a line spend together; a line without steps is none. -/
def LineGas.ofSteps? (cost : Nat → Nat) (steps : List Nat) : Option LineGas :=
  if steps = [] then none
  else some { gasCost := Gas.total (steps.map cost), steps := steps.toArray }

theorem LineGas.isSome_ofSteps? {cost : Nat → Nat} {steps : List Nat} :
    (ofSteps? cost steps).isSome ↔ steps ≠ [] := by
  simp [ofSteps?]

theorem LineGas.ofSteps?_eq_some_iff {cost : Nat → Nat} {steps : List Nat} {g : LineGas} :
    ofSteps? cost steps = some g ↔
      steps ≠ [] ∧ { gasCost := Gas.total (steps.map cost), steps := steps.toArray } = g := by
  simp [ofSteps?]

theorem LineGas.ofSteps?_append (cost : Nat → Nat) (steps : List Nat) (step : Nat) :
    ofSteps? cost (steps ++ [step]) =
      some (((ofSteps? cost steps).getD {}).add step (cost step)) := by
  have hgas : Gas.total ((steps ++ [step]).map cost) =
      Gas.add (Gas.total (steps.map cost)) (cost step) := by
    rw [List.map_append, List.map_singleton, Gas.total_concat]
  rw [ofSteps?, if_neg (by simp), hgas]
  cases steps <;> simp [ofSteps?, add, Gas.total]

namespace CallTree

variable {t t' : CallTree} {cost : Nat → Nat}

/-- Every line has the steps that are shown there and what they cost, and all lines together have
what the steps with a line cost. -/
structure LinesCounted (cost : Nat → Nat) (t : CallTree) : Prop where
  lines : ∀ file line, t.lineGas? file line = LineGas.ofSteps? cost (t.stepsOn file line)
  total : t.lineGasTotal =
    (∑ s ∈ Finset.range t.locations.size, if (t.lineAt? s).isSome then cost s else 0) %
      Text.bound64

/-- A step that is located adds to what the steps with a line cost, when it has one. -/
theorem sum_pushLocation (t : CallTree) (l : StepLocation) (cost : Nat → Nat) :
    (∑ s ∈ Finset.range (t.pushLocation l).locations.size,
      if ((t.pushLocation l).lineAt? s).isSome then cost s else 0) =
    (∑ s ∈ Finset.range t.locations.size, if (t.lineAt? s).isSome then cost s else 0) +
      if l.line?.isSome then cost t.locations.size else 0 := by
  have hsize : (t.pushLocation l).locations.size = t.locations.size + 1 := Array.size_push l
  rw [hsize, Finset.sum_range_succ, lineAt?_pushLocation, if_pos rfl]
  congr 1
  refine Finset.sum_congr rfl fun s hs => ?_
  rw [lineAt?_pushLocation, if_neg (Finset.mem_range.1 hs).ne]

/-- Charges a step that was just located to its line, if it has one. -/
def chargeLast (t : CallTree) (l : StepLocation) (step gas : Nat) : CallTree :=
  match l.line? with
  | some (file, line) => (t.pushLocation l).addLineGas file line step gas
  | none => t.pushLocation l

namespace LinesCounted

variable {file line : Nat}

theorem isSome_iff (h : t.LinesCounted cost) :
    (t.lineGas? file line).isSome ↔ ∃ s, t.RunsLine s file line := by
  rw [h.lines, LineGas.isSome_ofSteps?, Ne, List.eq_nil_iff_forall_not_mem, not_forall_not]
  simp only [mem_stepsOn]

theorem of_lineGas? (h : t.LinesCounted cost) {g : LineGas} (hg : t.lineGas? file line = some g) :
    g.steps.toList = t.stepsOn file line ∧
      g.gasCost = ((t.stepsOn file line).map cost).sum % Text.bound64 := by
  rw [h.lines, LineGas.ofSteps?_eq_some_iff] at hg
  obtain ⟨-, rfl⟩ := hg
  exact ⟨rfl, Gas.total_eq _⟩

theorem total_eq (h : t.LinesCounted cost) : t.lineGasTotal =
    (∑ s ∈ Finset.range t.locations.size with ∃ file line, t.RunsLine s file line, cost s) %
      Text.bound64 := by
  rw [h.total, Finset.sum_filter]
  congr 1
  exact Finset.sum_congr rfl fun s _ => if_congr exists_runsLine_iff.symm rfl rfl

theorem congr (h : t.LinesCounted cost) (hgas : t'.gasPerLine = t.gasPerLine)
    (hlocations : t'.locations = t.locations) : t'.LinesCounted cost := by
  have hat : t'.lineAt? = t.lineAt? := by
    funext s
    rw [lineAt?, lineAt?, locationAt?, locationAt?, hlocations]
  refine ⟨fun file line => ?_, ?_⟩
  · rw [lineGas?, hgas, stepsOn, hlocations, hat]
    exact h.lines file line
  · rw [lineGasTotal, hgas, hlocations, hat]
    exact h.total

/-- The next step comes in with its location and is charged to its line. -/
theorem note (h : t.LinesCounted cost) (l : StepLocation) :
    (t.chargeLast l t.locations.size (cost t.locations.size)).LinesCounted cost := by
  have hsum := t.sum_pushLocation l cost
  have hsteps := t.stepsOn_pushLocation l
  rw [chargeLast]
  cases hline : l.line? with
  | none =>
    refine ⟨fun file line => ?_, ?_⟩
    · rw [hsteps, hline, if_neg (by simp), List.append_nil]
      exact h.lines file line
    · rw [hsum, hline, if_neg (by simp), Nat.add_zero]
      exact h.total
  | some found =>
    obtain ⟨file, line⟩ := found
    refine ⟨fun file' line' => ?_, ?_⟩
    · rw [lineGas?_addLineGas, stepsOn_addLineGas, hsteps, hline]
      by_cases hsame : (file', line') = (file, line)
      · cases hsame
        rw [if_pos rfl, if_pos rfl, LineGas.ofSteps?_append, ← h.lines]
        rfl
      · rw [if_neg hsame, if_neg (fun heq => hsame (Option.some.inj heq).symm), List.append_nil]
        exact h.lines file' line'
    · rw [hline, Option.isSome_some, if_pos rfl] at hsum
      rw [lineGasTotal_addLineGas]
      refine Eq.trans ?_ (congrArg (· % Text.bound64) hsum.symm)
      rw [← Gas.add_mod_left, ← h.total]
      rfl

end LinesCounted

end CallTree

end TraceTree
