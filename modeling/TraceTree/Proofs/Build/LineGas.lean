import TraceTree.Proofs.Build.Locations
import TraceTree.Proofs.Build.GasAttribution
import TraceTree.Proofs.Build.Untouched
import TraceTree.Proofs.CallTree.LineGas

/-!
The gas of source lines in a finished tree. A step is charged to its line once, when its location is
recorded; a step that is taken up again inside of a constructor is not (`gasPerLine_step`). Main
statement: when lines are tracked each has exactly the steps that are shown there, and what these
cost; when they are not, or without a converter, no line has gas (`build_lineGas`).
-/
namespace TraceTree

namespace Build

/-! ### Lines over a step -/

namespace Pass

variable {p q : Pass} {src : Sources} {site : Site}

theorem untouched_gasPerLine : Untouched fun p => p.tree.gasPerLine where
  scopes _ _ := rfl
  openScope _ _ := rfl
  closeScope _ _ _ := rfl
  creditGas _ _ _ := rfl
  addActivation _ _ := rfl
  addVariable p r := by
    rw [CallTree.addVariable]
    split <;> rfl

theorem gasPerLine_observe (p : Pass) (src : Sources) (site : Site) :
    (p.observe src site).tree.gasPerLine =
      (chargeLine (p.tree.pushLocation (p.locationAt src site)) src site
        (p.locationAt src site)).gasPerLine := by
  rw [observe]
  exact untouched_gasPerLine.noteValid _ site

theorem gasPerLine_track (p : Pass) (site : Site) :
    (p.track site).tree.gasPerLine = p.tree.gasPerLine := by
  rw [track]
  split
  · rfl
  · refine (untouched_gasPerLine.scopes { p with tree := p.tree.addBreakpoint site.step } _).trans ?_
    dsimp only
    rw [CallTree.addBreakpoint]
    split <;> rfl

theorem gasPerLine_await (p : Pass) (site : Site) :
    (p.await site).tree.gasPerLine = p.tree.gasPerLine := by
  rw [await]
  split
  · split <;> rfl
  · rfl

theorem gasPerLine_takeAwaited (p : Pass) (site : Site) :
    (p.takeAwaited site).1.tree.gasPerLine = p.tree.gasPerLine := by
  rw [takeAwaited]
  split
  · rfl
  · split
    · rfl
    · dsimp only
      split <;> rfl

/-- A step charges lines once, also when it is taken up a second time. -/
theorem gasPerLine_step (h : p.step src site = .ok q) :
    q.tree.gasPerLine =
      (chargeLine (p.tree.pushLocation (p.locationAt src site)) src site
        (p.locationAt src site)).gasPerLine := by
  have htaken : ((p.arrive src site).takeAwaited site).1.tree.gasPerLine =
      (p.observe src site).tree.gasPerLine := by
    rw [gasPerLine_takeAwaited, arrive, gasPerLine_await, gasPerLine_track]
  rw [← gasPerLine_observe, ← htaken]
  rcases step_cases h with ⟨r, hr, hadv⟩ | ⟨r, f, s, hr, hs, hadv⟩
  · rw [hr]
    exact untouched_gasPerLine.advance hadv
  · rw [hr]
    refine (untouched_gasPerLine.advance hadv).trans ((gasPerLine_track _ site).trans ?_)
    exact (untouched_gasPerLine.noteValid (s.credit site.gas) site).trans
      ((untouched_gasPerLine.credit s _).trans (untouched_gasPerLine.openFunction hs))

theorem chargeLine_of_tracked (htrack : src.options.trackGasPerLine) (t : CallTree) (site : Site)
    (l : StepLocation) :
    chargeLine (t.pushLocation l) src site l = t.chargeLast l site.step site.gas := by
  rw [chargeLine, CallTree.chargeLast, htrack]
  cases hfile : l.valid.file <;> cases hrange : l.lineColumn <;>
    simp [StepLocation.line?, hfile, hrange]

/-- Without a converter no location has a line. -/
theorem chargeLine_of_untracked (h : ¬ src.options.trackGasPerLine ∨ src.converter = none)
    (t : CallTree) (p : Pass) (site : Site) :
    chargeLine t src site (p.locationAt src site) = t := by
  rw [chargeLine]
  split
  · rename_i htrack hfile hrange
    rcases h with h | h
    · exact absurd htrack h
    · simp [locationAt, h] at hrange
  · rfl

end Pass

/-! ### Lines over all steps -/

section Lines

variable {src : Sources} {tree : CallTree} {pass : Nat → Pass} {i : Nat}

theorem Stage.linesCounted {p q : Pass} (st : Stage src i p q)
    (htrack : src.options.trackGasPerLine) (hsize : p.tree.locations.size = i)
    (h : p.tree.LinesCounted src.context.trace.costAt) :
    q.tree.LinesCounted src.context.trace.costAt := by
  have hnote := h.note (p.locationAt src st.site)
  have hgas := gas_eq_costAt st.isSite
  obtain ⟨hstep, -⟩ := st.isSite.spec
  have hcharge := Pass.chargeLine_of_tracked htrack p.tree st.site (p.locationAt src st.site)
  rw [hstep] at hcharge
  rw [hsize, ← hgas, ← hcharge] at hnote
  refine hnote.congr (Pass.gasPerLine_step st.steps) ?_
  rw [st.locations, Pass.locations_chargeLine]
  rfl

theorem History.linesCounted (hist : History src tree pass)
    (htrack : src.options.trackGasPerLine) (hi : i ≤ src.context.trace.length) :
    (pass i).tree.LinesCounted src.context.trace.costAt := by
  induction i with
  | zero =>
    obtain ⟨root, -, hstart⟩ := hist.start
    rw [hstart]
    exact ⟨fun _ _ => rfl, rfl⟩
  | succ i ih =>
    obtain ⟨st⟩ := hist.stage hi
    have hle := Nat.le_of_succ_le hi
    exact st.linesCounted htrack (hist.size_locations hle) (ih hle)

/-- The end of the trace changes neither lines nor locations. -/
theorem History.lines_tree (hist : History src tree pass) :
    tree.gasPerLine = (pass src.context.trace.length).tree.gasPerLine ∧
      tree.locations = (pass src.context.trace.length).tree.locations := by
  rw [← hist.finish]
  exact ⟨Pass.untouched_gasPerLine.closeAll (pass src.context.trace.length) _ _,
    Pass.locations_closeAll _ _ _⟩

theorem History.linesCounted_tree (hist : History src tree pass)
    (htrack : src.options.trackGasPerLine) : tree.LinesCounted src.context.trace.costAt :=
  (hist.linesCounted htrack (le_refl _)).congr hist.lines_tree.1 hist.lines_tree.2

/-- Where lines are not tracked or there is no converter no line is charged. -/
theorem History.gasPerLine_eq_empty (hist : History src tree pass)
    (h : ¬ src.options.trackGasPerLine ∨ src.converter = none)
    (hi : i ≤ src.context.trace.length) : (pass i).tree.gasPerLine = ∅ := by
  induction i with
  | zero =>
    obtain ⟨root, -, hstart⟩ := hist.start
    rw [hstart]
    rfl
  | succ i ih =>
    obtain ⟨st⟩ := hist.stage hi
    rw [Pass.gasPerLine_step st.steps, Pass.chargeLine_of_untracked h]
    exact ih (Nat.le_of_succ_le hi)

/-- The gas of lines is told by the locations of steps. When lines are tracked, a line has gas
exactly if some step is shown there; it has just those steps in their order, and what they cost
together. Hence no step counts for two lines, and all lines together have what the steps with a line
cost. Sums are taken in 64 bits. When lines are not tracked or cannot be told there are none. -/
theorem build_lineGas (src : Sources) (tree : CallTree) (h : src.build = .ready tree) :
    (src.options.trackGasPerLine →
      (∀ file line, ((tree.lineGas? file line).isSome ↔ ∃ s, tree.RunsLine s file line) ∧
        ∀ g, tree.lineGas? file line = some g → g.steps.toList.Pairwise (· < ·) ∧
          (∀ s, s ∈ g.steps ↔ tree.RunsLine s file line) ∧
            g.gasCost = (g.steps.toList.map src.context.trace.costAt).sum % Text.bound64) ∧
      (∀ s file line g file' line' g', tree.lineGas? file line = some g → s ∈ g.steps →
        tree.lineGas? file' line' = some g' → s ∈ g'.steps → file = file' ∧ line = line') ∧
      tree.lineGasTotal = (∑ s ∈ Finset.range src.context.trace.length with
        ∃ file line, tree.RunsLine s file line, src.context.trace.costAt s) % Text.bound64) ∧
    (¬ src.options.trackGasPerLine ∨ src.converter = none → tree.gasPerLine = ∅) := by
  obtain ⟨pass, hist⟩ := exists_history h
  refine ⟨fun htrack => ?_, fun hnone => ?_⟩
  · have hcounted := hist.linesCounted_tree htrack
    have hcount : tree.locations.size = src.context.trace.length := by
      rw [hist.lines_tree.2]
      exact hist.size_locations (le_refl _)
    refine ⟨fun file line => ⟨hcounted.isSome_iff, fun g hg => ?_⟩, ?_, ?_⟩
    · obtain ⟨hsteps, hgas⟩ := hcounted.of_lineGas? hg
      rw [hsteps]
      refine ⟨tree.pairwise_stepsOn file line, fun s => ?_, hgas⟩
      rw [← Array.mem_toList_iff, hsteps, CallTree.mem_stepsOn]
    · intro s file line g file' line' g' hg hs hg' hs'
      rw [← Array.mem_toList_iff, (hcounted.of_lineGas? hg).1, CallTree.mem_stepsOn] at hs
      rw [← Array.mem_toList_iff, (hcounted.of_lineGas? hg').1, CallTree.mem_stepsOn] at hs'
      exact hs.unique hs'
    · rw [← hcount]
      exact hcounted.total_eq
  · rw [hist.lines_tree.1]
    exact hist.gasPerLine_eq_empty hnone (le_refl _)

end Lines

theorem build_lineGas_cross : ∃ tree g plain, crossSources.build = .ready tree ∧
    tree.lineGas? 0 2 = some g ∧ (∀ s, s ∈ g.steps ↔ tree.RunsLine s 0 2) ∧
      g.gasCost = (g.steps.toList.map crossSources.context.trace.costAt).sum % Text.bound64 ∧
        ({ crossSources with converter := none } : Sources).build = .ready plain ∧
          plain.gasPerLine = ∅ := by
  obtain ⟨tree, h⟩ := Outcome.exists_of_isReady isReady_cross
  have hready : ({ crossSources with converter := none } : Sources).build.isReady := by
    decide +kernel
  obtain ⟨plain, hplain⟩ := Outcome.exists_of_isReady hready
  have hline : crossSources.build.tree?.all (fun t => (t.lineGas? 0 2).isSome) := by decide +kernel
  rw [h, Outcome.tree?, Option.all_some] at hline
  obtain ⟨g, hg⟩ := Option.isSome_iff_exists.1 hline
  obtain ⟨htracked, -⟩ := build_lineGas crossSources tree h
  obtain ⟨-, hsteps, hgas⟩ := ((htracked rfl).1 0 2).2 g hg
  have hnone := (build_lineGas { crossSources with converter := none } plain hplain).2 (.inr rfl)
  exact ⟨tree, g, plain, h, hg, hsteps, hgas, hplain, hnone⟩

end Build

end TraceTree
