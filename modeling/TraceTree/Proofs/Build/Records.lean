import TraceTree.Proofs.Build.History
import TraceTree.Proofs.Build.Untouched

/-!
What a pass keeps records of besides scopes: the constructors that have opened and the breakpoints.
Opening, closing and charging leave both alone (`sameRecords_advance`). Main statements: a step adds
to the constructors what it takes (`constructed_step`) and to the breakpoints at most itself
(`reducedTrace_step`), so the breakpoints of a finished tree before a step are those that were there
then (`History.filter_reducedTrace`).
-/
namespace TraceTree.Build

namespace Pass

/-- Two passes with the same constructors that have opened and the same breakpoints. -/
structure SameRecords (p q : Pass) : Prop where
  constructed : q.constructed = p.constructed
  reducedTrace : q.tree.reducedTrace = p.tree.reducedTrace

variable {p q r : Pass} {src : Sources} {site : Site}

theorem SameRecords.refl (p : Pass) : SameRecords p p := ⟨rfl, rfl⟩

theorem SameRecords.trans (hpq : SameRecords p q) (hqr : SameRecords q r) : SameRecords p r :=
  ⟨hqr.constructed.trans hpq.constructed, hqr.reducedTrace.trans hpq.reducedTrace⟩

/-! ### Changes that leave the records alone -/

theorem reducedTrace_chargeLine (t : CallTree) (src : Sources) (site : Site) (l : StepLocation) :
    (chargeLine t src site l).reducedTrace = t.reducedTrace := by
  rw [chargeLine]
  split <;> rfl

theorem reducedTrace_closeAll (t : CallTree) (scopes : List OpenScope) (lastStep : Nat) :
    (closeAll t scopes lastStep).reducedTrace = t.reducedTrace := by
  induction scopes generalizing t with
  | nil => rfl
  | cons s scopes ih => exact ih _

theorem untouched_records : Untouched fun p => (p.constructed, p.tree.reducedTrace) where
  scopes _ _ := rfl
  openScope _ _ := rfl
  closeScope _ _ _ := rfl
  creditGas _ _ _ := rfl
  addActivation _ _ := rfl
  addVariable p r := by
    rw [CallTree.addVariable]
    split <;> rfl

theorem SameRecords.of_eq
    (h : (q.constructed, q.tree.reducedTrace) = (p.constructed, p.tree.reducedTrace)) :
    SameRecords p q :=
  ⟨congrArg Prod.fst h, congrArg Prod.snd h⟩

theorem sameRecords_noteValid (p : Pass) (site : Site) : SameRecords p (p.noteValid site) :=
  .of_eq (untouched_records.noteValid p site)

theorem sameRecords_observe (p : Pass) (src : Sources) (site : Site) :
    SameRecords p (p.observe src site) := by
  rw [observe]
  refine .trans ?_ (sameRecords_noteValid _ site)
  exact ⟨rfl, reducedTrace_chargeLine _ _ _ _⟩

theorem sameRecords_await (p : Pass) (site : Site) : SameRecords p (p.await site) := by
  rw [await]
  split
  · split
    · exact ⟨rfl, rfl⟩
    · exact .refl p
  · exact .refl p

theorem constructed_track (p : Pass) (site : Site) : (p.track site).constructed = p.constructed := by
  rw [track]
  split <;> rfl

theorem reducedTrace_addBreakpoint (t : CallTree) (step : Nat) :
    (t.addBreakpoint step).reducedTrace = t.reducedTrace ∨
      (t.addBreakpoint step).reducedTrace = t.reducedTrace.push step := by
  rw [CallTree.addBreakpoint]
  split
  · exact .inl rfl
  · exact .inr rfl

theorem reducedTrace_track (p : Pass) (site : Site) :
    (p.track site).tree.reducedTrace = p.tree.reducedTrace ∨
      (p.track site).tree.reducedTrace = p.tree.reducedTrace.push site.step := by
  rw [track]
  split
  · exact .inl rfl
  · exact reducedTrace_addBreakpoint _ _

/-- A step that is the last breakpoint does not become one again. -/
theorem reducedTrace_track_of_back (p : Pass) (site : Site)
    (h : p.tree.reducedTrace.back? = some site.step) :
    (p.track site).tree.reducedTrace = p.tree.reducedTrace := by
  rw [track]
  split
  · rfl
  · show (p.tree.addBreakpoint site.step).reducedTrace = _
    rw [CallTree.addBreakpoint, if_pos h]

theorem sameRecords_credit (p : Pass) (gas : Nat) : SameRecords p (p.credit gas) := ⟨rfl, rfl⟩

theorem sameRecords_openFunction {f : FunctionDefinition} {kind : ScopeKind}
    (h : p.openFunction src site f kind = .ok q) : SameRecords p q :=
  .of_eq (untouched_records.openFunction h)

theorem sameRecords_advance {entry : Option Nat} {gas : Nat}
    (h : p.advance src site entry gas = .ok q) : SameRecords p q :=
  .of_eq (untouched_records.advance h)

/-! ### Steps -/

/-- A step adds to the constructors that have opened only the one that it takes. -/
theorem constructed_step (h : p.step src site = .ok q) :
    q.constructed = ((p.arrive src site).takeAwaited site).1.constructed := by
  rcases step_cases h with ⟨r, hr, hadv⟩ | ⟨r, f, s, hr, hs, hadv⟩
  · rw [hr, (sameRecords_advance hadv).constructed]
  · rw [hr, (sameRecords_advance hadv).constructed, constructed_track,
      (sameRecords_noteValid _ site).constructed, (sameRecords_credit s _).constructed,
      (sameRecords_openFunction hs).constructed]

theorem reducedTrace_takeAwaited (p : Pass) (site : Site) :
    (p.takeAwaited site).1.tree.reducedTrace = p.tree.reducedTrace := by
  rw [takeAwaited]
  split
  · rfl
  · split
    · rfl
    · dsimp only
      split <;> rfl

/-- A step adds to the breakpoints at most itself, and only once. -/
theorem reducedTrace_step (h : p.step src site = .ok q) :
    q.tree.reducedTrace = p.tree.reducedTrace ∨
      q.tree.reducedTrace = p.tree.reducedTrace.push site.step := by
  have htaken : ((p.arrive src site).takeAwaited site).1.tree.reducedTrace =
      ((p.observe src site).track site).tree.reducedTrace := by
    rw [reducedTrace_takeAwaited, arrive, (sameRecords_await _ site).reducedTrace]
  have htrack := reducedTrace_track (p.observe src site) site
  rw [(sameRecords_observe p src site).reducedTrace, ← htaken] at htrack
  rcases step_cases h with ⟨r, hr, hadv⟩ | ⟨r, f, s, hr, hs, hadv⟩
  · rw [hr] at htrack
    rw [(sameRecords_advance hadv).reducedTrace]
    exact htrack
  · rw [hr] at htrack
    have hinside : ((s.credit site.gas).noteValid site).tree.reducedTrace = r.tree.reducedTrace := by
      rw [(sameRecords_noteValid _ site).reducedTrace, (sameRecords_credit s _).reducedTrace,
        (sameRecords_openFunction hs).reducedTrace]
    rw [(sameRecords_advance hadv).reducedTrace]
    rcases htrack with hsame | hpush
    · rw [← hsame, ← hinside]
      exact reducedTrace_track _ site
    · -- The step is a breakpoint before the constructor opens.
      refine .inr ?_
      rw [reducedTrace_track_of_back _ site, hinside]
      · exact hpush
      · rw [hinside, show r.tree.reducedTrace = _ from hpush, Array.back?_push]

end Pass

/-! ### Breakpoints over all steps -/

namespace History

variable {src : Sources} {tree : CallTree} {pass : Nat → Pass} {i j : Nat}

/-- From one step to a later one come breakpoints among the steps in between. -/
theorem reducedTrace_append (hist : History src tree pass) (hij : i ≤ j)
    (hj : j ≤ src.context.trace.length) : ∃ l,
    (pass j).tree.reducedTrace.toList = (pass i).tree.reducedTrace.toList ++ l ∧
      ∀ x ∈ l, i ≤ x ∧ x < j := by
  induction j, hij using Nat.le_induction with
  | base => exact ⟨[], (List.append_nil _).symm, by simp⟩
  | succ j hij ih =>
    obtain ⟨l, hl, hmem⟩ := ih (Nat.le_of_succ_le hj)
    obtain ⟨st⟩ := hist.stage hj
    have hlt : ∀ x ∈ l, i ≤ x ∧ x < j + 1 := fun x hx =>
      ⟨(hmem x hx).1, (hmem x hx).2.trans (Nat.lt_succ_self j)⟩
    rcases Pass.reducedTrace_step st.steps with hsame | hpush
    · exact ⟨l, by rw [hsame, hl], hlt⟩
    · refine ⟨l ++ [j], ?_, ?_⟩
      · rw [hpush, st.isSite.spec.1, Array.toList_push, hl, List.append_assoc]
      · intro x hx
        rcases List.mem_append.1 hx with hx | hx
        · exact hlt x hx
        · rw [List.mem_singleton.1 hx]
          exact ⟨hij, Nat.lt_succ_self j⟩

theorem reducedTrace_tree (hist : History src tree pass) :
    tree.reducedTrace = (pass src.context.trace.length).tree.reducedTrace := by
  rw [← hist.finish]
  exact Pass.reducedTrace_closeAll _ _ _

/-- The breakpoints before a step are those that there are when the step is taken up. -/
theorem filter_reducedTrace (hist : History src tree pass) (hi : i ≤ src.context.trace.length) :
    (tree.reducedTrace.toList.filter fun x => x < i) = (pass i).tree.reducedTrace.toList := by
  obtain ⟨before, hbefore, hlt⟩ := hist.reducedTrace_append (Nat.zero_le i) hi
  obtain ⟨after, hafter, hge⟩ := hist.reducedTrace_append hi (le_refl _)
  obtain ⟨root, -, hstart⟩ := hist.start
  rw [hstart] at hbefore
  replace hbefore : (pass i).tree.reducedTrace.toList = before := hbefore
  rw [hist.reducedTrace_tree, hafter, List.filter_append, hbefore, List.filter_eq_self.2,
    List.filter_eq_nil_iff.2, List.append_nil]
  · intro x hx
    simpa using (hge x hx).1
  · intro x hx
    simpa using (hlt x hx).2

end History

end TraceTree.Build
