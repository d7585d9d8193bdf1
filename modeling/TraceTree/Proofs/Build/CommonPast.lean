import TraceTree.Proofs.Build.Agreement
import TraceTree.Proofs.Build.LastValid
import TraceTree.Proofs.Build.Variables

/-!
Finished trees that have the passes before a step in common. What a tree knows of the steps before
that one it takes from the pass there: scopes that have started stay, with their variables up to
then and their activations, and end later if they are open (`History.exists_continues`). Main
statement: two such trees answer alike for the steps before (`CommonPast.innermost`,
`CommonPast.callStackAt_eq`, `CommonPast.localsAt_eq`).
-/
namespace TraceTree

/-- What a finished tree makes of a scope that there is before the step `k`. -/
structure Scope.Continues (k : Nat) (o s : Scope) : Prop where
  id : s.id = o.id
  kind : s.kind = o.kind
  code : s.code = o.code
  firstStep : s.firstStep = o.firstStep
  lastStep : ∃ l, s.lastStep = some l ∧ (o.lastStep = some l ∧ l < k ∨ o.lastStep = none ∧ k ≤ l)
  locals : ExtendsLocals k o.locals s.locals

/-- Two scopes that are the same up to the step `k`: they end together before it, or both go on. -/
structure Scope.SameBefore (k : Nat) (s s' : Scope) : Prop where
  id : s'.id = s.id
  kind : s'.kind = s.kind
  code : s'.code = s.code
  firstStep : s'.firstStep = s.firstStep
  lastStep : ∃ l l', s.lastStep = some l ∧ s'.lastStep = some l' ∧ (l' = l ∨ k ≤ l ∧ k ≤ l')
  locals : ∀ step, step < k → (s'.locals.values.filter fun r => r.declaredAt ≤ step) =
    s.locals.values.filter fun r => r.declaredAt ≤ step

theorem Scope.Continues.sameBefore {k : Nat} {o s s' : Scope} (h : o.Continues k s)
    (h' : o.Continues k s') : s.SameBefore k s' where
  id := h'.id.trans h.id.symm
  kind := h'.kind.trans h.kind.symm
  code := h'.code.trans h.code.symm
  firstStep := h'.firstStep.trans h.firstStep.symm
  lastStep := by
    obtain ⟨l, hl, hend⟩ := h.lastStep
    obtain ⟨l', hl', hend'⟩ := h'.lastStep
    refine ⟨l, l', hl, hl', ?_⟩
    rcases hend with ⟨ho, -⟩ | ⟨ho, hkl⟩
    · rcases hend' with ⟨ho', -⟩ | ⟨ho', -⟩
      · exact .inl (Option.some.inj (ho'.symm.trans ho))
      · rw [ho] at ho'
        cases ho'
    · rcases hend' with ⟨ho', -⟩ | ⟨-, hkl'⟩
      · rw [ho] at ho'
        cases ho'
      · exact .inr ⟨hkl, hkl'⟩
  locals _ hstep := (h'.locals.filter_values hstep).trans (h.locals.filter_values hstep).symm

theorem Scope.SameBefore.symm {k : Nat} {s s' : Scope} (h : s.SameBefore k s') :
    s'.SameBefore k s where
  id := h.id.symm
  kind := h.kind.symm
  code := h.code.symm
  firstStep := h.firstStep.symm
  lastStep := by
    obtain ⟨l, l', hl, hl', hend⟩ := h.lastStep
    exact ⟨l', l, hl', hl, hend.imp Eq.symm And.symm⟩
  locals step hstep := (h.locals step hstep).symm

theorem Scope.SameBefore.contains_eq {k step : Nat} {s s' : Scope} (h : s.SameBefore k s')
    (hstep : step ≤ k) : s'.contains step = s.contains step := by
  obtain ⟨l, l', hl, hl', rfl | ⟨hkl, hkl'⟩⟩ := h.lastStep
  · simp [contains, hl, hl', h.firstStep]
  · simp [contains, hl, hl', h.firstStep, hstep.trans hkl, hstep.trans hkl']

namespace Build.History

variable {src : Sources} {tree : CallTree} {pass : Nat → Pass} {k : Nat} {id : ScopeId} {o s : Scope}

/-- A scope that there is before a step is one of the finished tree. -/
theorem exists_continues (hist : History src tree pass) (wf : tree.WellFormed)
    (hk : k < src.context.trace.length) (ho : (pass k).tree.scope? id = some o) :
    ∃ s, tree.scope? id = some s ∧ o.Continues k s ∧
      tree.activation? id = (pass k).tree.activation? id := by
  have hgrows := hist.grows_tree hk
  have houtline := CallTree.outline_of_scope? rfl ho
  obtain ⟨s, hs, hlocals⟩ := hist.extendsLocals_tree hk.le id o ho
  obtain ⟨l, hl, -⟩ := wf.closed hs
  obtain ⟨r, hr, hid, hkind, hcode, hfirst, hlast⟩ := hgrows.exists_kept houtline
  have hrs : tree.skeleton.scopes id = some s.outline := CallTree.outline_of_scope? rfl hs
  rw [hr] at hrs
  cases hrs
  refine ⟨s, hs, ⟨hid, hkind, hcode, hfirst, ⟨l, hl, ?_⟩, hlocals⟩,
    hgrows.activations (Option.isSome_iff_exists.2 ⟨_, houtline⟩)⟩
  rcases hlast with hsame | ⟨hopen, m, hm, hend⟩
  · have hol : o.outline.lastStep = some l := by rw [← hsame]; exact hl
    exact .inl ⟨hol, ((hist.ordered hk.le).sound.nested.ended houtline hol).2⟩
  · replace hend : s.lastStep = some m := hend
    rw [hl] at hend
    cases hend
    exact .inr ⟨hopen, hm⟩

/-- A scope of the finished tree that starts before a step is there before it. -/
theorem exists_continued (hist : History src tree pass) (wf : tree.WellFormed)
    (hk : k < src.context.trace.length) (hs : tree.scope? id = some s) (hfirst : s.firstStep < k) :
    ∃ o, (pass k).tree.scope? id = some o ∧ o.Continues k s := by
  cases ho : (pass k).tree.scope? id with
  | none =>
    have hnone : (pass k).tree.skeleton.scopes id = none := by
      simp [CallTree.skeleton, ho]
    have hlate := ((hist.grows_tree hk).fresh hnone (CallTree.outline_of_scope? rfl hs)).1
    exact absurd hfirst (Nat.not_lt.2 hlate)
  | some o =>
    obtain ⟨r, hr, hcontinues, -⟩ := hist.exists_continues wf hk ho
    rw [hs] at hr
    cases hr
    exact ⟨o, rfl, hcontinues⟩

end Build.History

namespace Build

/-- Two reconstructions whose passes before the step `k` have the same scopes and activations. -/
structure CommonPast (src src' : Sources) (t t' : CallTree) (pass pass' : Nat → Pass) (k : Nat) :
    Prop where
  built : src.build = .ready t
  built' : src'.build = .ready t'
  hist : History src t pass
  hist' : History src' t' pass'
  inside : k < src.context.trace.length
  inside' : k < src'.context.trace.length
  scopes : (pass' k).tree.scopes = (pass k).tree.scopes
  activations : (pass' k).tree.activations = (pass k).tree.activations

namespace CommonPast

variable {src src' : Sources} {t t' : CallTree} {pass pass' : Nat → Pass} {k step : Nat}
  {id : ScopeId} {o s : Scope}

theorem symm (h : CommonPast src src' t t' pass pass' k) : CommonPast src' src t' t pass' pass k :=
  ⟨h.built', h.built, h.hist', h.hist, h.inside', h.inside, h.scopes.symm, h.activations.symm⟩

theorem wf (h : CommonPast src src' t t' pass pass' k) : t.WellFormed :=
  (wellFormed_of_build h.built).1

theorem lt_stepCount (h : CommonPast src src' t t' pass pass' k) : k < t.stepCount := by
  rw [(wellFormed_of_build h.built).2.2]
  exact h.inside

/-- A scope that starts before the step is in both trees. -/
theorem exists_scope (h : CommonPast src src' t t' pass pass' k) (hs : t.scope? id = some s)
    (hfirst : s.firstStep < k) :
    ∃ s', t'.scope? id = some s' ∧ s.SameBefore k s' ∧ t'.activation? id = t.activation? id := by
  obtain ⟨o, ho, hcontinues⟩ := h.hist.exists_continued h.wf h.inside hs hfirst
  obtain ⟨-, -, -, hactivation⟩ := h.hist.exists_continues h.wf h.inside ho
  have ho' : (pass' k).tree.scope? id = some o := by
    rw [CallTree.scope?, h.scopes]
    exact ho
  obtain ⟨s', hs', hcontinues', hactivation'⟩ := h.hist'.exists_continues h.symm.wf h.inside' ho'
  refine ⟨s', hs', hcontinues.sameBefore hcontinues', ?_⟩
  rw [hactivation', hactivation, CallTree.activation?, CallTree.activation?, h.activations]

theorem exists_contains (h : CommonPast src src' t t' pass pass' k) (hstep : step < k)
    (hs : t.scope? id = some s) (hcontains : s.contains step) :
    ∃ s', t'.scope? id = some s' ∧ s.SameBefore k s' ∧ s'.contains step ∧
      t'.activation? id = t.activation? id := by
  have hfirst : s.firstStep < k := by
    simp only [Scope.contains, Bool.and_eq_true, decide_eq_true_eq] at hcontains
    omega
  obtain ⟨s', hs', hsame, hactivation⟩ := h.exists_scope hs hfirst
  exact ⟨s', hs', hsame, (hsame.contains_eq hstep.le).trans hcontains, hactivation⟩

/-- The innermost scope around a step before is the same. -/
theorem scopeAt? (h : CommonPast src src' t t' pass pass' k) (hstep : step < k) :
    ∃ d d', t.scopeAt? step = some d ∧ t'.scopeAt? step = some d' ∧ t.Innermost step d ∧
      d.SameBefore k d' := by
  obtain ⟨d, hd, hin⟩ := h.wf.scopeAt?_innermost (hstep.trans h.lt_stepCount)
  obtain ⟨r, hr, hin'⟩ := h.symm.wf.scopeAt?_innermost (hstep.trans h.symm.lt_stepCount)
  obtain ⟨d', hd', hsame, hcovers, -⟩ := h.exists_contains hstep hin.found hin.covers
  have hinner : t'.Innermost step d' := by
    refine ⟨by rw [hsame.id, hd'], hcovers, fun {c s'} hs' hcontains => ?_⟩
    obtain ⟨s, hs, -, hcontains', -⟩ := h.symm.exists_contains hstep hs' hcontains
    rw [hsame.id]
    exact hin.deepest hs hcontains'
  rw [hin'.unique hinner] at hr
  exact ⟨d, d', hd, hr, hin, hsame⟩

/-- The functions that run at a step before are the same. -/
theorem callStackAt_eq (h : CommonPast src src' t t' pass pass' k) (hstep : step < k) :
    t'.callStackAt step = t.callStackAt step := by
  obtain ⟨d, d', hd, hd', hin, hsame⟩ := h.scopeAt? hstep
  rw [CallTree.callStackAt, CallTree.callStackAt, hd, hd']
  dsimp only
  rw [CallTree.activationsOutward_eq, CallTree.activationsOutward_eq, hsame.id]
  refine List.filterMap_congr fun a ha => ?_
  obtain ⟨s, hs, hcontains⟩ := (h.wf.mem_outward_innermost hin).1 ha
  obtain ⟨-, -, -, -, hactivation⟩ := h.exists_contains hstep hs hcontains
  exact hactivation

/-- The variables to show at a step before are the same. -/
theorem localsAt_eq (h : CommonPast src src' t t' pass pass' k) (hstep : step < k) :
    t'.localsAt step = t.localsAt step := by
  obtain ⟨d, d', hd, hd', -, hsame⟩ := h.scopeAt? hstep
  rw [CallTree.localsAt, CallTree.localsAt, hd, hd']
  dsimp only
  rw [hsame.locals step hstep]

end CommonPast

end Build

end TraceTree
