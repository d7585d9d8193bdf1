import TraceTree.Proofs.Build.Records
import TraceTree.Proofs.Build.Scene

/-!
A step that is taken up as if it were the last one. It is charged otherwise, and where it would call
or come back it goes on in its call frame, but what leads up to that does not look at the step that
follows. Main statement: where a step goes through and the stack is known, it does so as the last
one too, and then there are the same breakpoints (`Pass.exists_step_last`).
-/
namespace TraceTree.Build

/-- The step as the last one of a trace. -/
def Site.last (site : Site) : Site := { site with next := none }

namespace Pass

variable {p q r s : Pass} {src : Sources} {site : Site}

/-! ### Passes with the same scopes and records -/

/-- Two passes with the same open scopes, constructors and breakpoints. -/
structure Twins (p q : Pass) : Prop extends SameRecords p q where
  scopes : q.scopes = p.scopes
  awaited : q.awaited = p.awaited

theorem Twins.modifyScope (h : Twins p q) (f : OpenScope → OpenScope) :
    Twins (p.modifyScope f) (q.modifyScope f) where
  scopes := by rw [Pass.modifyScope, Pass.modifyScope, h.scopes]
  awaited := h.awaited
  constructed := h.constructed
  reducedTrace := h.reducedTrace

/-- What is charged makes no difference. -/
theorem Twins.credit (h : Twins p q) (gas gas' : Nat) : Twins (p.credit gas) (q.credit gas') :=
  ⟨⟨h.constructed, h.reducedTrace⟩, h.scopes, h.awaited⟩

theorem Twins.noteValid (h : Twins p q) (site : Site) :
    Twins (p.noteValid site) (q.noteValid site) := by
  rw [Pass.noteValid, Pass.noteValid]
  split
  · exact h.modifyScope _
  · exact h

theorem Twins.addBreakpoint (h : Twins p q) (step : Nat) :
    Twins { p with tree := p.tree.addBreakpoint step }
      { q with tree := q.tree.addBreakpoint step } := by
  refine ⟨⟨h.constructed, ?_⟩, h.scopes, h.awaited⟩
  dsimp only
  rw [CallTree.addBreakpoint, CallTree.addBreakpoint, h.reducedTrace]
  split
  · exact h.reducedTrace
  · rfl

theorem Twins.track (h : Twins p q) (site : Site) : Twins (p.track site) (q.track site) := by
  have htop : q.scopes.top = p.scopes.top := by rw [h.scopes]
  rw [Pass.track, Pass.track, htop]
  split
  · exact h
  · exact (h.addBreakpoint site.step).modifyScope _

theorem Twins.await (h : Twins p q) (site : Site) : Twins (p.await site) (q.await site) := by
  rw [Pass.await, Pass.await, h.awaited, h.constructed]
  split
  · split
    · exact ⟨⟨rfl, h.reducedTrace⟩, h.scopes, rfl⟩
    · exact h
  · exact h

theorem Twins.takeAwaited (h : Twins p q) (site : Site) :
    Twins (p.takeAwaited site).1 (q.takeAwaited site).1 ∧
      (q.takeAwaited site).2 = (p.takeAwaited site).2 := by
  rw [Pass.takeAwaited, Pass.takeAwaited, h.awaited]
  split
  · exact ⟨h, rfl⟩
  · split
    · exact ⟨h, rfl⟩
    · dsimp only
      split
      · exact ⟨⟨⟨congrArg (List.cons _) h.constructed, h.reducedTrace⟩, h.scopes, rfl⟩, rfl⟩
      · exact ⟨⟨⟨h.constructed, h.reducedTrace⟩, h.scopes, rfl⟩, rfl⟩

theorem twins_observe_last (p : Pass) (src : Sources) (site : Site) :
    Twins (p.observe src site) (p.observe src site.last) := by
  refine Twins.noteValid (p := { p with tree := chargeLine _ src site _ })
    (q := { p with tree := chargeLine _ src site.last _ }) ⟨⟨rfl, ?_⟩, rfl, rfl⟩ site
  rw [reducedTrace_chargeLine, reducedTrace_chargeLine]
  rfl

theorem twins_arrive_last (p : Pass) (src : Sources) (site : Site) :
    Twins (p.arrive src site) (p.arrive src site.last) :=
  ((twins_observe_last p src site).track site).await site

theorem Twins.openFunction {f : FunctionDefinition} {kind : ScopeKind} (h : Twins p q)
    (hr : p.openFunction src site f kind = .ok r) (hs : q.openFunction src site f kind = .ok s) :
    Twins r s := by
  have hrecords := sameRecords_openFunction hr
  have hrecords' := sameRecords_openFunction hs
  obtain ⟨r', hr', hr⟩ := bind_eq_ok.1 hr
  obtain ⟨s', hs', hs⟩ := bind_eq_ok.1 hs
  have hopened : s'.scopes = r'.scopes ∧ s'.awaited = r'.awaited := by
    rw [openScope, h.scopes] at hs'
    rw [openScope] at hr'
    dsimp only at hr' hs'
    split at hr'
    · cases hr'
    · rename_i hroom
      rw [if_neg hroom] at hs'
      cases hr'
      cases hs'
      exact ⟨rfl, h.awaited⟩
  obtain ⟨n, -, hr⟩ := bind_eq_ok.1 hr
  obtain ⟨m, -, hs⟩ := bind_eq_ok.1 hs
  cases hr
  cases hs
  refine ⟨⟨?_, ?_⟩, hopened.1, hopened.2⟩
  · rw [hrecords'.constructed, hrecords.constructed, h.constructed]
  · rw [hrecords'.reducedTrace, hrecords.reducedTrace, h.reducedTrace]

/-! ### Room for one more scope -/

theorem room_of_openScope {step firstStep : Nat} {kind : ScopeKind} {code : CodeAddress}
    {function : Option Nat} (h : p.openScope src step firstStep kind code function = .ok q) :
    p.scopes.size < src.options.maxScopeDepth := by
  rw [openScope] at h
  split at h
  · cases h
  · rename_i hroom
    exact Nat.not_le.1 hroom

theorem room_of_openFunction {f : FunctionDefinition} {kind : ScopeKind}
    (h : p.openFunction src site f kind = .ok q) : p.scopes.size < src.options.maxScopeDepth := by
  obtain ⟨r, hopen, -⟩ := bind_eq_ok.1 h
  exact room_of_openScope hopen

/-- Where a step advances to enter a function there is room for it. -/
theorem room_of_advance {entry : Option Nat} {gas : Nat} {f : FunctionDefinition}
    (h : p.advance src site entry gas = .ok q)
    (hf : entry.bind site.artifact.functionDefinition? = some f) (hbody : ¬ f.isConstructor) :
    p.scopes.size < src.options.maxScopeDepth := by
  rcases advance_cases h with ⟨-, -, hopen⟩ | ⟨-, r, opened, henter, -⟩
  · obtain ⟨callee, -, hopen⟩ := bind_eq_ok.1 hopen
    exact room_of_openScope (p := p.credit gas) hopen
  · rcases enter_cases henter with ⟨-, -, hconstructor⟩ | ⟨g, -, -, -, hopen⟩
    · exact absurd (hconstructor f hf) hbody
    · exact room_of_openFunction hopen

/-! ### Going on without a successor -/

theorem exists_finish {n : Nat} (hstack : src.stackLengthAt site.step = .ok n) :
    ∃ q, p.finish src site = .ok q := by
  rw [finish]
  split
  · exact ⟨_, rfl⟩
  · split
    · obtain ⟨q, hq, -⟩ := exists_declareLocals (p := p) hstack
      exact ⟨q, hq⟩
    · exact ⟨p, rfl⟩

theorem exists_enter {entry : Option Nat} {n : Nat} (hstack : src.stackLengthAt site.step = .ok n)
    (hroom : ∀ f, entry.bind site.artifact.functionDefinition? = some f → ¬ f.isConstructor →
      p.scopes.size < src.options.maxScopeDepth) :
    ∃ q opened, p.enter src site entry = .ok (q, opened) := by
  rw [enter]
  split
  · exact ⟨p, false, rfl⟩
  · rename_i f hf
    split
    · exact ⟨p, false, rfl⟩
    · rename_i hbody
      obtain ⟨q, hq, -⟩ : ∃ q, p.openFunction src site f .internalFunction = .ok q ∧
          q.awaited = p.awaited := exists_openFunction (hroom f hf hbody) hstack
      exact ⟨q, true, by rw [hq]; rfl⟩

theorem exists_advance_last {entry : Option Nat} {gas n : Nat} (gas' : Nat)
    (hscopes : s.scopes = r.scopes) (hstack : src.stackLengthAt site.step = .ok n)
    (h : r.advance src site entry gas = .ok q) :
    ∃ q', s.advance src site.last entry gas' = .ok q' := by
  obtain ⟨t, opened, henter⟩ : ∃ t opened, s.enter src site.last entry = .ok (t, opened) := by
    refine exists_enter hstack fun f hf hbody => ?_
    rw [hscopes]
    exact room_of_advance h hf hbody
  rw [advance_of_no_call (by simp [Site.last, Site.goesDeeper]), henter]
  cases opened with
  | true => exact ⟨_, rfl⟩
  | false => exact exists_finish hstack

/-- Where a step goes through it does so as the last one, and there are the same breakpoints. -/
theorem exists_step_last {n : Nat} (hstack : src.stackLengthAt site.step = .ok n)
    (h : p.step src site = .ok q) :
    ∃ q', p.step src site.last = .ok q' ∧ q'.tree.reducedTrace = q.tree.reducedTrace := by
  -- What is taken and what is entered is settled before the step that follows is looked at.
  obtain ⟨htwins, htake⟩ := (twins_arrive_last p src site).takeAwaited site
  have hentry : Pass.entry? (p.observe src site.last) site.last false =
      Pass.entry? (p.observe src site) site false := by
    rw [ entry?, entry?, (twins_observe_last p src site).scopes]
    rfl
  rcases step_cases h with ⟨r, hr, hadv⟩ | ⟨r, f, s, hr, hs, hadv⟩
  · rw [hr] at htwins htake
    obtain ⟨q', hq'⟩ := exists_advance_last site.last.gas htwins.scopes hstack hadv
    have hr' : (p.arrive src site.last).takeAwaited site.last =
        (((p.arrive src site.last).takeAwaited site).1, none) := Prod.ext rfl htake
    refine ⟨q', ?_, ?_⟩
    · rw [step_of_none hr', hentry]
      exact hq'
    · rw [(sameRecords_advance hq').reducedTrace, (sameRecords_advance hadv).reducedTrace]
      exact htwins.reducedTrace
  · rw [hr] at htwins htake
    have hr' : (p.arrive src site.last).takeAwaited site.last =
        (((p.arrive src site.last).takeAwaited site).1, some f) := Prod.ext rfl htake
    have hroom := room_of_openFunction hs
    rw [← htwins.scopes] at hroom
    obtain ⟨s', hs', -⟩ : ∃ s', ((p.arrive src site.last).takeAwaited site).1.openFunction src site f
        .constructor = .ok s' ∧ s'.awaited = _ := exists_openFunction hroom hstack
    have hcharged : Twins ((s.credit site.gas).noteValid site)
        ((s'.credit site.last.gas).noteValid site) :=
      ((htwins.openFunction hs hs').credit _ _).noteValid site
    have hinside := hcharged.track site
    obtain ⟨q', hq'⟩ := exists_advance_last 0 hinside.scopes hstack hadv
    refine ⟨q', ?_, ?_⟩
    · rw [step_of_some hr']
      refine bind_eq_ok.2 ⟨s', hs', ?_⟩
      have hagain : Pass.entry? ((s'.credit site.last.gas).noteValid site) site.last true =
          Pass.entry? ((s.credit site.gas).noteValid site) site true := by
        rw [ entry?, entry?, hcharged.scopes]
        rfl
      exact (congrArg (fun e => advance _ src site.last e 0) hagain).trans hq'
    · rw [(sameRecords_advance hq').reducedTrace, (sameRecords_advance hadv).reducedTrace]
      exact hinside.reducedTrace

end Pass

end TraceTree.Build
