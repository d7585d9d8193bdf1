import TraceTree.CallTree.Query
import TraceTree.Proofs.SortedMap

/-!
Trees that tell the same of a run. They may differ in what is noted besides: local variables, gas by
line, lines and columns, and, where that is wanted, in the locations that are shown. Main
statements: each change of a tree keeps two of them the same (`SameRun.openScope` and those that
follow it), and a change that only notes a local variable makes no difference (`sameRun_addLocals`).
-/
namespace TraceTree

/-- The scope with its parameters as its only variables. -/
def Scope.withParameters (s : Scope) : Scope :=
  { s with locals := s.locals.filter fun _ r => r.isParameter }

/-- The location without lines, and without what is shown for it unless that is kept. -/
def StepLocation.plain (keep : Bool) (l : StepLocation) : StepLocation :=
  { l with valid := if keep then l.valid else l.raw, lineColumn := none }

namespace CallTree

/-- Two trees that have the same scopes with the same parameters, and the same functions,
breakpoints and locations. -/
structure SameRun (keep : Bool) (t t' : CallTree) : Prop where
  scopes : ∀ id, (t'.scope? id).map Scope.withParameters = (t.scope? id).map Scope.withParameters
  scopeStarts : t'.scopeStarts = t.scopeStarts
  activations : t'.activations = t.activations
  reducedTrace : t'.reducedTrace = t.reducedTrace
  stepCount : t'.stepCount = t.stepCount
  locations : t'.locations.map (StepLocation.plain keep) =
    t.locations.map (StepLocation.plain keep)

namespace SameRun

variable {keep : Bool} {t t' u u' : CallTree}

theorem refl (t : CallTree) : SameRun keep t t := ⟨fun _ => rfl, rfl, rfl, rfl, rfl, rfl⟩

theorem symm (h : SameRun keep t t') : SameRun keep t' t where
  scopes id := (h.scopes id).symm
  scopeStarts := h.scopeStarts.symm
  activations := h.activations.symm
  reducedTrace := h.reducedTrace.symm
  stepCount := h.stepCount.symm
  locations := h.locations.symm

theorem trans (h : SameRun keep t t') (h' : SameRun keep t' u) : SameRun keep t u where
  scopes id := (h'.scopes id).trans (h.scopes id)
  scopeStarts := h'.scopeStarts.trans h.scopeStarts
  activations := h'.activations.trans h.activations
  reducedTrace := h'.reducedTrace.trans h.reducedTrace
  stepCount := h'.stepCount.trans h.stepCount
  locations := h'.locations.trans h.locations

theorem isSome_scope? (h : SameRun keep t t') (id : ScopeId) :
    (t'.scope? id).isSome = (t.scope? id).isSome := by
  simpa using congrArg Option.isSome (h.scopes id)

/-! ### Changes of both trees -/

theorem openScope (h : SameRun keep t t') (s : Scope) :
    SameRun keep (t.openScope s) (t'.openScope s) where
  scopes id := by
    simp only [scope?, CallTree.openScope, SortedMap.find?_insert]
    split_ifs
    · rfl
    · exact h.scopes id
  scopeStarts := congrArg (fun starts => starts.insert s.firstStep s.id) h.scopeStarts
  activations := h.activations
  reducedTrace := h.reducedTrace
  stepCount := h.stepCount
  locations := h.locations

/-- A change of a scope that goes by its parameters alone. -/
theorem adjust (h : SameRun keep t t') (id : ScopeId) {f g : Scope → Scope}
    (hf : ∀ s, (f s).withParameters = g s.withParameters) :
    SameRun keep { t with scopes := t.scopes.adjust id f }
      { t' with scopes := t'.scopes.adjust id f } :=
  { h with
    scopes := fun other => by
      have hg : Scope.withParameters ∘ f = g ∘ Scope.withParameters := funext hf
      have hsame := h.scopes other
      simp only [scope?, SortedMap.find?_adjust] at hsame ⊢
      split_ifs
      · simpa [Option.map_map, hg] using congrArg (Option.map g) hsame
      · exact hsame }

theorem closeScope (h : SameRun keep t t') (id : ScopeId) (lastStep : Nat) :
    SameRun keep (t.closeScope id lastStep) (t'.closeScope id lastStep) :=
  h.adjust id (g := fun s => { s with lastStep := some lastStep }) fun _ => rfl

theorem creditGas (h : SameRun keep t t') (id : ScopeId) (gas : Nat) :
    SameRun keep (t.creditGas id gas) (t'.creditGas id gas) :=
  h.adjust id (g := fun s => { s with gasCost := Gas.add s.gasCost gas }) fun _ => rfl

theorem addActivation (h : SameRun keep t t') (a : FunctionActivation) :
    SameRun keep (t.addActivation a) (t'.addActivation a) :=
  { h with activations := congrArg (fun acts => acts.insert a.scope a) h.activations }

theorem addBreakpoint (h : SameRun keep t t') (step : Nat) :
    SameRun keep (t.addBreakpoint step) (t'.addBreakpoint step) := by
  rw [CallTree.addBreakpoint, CallTree.addBreakpoint, h.reducedTrace]
  split_ifs
  · exact h
  · exact { h with reducedTrace := rfl }

theorem pushLocation (h : SameRun keep t t') {l l' : StepLocation}
    (hl : l'.plain keep = l.plain keep) :
    SameRun keep (t.pushLocation l) (t'.pushLocation l') :=
  { h with
    locations := by
      simp only [CallTree.pushLocation, Array.map_push, h.locations, hl] }

/-- A parameter. -/
theorem addVariable (h : SameRun keep t t') {r : VariableRecord} (hr : r.isParameter) :
    SameRun keep (t.addVariable r) (t'.addVariable r) := by
  have hscope : t'.scopes.contains r.scope = t.scopes.contains r.scope := h.isSome_scope? r.scope
  rw [CallTree.addVariable, CallTree.addVariable, hscope]
  split_ifs
  · have hadd : ∀ s : Scope, (s.addLocal r).withParameters = s.withParameters.addLocal r := by
      intro s
      rw [Scope.withParameters, Scope.addLocal, Scope.addLocal]
      dsimp only
      rw [SortedMap.filter_insert _ hr]
      rfl
    exact { h.adjust r.scope (g := fun s => s.addLocal r) hadd with }
  · exact h

theorem addParameters (h : SameRun keep t t') {records : List VariableRecord}
    (hr : ∀ r ∈ records, r.isParameter) :
    SameRun keep (t.addVariables records) (t'.addVariables records) := by
  rw [CallTree.addVariables, CallTree.addVariables]
  induction records generalizing t t' with
  | nil => exact h
  | cons r records ih =>
    exact ih (h.addVariable (hr r (by simp))) fun r' hr' => hr r' (by simp [hr'])

end SameRun

/-! ### Local variables -/

/-- No parameter of a scope has that name. -/
def FreeOfParameter (t : CallTree) (id : ScopeId) (name : String) : Prop :=
  ∀ s, t.scope? id = some s → ∀ r, s.locals.find? name = some r → ¬ r.isParameter

variable {keep : Bool} {t : CallTree} {r : VariableRecord} {id : ScopeId} {name : String}

theorem freeOfParameter_of_not_hasLocal (h : ¬ t.hasLocal id name) : t.FreeOfParameter id name := by
  intro s hs r hr
  have hs' : t.scopes.find? id = some s := hs
  simp [hasLocal, hs', SortedMap.contains, hr] at h

theorem FreeOfParameter.addVariable (h : t.FreeOfParameter id name) (hr : ¬ r.isParameter) :
    (t.addVariable r).FreeOfParameter id name := by
  intro s hs v hv
  rw [CallTree.addVariable] at hs
  split_ifs at hs
  · simp only [scope?, SortedMap.find?_adjust] at hs
    split_ifs at hs
    · obtain ⟨s, hold, rfl⟩ := Option.map_eq_some_iff.1 hs
      simp only [Scope.addLocal, SortedMap.find?_insert] at hv
      split_ifs at hv
      · cases hv
        exact hr
      · exact h s hold v hv
    · exact h s hs v hv
  · exact h s hs v hv

/-- A local variable that replaces no parameter. -/
theorem sameRun_addVariable (hr : ¬ r.isParameter) (hfree : t.FreeOfParameter r.scope r.name) :
    SameRun keep t (t.addVariable r) := by
  rw [CallTree.addVariable]
  split_ifs
  · refine ⟨fun id => ?_, rfl, rfl, rfl, rfl, rfl⟩
    simp only [scope?, SortedMap.find?_adjust]
    split_ifs with hid
    · subst hid
      cases hs : t.scopes.find? r.scope with
      | none => rfl
      | some s =>
        have hlocals : (s.locals.insert r.name r).filter (fun _ v => v.isParameter) =
            s.locals.filter fun _ v => v.isParameter :=
          SortedMap.filter_insert_of_not hr (hfree s hs)
        simp [Scope.withParameters, Scope.addLocal, hlocals]
    · rfl
  · exact .refl t

theorem sameRun_addLocals {records : List VariableRecord}
    (hr : ∀ r ∈ records, ¬ r.isParameter ∧ t.FreeOfParameter r.scope r.name) :
    SameRun keep t (t.addVariables records) := by
  rw [addVariables]
  induction records generalizing t with
  | nil => exact .refl t
  | cons r records ih =>
    obtain ⟨hlocal, hfree⟩ := hr r (by simp)
    refine (sameRun_addVariable hlocal hfree).trans (ih fun v hv => ?_)
    exact ⟨(hr v (by simp [hv])).1, (hr v (by simp [hv])).2.addVariable hlocal⟩

end CallTree

end TraceTree
