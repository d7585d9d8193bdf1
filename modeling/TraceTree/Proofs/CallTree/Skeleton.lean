import Mathlib.Logic.Function.Basic
import TraceTree.CallTree.Query
import TraceTree.Proofs.SortedMap

/-!
The skeleton of a call tree: its scopes without their gas and variables, the table of starts and the
activations. Only `openScope`, `closeScope` and `addActivation` change it; all other changes of a
tree leave it alone.
-/
namespace TraceTree

/-- A scope without its gas and its variables. -/
structure Outline where
  id : ScopeId
  kind : ScopeKind
  code : CodeAddress
  firstStep : Nat
  lastStep : Option Nat
  deriving DecidableEq

namespace Outline

/-- Whether a step lies in the scope; an open scope has no end. -/
def contains (o : Outline) (step : Nat) : Bool :=
  o.firstStep ≤ step && o.lastStep.all (step ≤ ·)

/-- Gives the scope its last step. -/
def closeAt (o : Outline) (lastStep : Nat) : Outline := { o with lastStep := some lastStep }

end Outline

/-- The outline of a scope. -/
def Scope.outline (s : Scope) : Outline :=
  { id := s.id, kind := s.kind, code := s.code, firstStep := s.firstStep, lastStep := s.lastStep }

/-- What opening and closing scopes makes of a tree. -/
structure Skeleton where
  scopes : ScopeId → Option Outline
  starts : SortedMap Nat ScopeId
  activations : SortedMap ScopeId FunctionActivation
  stepCount : Nat

namespace Skeleton

/-- Adds a scope, which becomes the one that opened last at its first step. -/
def openScope (k : Skeleton) (o : Outline) : Skeleton :=
  { k with
    scopes := Function.update k.scopes o.id (some o)
    starts := k.starts.insert o.firstStep o.id }

/-- Gives a scope its last step. -/
def closeScope (k : Skeleton) (id : ScopeId) (lastStep : Nat) : Skeleton :=
  { k with scopes := Function.update k.scopes id ((k.scopes id).map (·.closeAt lastStep)) }

/-- Notes which function a scope runs. -/
def addActivation (k : Skeleton) (a : FunctionActivation) : Skeleton :=
  { k with activations := k.activations.insert a.scope a }

end Skeleton

namespace CallTree

/-- The skeleton of a tree, in which scopes are found by id. -/
def skeleton (t : CallTree) : Skeleton :=
  { scopes := fun id => (t.scope? id).map Scope.outline
    starts := t.scopeStarts
    activations := t.activations
    stepCount := t.stepCount }

/-- The gas charged to a scope. -/
def gasOf? (t : CallTree) (id : ScopeId) : Option Nat := (t.scope? id).map (·.gasCost)

/-- Scopes of the tree have their outlines in the skeleton. -/
theorem outline_of_scope? {t : CallTree} {k : Skeleton} {id : ScopeId} {s : Scope}
    (hk : k = t.skeleton) (hs : t.scope? id = some s) : k.scopes id = some s.outline := by
  simp [hk, skeleton, hs]

/-- Outlines in the skeleton are those of scopes of the tree. -/
theorem exists_scope?_of_outline {t : CallTree} {k : Skeleton} {id : ScopeId} {o : Outline}
    (hk : k = t.skeleton) (ho : k.scopes id = some o) :
    ∃ s, t.scope? id = some s ∧ s.outline = o := by
  rw [hk] at ho
  simpa [skeleton] using ho

/-! ### Changes of the skeleton -/

/-- Opening a scope in a tree opens it in the skeleton. -/
theorem skeleton_openScope (t : CallTree) (s : Scope) :
    (t.openScope s).skeleton = t.skeleton.openScope s.outline := by
  simp only [skeleton, Skeleton.openScope, openScope, scope?, Skeleton.mk.injEq, and_true]
  refine ⟨?_, rfl⟩
  funext id
  rw [SortedMap.find?_insert, Function.update_apply]
  show _ = if id = s.id then _ else _
  by_cases h : id = s.id
  · rw [if_pos h, if_pos h]
    rfl
  · rw [if_neg h, if_neg h]

/-- Closing a scope in a tree closes it in the skeleton; an id without scope closes nothing. -/
theorem skeleton_closeScope (t : CallTree) (id : ScopeId) (lastStep : Nat) :
    (t.closeScope id lastStep).skeleton = t.skeleton.closeScope id lastStep := by
  simp only [skeleton, Skeleton.closeScope, closeScope, scope?, Skeleton.mk.injEq, and_true]
  funext other
  rw [SortedMap.find?_adjust, Function.update_apply]
  by_cases h : other = id
  · subst h
    cases t.scopes.find? other with
    | none => simp
    | some s => simp [Scope.outline, Outline.closeAt]
  · simp [h]

theorem skeleton_addActivation (t : CallTree) (a : FunctionActivation) :
    (t.addActivation a).skeleton = t.skeleton.addActivation a := rfl

/-! ### Changes that leave the skeleton alone -/

/-- The skeleton depends on the outlines, the two tables and the length of the trace only. -/
theorem skeleton_of_scopes {t t' : CallTree}
    (hscopes : ∀ id, (t'.scopes.find? id).map Scope.outline = (t.scopes.find? id).map Scope.outline)
    (hstarts : t'.scopeStarts = t.scopeStarts) (hactivations : t'.activations = t.activations)
    (hcount : t'.stepCount = t.stepCount) : t'.skeleton = t.skeleton := by
  simp only [skeleton, scope?, Skeleton.mk.injEq]
  exact ⟨funext hscopes, hstarts, hactivations, hcount⟩

/-- Gas is not part of an outline. -/
@[simp] theorem skeleton_creditGas (t : CallTree) (id : ScopeId) (gas : Nat) :
    (t.creditGas id gas).skeleton = t.skeleton := by
  refine skeleton_of_scopes ?_ rfl rfl rfl
  intro other
  rw [creditGas]
  apply t.scopes.map_find?_adjust
  intro s
  rfl

/-- Nor are variables, whether their scope exists or not. -/
@[simp] theorem skeleton_addVariable (t : CallTree) (r : VariableRecord) :
    (t.addVariable r).skeleton = t.skeleton := by
  rw [addVariable]
  split
  · refine skeleton_of_scopes ?_ rfl rfl rfl
    intro other
    apply t.scopes.map_find?_adjust
    intro s
    rfl
  · rfl

@[simp] theorem skeleton_addVariables (t : CallTree) (records : List VariableRecord) :
    (t.addVariables records).skeleton = t.skeleton := by
  rw [addVariables]
  induction records generalizing t with
  | nil => rfl
  | cons r records ih => rw [List.foldl_cons, ih, skeleton_addVariable]

@[simp] theorem skeleton_addBreakpoint (t : CallTree) (step : Nat) :
    (t.addBreakpoint step).skeleton = t.skeleton := by
  rw [addBreakpoint]
  split <;> rfl

/-! ### Gas -/

/-- Only the scope that is charged has other gas afterwards. -/
theorem gasOf?_creditGas (t : CallTree) (id other : ScopeId) (gas : Nat) :
    (t.creditGas id gas).gasOf? other =
      if other = id then (t.gasOf? other).map (Gas.add · gas) else t.gasOf? other := by
  rw [gasOf?, gasOf?, creditGas, scope?, scope?, SortedMap.find?_adjust]
  by_cases h : other = id
  · rw [if_pos h, if_pos h, Option.map_map, Option.map_map]
    rfl
  · rw [if_neg h, if_neg h]

/-- A scope that opens comes with its own gas, whatever was under its id. -/
theorem gasOf?_openScope (t : CallTree) (s : Scope) (id : ScopeId) :
    (t.openScope s).gasOf? id = if id = s.id then some s.gasCost else t.gasOf? id := by
  rw [gasOf?, gasOf?, openScope, scope?, scope?, SortedMap.find?_insert]
  by_cases h : id = s.id
  · rw [if_pos h, if_pos h]
    rfl
  · rw [if_neg h, if_neg h]

@[simp] theorem gasOf?_closeScope (t : CallTree) (id other : ScopeId) (lastStep : Nat) :
    (t.closeScope id lastStep).gasOf? other = t.gasOf? other := by
  rw [gasOf?, gasOf?, closeScope, scope?, scope?]
  apply t.scopes.map_find?_adjust
  intro s
  rfl

@[simp] theorem gasOf?_addVariable (t : CallTree) (r : VariableRecord) (id : ScopeId) :
    (t.addVariable r).gasOf? id = t.gasOf? id := by
  rw [addVariable]
  split
  · rw [gasOf?, gasOf?, scope?, scope?]
    apply t.scopes.map_find?_adjust
    intro s
    rfl
  · rfl

@[simp] theorem gasOf?_addVariables (t : CallTree) (records : List VariableRecord)
    (id : ScopeId) : (t.addVariables records).gasOf? id = t.gasOf? id := by
  rw [addVariables]
  induction records generalizing t with
  | nil => rfl
  | cons r records ih => rw [List.foldl_cons, ih, gasOf?_addVariable]

end CallTree

end TraceTree
