import TraceTree.Build
import TraceTree.Proofs.CallTree.Skeleton

/-!
The layout of a pass: the skeleton of its tree with the open scopes. All that a pass does to it is
to open a scope in the innermost one and to close the innermost one, at times several in a row; what
else happens at a step leaves the layout alone.
-/
namespace TraceTree.Build

theorem bind_eq_ok {ε α β : Type} {x : Except ε α} {f : α → Except ε β} {b : β} :
    x >>= f = .ok b ↔ ∃ a, x = .ok a ∧ f a = .ok b := by
  cases x with
  | error e => simp [bind, Except.bind]
  | ok a => simp [bind, Except.bind]

theorem except_map_bind {ε α β γ : Type} (x : Except ε α) (f : α → β) (g : β → Except ε γ) :
    x.map f >>= g = x >>= fun a => g (f a) :=
  bind_map_left f x g

theorem except_bind_map {ε α β γ : Type} (x : Except ε α) (f : α → Except ε β) (g : β → γ) :
    (x >>= f).map g = x >>= fun a => (f a).map g :=
  map_bind g x f

/-- What an open scope is to the scopes that open after it. -/
structure Frame where
  id : ScopeId
  kind : ScopeKind
  children : Nat := 0
  function : Option Nat := none
  deriving DecidableEq

def OpenScope.frame (s : OpenScope) : Frame :=
  { id := s.id, kind := s.kind, children := s.children, function := s.function }

/-- The open scopes, the innermost first, and the skeleton of the tree. -/
structure Layout where
  frames : List Frame
  tree : Skeleton

namespace Layout

/-- The layout before the first of `steps` steps: the root has opened. -/
def start (root : CodeAddress) (steps : Nat) : Layout :=
  { frames := [{ id := .root, kind := .root }]
    tree := ({ scopes := fun _ => none, starts := ∅, activations := ∅, stepCount := steps } :
      Skeleton).openScope
        { id := .root, kind := .root, code := root, firstStep := 0, lastStep := none } }

/-- The id of the next scope that opens. -/
def nextId (k : Layout) : ScopeId :=
  match k.frames with
  | [] => .root
  | top :: _ => top.id.child (top.children + 1)

/-- Counts one more child of the innermost scope. -/
def countChild : List Frame → List Frame
  | [] => []
  | top :: around => { top with children := top.children + 1 } :: around

/-- Opens a scope in the innermost one. -/
def openScope (k : Layout) (firstStep : Nat) (kind : ScopeKind) (code : CodeAddress)
    (function : Option Nat) : Layout :=
  { frames := { id := k.nextId, kind, function } :: countChild k.frames
    tree := k.tree.openScope { id := k.nextId, kind, code, firstStep, lastStep := none } }

def addActivation (k : Layout) (a : FunctionActivation) : Layout :=
  { k with tree := k.tree.addActivation a }

/-- Closes the innermost scope. -/
def closeTop (k : Layout) (lastStep : Nat) : Layout :=
  match k.frames with
  | [] => k
  | top :: around => { frames := around, tree := k.tree.closeScope top.id lastStep }

/-- Closes the innermost scopes, as many as the number says. -/
def close (lastStep : Nat) : Nat → Layout → Layout
  | 0, k => k
  | n + 1, k => close lastStep n (k.closeTop lastStep)

/-- How many scopes there are up to the innermost call frame; the outermost scope does not count. -/
def callSize : List Frame → Nat
  | [] => 0
  | [_] => 0
  | top :: next :: around => if top.kind.isFrame then 1 else callSize (next :: around) + 1

/-- Closes the innermost call frame and what is open in it. -/
def closeCall (k : Layout) (lastStep : Nat) : Layout := close lastStep (callSize k.frames) k

end Layout

/-! ### The open scopes -/

namespace ScopeStack

theorem toList_eq (opened : ScopeStack) : ∃ around, opened.toList = opened.top :: around := by
  rw [toList, top]
  cases opened.nested with
  | nil => exact ⟨[], rfl⟩
  | cons inner rest => exact ⟨rest ++ [opened.root], rfl⟩

theorem toList_modifyTop (opened : ScopeStack) (f : OpenScope → OpenScope) :
    (opened.modifyTop f).toList = opened.toList.modifyHead f := by
  rw [modifyTop]
  cases h : opened.nested with
  | nil => simp [toList, h]
  | cons inner rest => simp [toList, h]

theorem toList_push (opened : ScopeStack) (inner : OpenScope) :
    (opened.push inner).toList = inner :: opened.toList := rfl

theorem length_toList (opened : ScopeStack) : opened.toList.length = opened.size := by
  simp [toList, size]

theorem callSize_toList (nested : List OpenScope) (root : OpenScope) :
    Layout.callSize ((nested ++ [root]).map OpenScope.frame) = (splitCall nested).1.length := by
  induction nested with
  | nil => rfl
  | cons inner rest ih =>
    obtain ⟨next, around, hnext⟩ := List.exists_cons_of_ne_nil
      (show (rest ++ [root]).map OpenScope.frame ≠ [] by simp)
    rw [List.cons_append, List.map_cons, hnext, Layout.callSize, ← hnext, ih, splitCall]
    show (if inner.kind.isFrame then _ else _) = _
    split
    · rfl
    · rfl

end ScopeStack

namespace Pass

/-- The open scopes and the skeleton of the tree. -/
def layout (p : Pass) : Layout :=
  { frames := p.scopes.toList.map OpenScope.frame, tree := p.tree.skeleton }

theorem layout_frames (p : Pass) :
    ∃ around, p.layout.frames = p.scopes.top.frame :: around := by
  obtain ⟨around, h⟩ := p.scopes.toList_eq
  exact ⟨around.map OpenScope.frame, by rw [layout, h, List.map_cons]⟩

theorem top_frame_eq {p : Pass} {top : Frame} {around : List Frame}
    (h : p.layout.frames = top :: around) : p.scopes.top.frame = top := by
  obtain ⟨around', hframes⟩ := p.layout_frames
  rw [h] at hframes
  exact (List.cons.inj hframes).1.symm

/-- The pass stands in the scope of the innermost frame. -/
theorem scope_of_frames {p : Pass} {top : Frame} {around : List Frame}
    (h : p.layout.frames = top :: around) : p.scope = top.id :=
  congrArg Frame.id (top_frame_eq h)

theorem length_frames (p : Pass) : p.layout.frames.length = p.scopes.size := by
  rw [layout, List.length_map, ScopeStack.length_toList]

theorem nextId_layout (p : Pass) :
    p.layout.nextId = p.scopes.top.id.child (p.scopes.top.children + 1) := by
  obtain ⟨around, h⟩ := p.layout_frames
  rw [Layout.nextId, h]
  rfl

theorem layout_start (root : CodeAddress) (steps : Nat) :
    (start root steps).layout = .start root steps := by
  rw [layout, start, CallTree.skeleton_openScope]
  rfl

/-! ### Changes that leave the layout alone -/

theorem layout_modifyScope (p : Pass) {f : OpenScope → OpenScope}
    (hf : ∀ s, (f s).frame = s.frame) : (p.modifyScope f).layout = p.layout := by
  obtain ⟨around, h⟩ := p.scopes.toList_eq
  rw [layout, layout, modifyScope, ScopeStack.toList_modifyTop, h]
  simp [hf]

@[simp] theorem layout_credit (p : Pass) (gas : Nat) : (p.credit gas).layout = p.layout := by
  rw [layout, layout, credit, CallTree.skeleton_creditGas]

/-! ### Opening and closing -/

theorem layout_openScope {p q : Pass} {src : Sources} {step firstStep : Nat} {kind : ScopeKind}
    {code : CodeAddress} {function : Option Nat}
    (h : p.openScope src step firstStep kind code function = .ok q) :
    q.layout = p.layout.openScope firstStep kind code function := by
  rw [openScope] at h
  split at h
  · cases h
  · cases h
    obtain ⟨around, hlist⟩ := p.scopes.toList_eq
    rw [Layout.openScope, nextId_layout]
    simp only [layout, ScopeStack.toList_push, ScopeStack.toList_modifyTop, hlist,
      CallTree.skeleton_openScope, Layout.mk.injEq]
    exact ⟨rfl, rfl⟩

theorem scope_openScope {p q : Pass} {src : Sources} {step firstStep : Nat} {kind : ScopeKind}
    {code : CodeAddress} {function : Option Nat}
    (h : p.openScope src step firstStep kind code function = .ok q) : q.scope = p.layout.nextId :=
  scope_of_frames (congrArg Layout.frames (layout_openScope h))

theorem layout_openCall {p q : Pass} {src : Sources} {site : Site}
    {kind : CodeAddress → ScopeKind} (h : p.openCall src site kind = .ok q) :
    ∃ callee, src.codeAt (site.step + 1) = .ok callee ∧
      q.layout = p.layout.openScope (site.step + 1) (kind callee) callee none := by
  obtain ⟨callee, hcode, h⟩ := bind_eq_ok.1 h
  exact ⟨callee, hcode, layout_openScope h⟩

theorem layout_openFunction {p q : Pass} {src : Sources} {site : Site} {f : FunctionDefinition}
    {kind : ScopeKind} (h : p.openFunction src site f kind = .ok q) :
    ∃ a : FunctionActivation, a.functionId = f.id ∧ a.scope = p.layout.nextId ∧
      a.entryStep = site.step ∧ a.isConstructor = (kind == .constructor) ∧
      q.layout = (p.layout.openScope site.step kind site.code (some f.id)).addActivation a := by
  obtain ⟨r, hopen, h⟩ := bind_eq_ok.1 h
  obtain ⟨n, -, h⟩ := bind_eq_ok.1 h
  cases h
  have hlayout := layout_openScope hopen
  refine ⟨{ functionId := f.id, name := f.displayName, inputs := f.inputNames,
            outputs := f.outputNames, scope := r.scope, entryStep := site.step,
            isConstructor := kind == .constructor }, rfl, scope_openScope hopen, rfl, rfl, ?_⟩
  rw [← hlayout, layout, Layout.addActivation, CallTree.skeleton_addActivation,
    CallTree.skeleton_addVariables]
  rfl

/-- Closing some scopes from the inside out is closing as many innermost ones. -/
theorem layout_closeAll (t : CallTree) (inner outer : List OpenScope) (lastStep : Nat) :
    Layout.close lastStep inner.length
        { frames := (inner ++ outer).map OpenScope.frame, tree := t.skeleton } =
      { frames := outer.map OpenScope.frame, tree := (closeAll t inner lastStep).skeleton } := by
  induction inner generalizing t with
  | nil => rfl
  | cons s inner ih =>
    rw [List.length_cons, Layout.close, closeAll, List.foldl_cons, ← closeAll, ← ih,
      CallTree.skeleton_closeScope]
    rfl

theorem layout_closeCall (p : Pass) (lastStep : Nat) :
    (p.closeCall lastStep).layout = p.layout.closeCall lastStep := by
  have hsize : Layout.callSize p.layout.frames = (ScopeStack.splitCall p.scopes.nested).1.length :=
    ScopeStack.callSize_toList _ _
  have hlist : p.scopes.toList = (ScopeStack.splitCall p.scopes.nested).1 ++
      ((ScopeStack.splitCall p.scopes.nested).2 ++ [p.scopes.root]) := by
    rw [← List.append_assoc, ScopeStack.splitCall_append, ScopeStack.toList]
  rw [Layout.closeCall, hsize, layout, layout, hlist, layout_closeAll]
  rfl

theorem layout_closeFunction {p : Pass} (h : p.scopes.nested ≠ []) (lastStep : Nat) :
    (p.closeFunction lastStep).layout = p.layout.closeTop lastStep := by
  obtain ⟨inner, outer, hnested⟩ := List.exists_cons_of_ne_nil h
  have hclosed : p.layout.closeTop lastStep =
      { frames := (outer ++ [p.scopes.root]).map OpenScope.frame
        tree := (p.tree.closeScope inner.id lastStep).skeleton } := by
    rw [layout, ScopeStack.toList, hnested, CallTree.skeleton_closeScope]
    rfl
  rw [hclosed, closeFunction, hnested]
  dsimp only
  split
  · exact layout_modifyScope _ fun _ => rfl
  · rfl

/-- The finished tree is what closing all scopes makes of the layout. -/
theorem layout_finish (p : Pass) :
    (p.layout.close (p.tree.stepCount - 1) p.layout.frames.length).frames = [] ∧
      (p.layout.close (p.tree.stepCount - 1) p.layout.frames.length).tree = p.close.skeleton := by
  have h := layout_closeAll p.tree p.scopes.toList [] (p.tree.stepCount - 1)
  rw [List.append_nil] at h
  rw [layout, List.length_map, h]
  exact ⟨rfl, rfl⟩

end Pass

end TraceTree.Build
