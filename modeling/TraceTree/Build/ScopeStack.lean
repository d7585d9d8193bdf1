import TraceTree.Scope

/-!
The scopes that are open at a point of a trace. The outermost one is held apart, so it stays open
whatever is closed. Main statement: the scopes up to the innermost call frame and those around it
are all scopes (`splitCall_append`).
-/
namespace TraceTree.Build

/-- An open scope: how many children it has had, the source range that its steps stay in, the last
valid location, and the function that it activates. -/
structure OpenScope where
  id : ScopeId
  kind : ScopeKind
  children : Nat := 0
  tracked : Option SourceLocation := none
  lastValid : Option SourceLocation := none
  function : Option Nat := none
  deriving DecidableEq

/-- The open scopes: the outermost and those inside it, the innermost first. -/
structure ScopeStack where
  root : OpenScope
  nested : List OpenScope := []
  deriving DecidableEq

namespace ScopeStack

/-- The innermost open scope. -/
def top (opened : ScopeStack) : OpenScope := opened.nested.headD opened.root

/-- Changes the innermost open scope. -/
def modifyTop (opened : ScopeStack) (f : OpenScope → OpenScope) : ScopeStack :=
  match opened.nested with
  | [] => { opened with root := f opened.root }
  | inner :: rest => { opened with nested := f inner :: rest }

def push (opened : ScopeStack) (inner : OpenScope) : ScopeStack :=
  { opened with nested := inner :: opened.nested }

/-- How many scopes are open. -/
def size (opened : ScopeStack) : Nat := opened.nested.length + 1

/-- The open scopes from the inside out. -/
def toList (opened : ScopeStack) : List OpenScope := opened.nested ++ [opened.root]

/-- The scopes from the inside out up to the first call frame, and those around it. -/
def splitCall : List OpenScope → List OpenScope × List OpenScope
  | [] => ([], [])
  | inner :: rest =>
    if inner.kind.isFrame then ([inner], rest)
    else
      let (here, around) := splitCall rest
      (inner :: here, around)

/-- Whether a function is active in the innermost call frame. -/
def isActive (opened : ScopeStack) (function : Nat) : Bool :=
  (splitCall opened.toList).1.any fun s => s.function == some function

theorem splitCall_append (scopes : List OpenScope) :
    (splitCall scopes).1 ++ (splitCall scopes).2 = scopes := by
  induction scopes with
  | nil => rfl
  | cons inner rest ih =>
    rw [splitCall]
    split
    · rfl
    · simp [ih]

end ScopeStack

end TraceTree.Build
