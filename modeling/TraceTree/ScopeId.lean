import TraceTree.Json.Record
import TraceTree.Text

/-!
Ids of scopes: paths of ordinals from the root, written with dots. They are ordered so that a scope
stands right before its descendants. Main statement: a child lies one level below its parent
(`parent?_child`, `depth_child`).
-/
namespace TraceTree

/-- The id of a scope, as its path from the root: `1` is the root and `1.2` its second child. -/
structure ScopeId where
  path : List Nat
  path_ne_nil : path ≠ [] := by simp
  deriving DecidableEq

namespace ScopeId

/-- The root scope, `1`. -/
def root : ScopeId := { path := [1] }

instance : Inhabited ScopeId := ⟨root⟩

theorem ext_path {a b : ScopeId} (h : a.path = b.path) : a = b := by
  cases a; cases b; simp_all

/-- The child with that ordinal, which counts from one. -/
def child (id : ScopeId) (ordinal : Nat) : ScopeId := { path := id.path ++ [ordinal] }

def ofPath? (path : List Nat) : Option ScopeId :=
  if h : path ≠ [] then some ⟨path, h⟩ else none

/-- The scope around this one; an id of one ordinal has none. -/
def parent? (id : ScopeId) : Option ScopeId := ofPath? id.path.dropLast

/-- Whether the id has a single ordinal. -/
def isRoot (id : ScopeId) : Bool := id.path.length == 1

/-- How many scopes are around this one. -/
def depth (id : ScopeId) : Nat := id.path.length - 1

/-- Whether `other` is this scope or lies below it. -/
def contains (id other : ScopeId) : Bool := id.path.isPrefixOf other.path

/-- Whether `other` lies below this scope. -/
def isAncestorOf (id other : ScopeId) : Bool :=
  id.path.length < other.path.length && id.contains other

/-! ### Order -/

instance : Ord ScopeId := ⟨fun a b => compare a.path b.path⟩

instance : Std.TransOrd ScopeId := inferInstanceAs (Std.TransCmp (compareOn path))

instance : Std.LawfulEqOrd ScopeId where
  eq_of_compare {a b} h :=
    ext_path (Std.LawfulEqCmp.eq_of_compare (show compare a.path b.path = .eq from h))

/-! ### Text -/

/-- The written form: the ordinals with dots between them. -/
def render (id : ScopeId) : List Char := ['.'].intercalate (id.path.map Text.digits)

def toString (id : ScopeId) : String := String.ofList id.render

/-- Reads an id: numbers of 32 bits with dots between them. -/
def ofText? (cs : List Char) : Option ScopeId :=
  ((cs.splitOn '.').mapM (Text.unsigned? Text.bound32)).bind ofPath?

def ofString? (s : String) : Option ScopeId := ofText? s.toList

/-- The message for a text that is no scope id. -/
def refusal (text : String) : String := "invalid scope id \x60" ++ text ++ "\x60"

def toJson (id : ScopeId) : Json := .string id.toString

def ofJson? (j : Json) : Option ScopeId := j.asString?.bind ofString?

/-! ### Laws -/

theorem parent?_child (id : ScopeId) (n : Nat) : (id.child n).parent? = some id := by
  simp [parent?, child, ofPath?, id.path_ne_nil]

theorem depth_child (id : ScopeId) (n : Nat) : (id.child n).depth = id.depth + 1 := by
  have := List.length_pos_iff.2 id.path_ne_nil
  simp only [depth, child, List.length_append, List.length_singleton]
  omega

theorem contains_iff {a b : ScopeId} : a.contains b ↔ a.path <+: b.path :=
  List.isPrefixOf_iff_prefix

end ScopeId

end TraceTree
