import TraceTree.Artifact
import TraceTree.Proofs.SortedMap

/-!
Function definitions of a syntax tree. Main statements: what is found under an id has that id
(`functionDefinition?_id`), and where ids are unique it is the one that the sources declare
(`FunctionIdsUnique.eq_of_definition`).
-/
namespace TraceTree

namespace Declarations.Survey

variable {s : Survey} {node : Json}

/-! ### What a visit leaves alone -/

/-- Taking in a variable changes nothing but the locals. -/
theorem exists_locals_addLocal (range : Option SourceRange) (s : Survey) (node : Json) :
    ∃ locals, addLocal range s node = { s with index := { s.index with locals } } := by
  rw [addLocal]
  split
  · exact ⟨_, rfl⟩
  · split
    · exact ⟨_, rfl⟩
    · split
      · exact ⟨_, rfl⟩
      · rw [addAt]
        dsimp only
        split <;> exact ⟨_, rfl⟩

theorem exists_locals_addLocals (range : Option SourceRange) (nodes : List Json) (s : Survey) :
    ∃ locals, nodes.foldl (addLocal range) s = { s with index := { s.index with locals } } := by
  induction nodes generalizing s with
  | nil => exact ⟨_, rfl⟩
  | cons node nodes ih =>
    obtain ⟨_, hone⟩ := exists_locals_addLocal range s node
    rw [List.foldl_cons, hone]
    exact ih _

/-- A node that is no function changes nothing but the locals. -/
theorem exists_locals_visit (h : SyntaxNode.type? node ≠ some "FunctionDefinition") :
    ∃ locals, s.visit node = { s with index := { s.index with locals } } := by
  rw [visit]
  split
  · contradiction
  · exact exists_locals_addLocal none s node
  · split
    · exact exists_locals_addLocals _ _ s
    · exact ⟨_, rfl⟩
  · exact ⟨_, rfl⟩

/-! ### Ids -/

/-- Functions stand under their own ids. -/
def Keyed (s : Survey) : Prop := ∀ id f, s.index.functions.find? id = some f → f.id = id

theorem keyed_addFunction (h : s.Keyed) (f : FunctionDefinition) : (s.addFunction f).Keyed := by
  intro id g hg
  rw [addFunction, SortedMap.find?_insert] at hg
  split at hg
  · rename_i hid
    cases hg
    exact hid.symm
  · exact h id g hg

theorem keyed_visit (h : s.Keyed) (node : Json) : (s.visit node).Keyed := by
  by_cases hfun : SyntaxNode.type? node = some "FunctionDefinition"
  · rw [visit, hfun]
    cases FunctionDefinition.ofNode? node with
    | none => exact h
    | some f => exact keyed_addFunction h f
  · obtain ⟨_, hvisit⟩ := exists_locals_visit hfun
    rw [hvisit]
    exact h

theorem keyed_visits (h : s.Keyed) (nodes : List Json) : (nodes.foldl visit s).Keyed := by
  induction nodes generalizing s with
  | nil => exact h
  | cons node nodes ih => exact ih (keyed_visit h node)

end Declarations.Survey

theorem SourceFile.function?_id {s : SourceFile} {id : Nat} {f : FunctionDefinition}
    (h : s.declarations.value.functions.find? id = some f) : f.id = id := by
  rw [s.declarations.value_eq, Declarations.ofTree] at h
  refine Declarations.Survey.keyed_visits (s := {}) ?_ _ id f h
  intro id g hg
  cases hg

theorem Artifact.functionDefinition?_id {a : Artifact} {id : Nat} {f : FunctionDefinition}
    (h : a.functionDefinition? id = some f) : f.id = id := by
  obtain ⟨s, -, hs⟩ := List.exists_of_findSome?_eq_some h
  exact s.function?_id hs

namespace Artifact

/-- The functions that the sources declare. -/
def functions (a : Artifact) : List FunctionDefinition :=
  a.sources.values.flatMap fun s => s.declarations.value.functions.values

/-- Of the functions that the sources declare no two have the same id. -/
def FunctionIdsUnique (a : Artifact) : Prop :=
  ∀ f ∈ a.functions, ∀ g ∈ a.functions, f.id = g.id → f = g

instance (a : Artifact) : Decidable a.FunctionIdsUnique :=
  inferInstanceAs (Decidable (∀ f ∈ a.functions, ∀ g ∈ a.functions, f.id = g.id → f = g))

variable {a : Artifact} {f g : FunctionDefinition}

theorem mem_functions_of_functionDefinition? {id : Nat} (h : a.functionDefinition? id = some f) :
    f ∈ a.functions := by
  obtain ⟨s, hs, hf⟩ := List.exists_of_findSome?_eq_some h
  exact List.mem_flatMap.2 ⟨s, hs, SortedMap.mem_values_iff.2 ⟨id, hf⟩⟩

theorem mem_functions_of_functionContaining? {range : SourceRange}
    (h : a.functionContaining? range = some f) : f ∈ a.functions := by
  obtain ⟨s, hs, hf⟩ := Option.bind_eq_some_iff.1 h
  exact List.mem_flatMap.2
    ⟨s, SortedMap.mem_values_iff.2 ⟨_, hs⟩, (List.mem_filter.1 (List.minOn?_mem hf)).1⟩

/-- A function that the sources declare is not without a definition under its id. -/
theorem exists_functionDefinition?_of_mem (h : f ∈ a.functions) :
    ∃ g, a.functionDefinition? f.id = some g := by
  obtain ⟨s, hs, hf⟩ := List.mem_flatMap.1 h
  obtain ⟨id, hid⟩ := SortedMap.mem_values_iff.1 hf
  rw [← Option.isSome_iff_exists]
  refine List.findSome?_isSome_iff.2 ⟨s, hs, ?_⟩
  rw [Declarations.function?, s.function?_id hid, hid]
  rfl

theorem FunctionIdsUnique.eq_of_definition (h : a.FunctionIdsUnique) (hf : f ∈ a.functions)
    (hg : a.functionDefinition? f.id = some g) : g = f :=
  h g (mem_functions_of_functionDefinition? hg) f hf (functionDefinition?_id hg)

end Artifact

end TraceTree
