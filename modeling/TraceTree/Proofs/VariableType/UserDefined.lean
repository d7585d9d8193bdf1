import Mathlib.Data.List.Basic
import TraceTree.Proofs.VariableType.Decoding

/-!
Names of user-defined types. A name is spelled with the names that it is declared in, with dots in
between. Names of two parts are also texts of interface types, so they are decoded as elementary,
and other names are not (`VariableType.ofText_qualifiedName`).
-/
namespace TraceTree

open AbiType (IsName SpellsRoot)

/-- A name under the names that it is declared in, from the outermost on. -/
structure QualifiedName where
  parts : List (List Char)
  ne_nil : parts ≠ []
  isName : ∀ part ∈ parts, IsName part

namespace QualifiedName

variable (p : QualifiedName) {t : AbiType}

def text : List Char := ['.'].intercalate p.parts

theorem splitOn_text : p.text.splitOn '.' = p.parts :=
  List.splitOn_intercalate '.' (fun part hpart => (p.isName part hpart).dot_not_mem) p.ne_nil

theorem isPathChar_of_mem_text : ∀ c ∈ p.text, AbiType.isPathChar c := by
  intro c hc
  rcases Text.mem_intercalate hc with rfl | ⟨part, hpart, hc⟩
  · rfl
  · exact AbiType.isPathChar_of_isNameRest ((p.isName part hpart).all c hc)

theorem text_ne_nil : p.text ≠ [] := by
  intro htext
  have hparts : p.parts = [[]] := by rw [← p.splitOn_text, htext]; rfl
  exact p.isName [] (by simp [hparts])

/-- Of the names that stand for no type, those with two parts are spelled as a type is. -/
theorem spellsRoot_text_iff (h : AbiType.ofName? p.text = none) :
    SpellsRoot p.text t ↔ p.parts.length = 2 ∧ t = .uint 8 := by
  constructor
  · intro hroot
    generalize htext : p.text = cs at hroot
    have hparts := p.splitOn_text
    rw [htext] at hparts
    cases hroot with
    | name _ ht => simp_all
    | qualified ha hb =>
      rw [List.splitOn_append_cons_self_of_not_mem ha.dot_not_mem,
        List.splitOn_eq_singleton hb.dot_not_mem] at hparts
      exact ⟨by rw [← hparts]; rfl, rfl⟩
    | dotted ha =>
      -- the part after the dot would be empty
      rw [List.splitOn_append_cons_self_of_not_mem ha.dot_not_mem] at hparts
      exact (p.isName [] (by rw [← hparts]; simp)).elim
  · rintro ⟨hlength, rfl⟩
    obtain ⟨a, b, hparts⟩ := List.length_eq_two.1 hlength
    have htext : p.text = a ++ '.' :: b := by simp [text, hparts]
    rw [htext]
    exact .qualified (p.isName a (by simp [hparts])) (p.isName b (by simp [hparts]))

end QualifiedName

namespace VariableType

/-- A name that stands for no type is decoded as the name of a user-defined type, except that a name
of two parts is taken for an interface type, and another name with `const` in it is unknown. -/
theorem ofText_qualifiedName (p : QualifiedName) (h : AbiType.ofName? p.text = none)
    (declared : Option String) (default : DataLocation) :
    let t := ofText (String.ofList p.text) declared default
    (p.parts.length = 2 → t.kind = .elementary "uint8" ∧ t.abiType? = some (.uint 8)) ∧
    (p.parts.length ≠ 2 → t.abiType? = none ∧
      ("const".toList <:+: p.text → t.kind = .unknown) ∧
      (¬ "const".toList <:+: p.text → t.kind = .userDefined (String.ofList p.text))) := by
  intro t
  have hstrip : DataLocation.strip (String.ofList p.text).toList = (p.text, none) := by
    rw [String.toList_ofList]
    exact DataLocation.strip_of_path p.isPathChar_of_mem_text
  have hofText? : ∀ u, AbiType.ofText? p.text = some u ↔ p.parts.length = 2 ∧ u = .uint 8 := by
    intro u
    rw [AbiType.ofText?_eq_some_iff, AbiType.spells_iff_of_path p.isPathChar_of_mem_text,
      p.spellsRoot_text_iff h]
  have ht : t = .mk _ _ (.ofText p.text _) := ofText_of_strip hstrip rfl
  rw [ht, abiType?, kind, TypeKind.ofText_of_path p.text_ne_nil p.isPathChar_of_mem_text]
  constructor
  · intro hlength
    rw [(hofText? _).2 ⟨hlength, rfl⟩]
    exact ⟨rfl, AbiType.ofText?_render ((hofText? _).2 ⟨hlength, rfl⟩)⟩
  · intro hlength
    have hnone : AbiType.ofText? p.text = none :=
      Option.eq_none_iff_forall_ne_some.2 fun u hu => hlength ((hofText? u).1 hu).1
    rw [hnone, ← Text.occursIn_iff]
    cases Text.occursIn "const".toList p.text <;> simp [TypeKind.abiType?]

theorem ofText_qualifiedName_library :
    let name : QualifiedName := ⟨["Lib".toList, "Price".toList], by decide, by decide⟩
    AbiType.ofName? name.text = none ∧
      (ofText "Lib.Price" (some "default") .storage).kind = .elementary "uint8" ∧
      (ofText "Lib.Price" (some "default") .storage).abiType? = some (.uint 8) := by
  intro name
  have hname : AbiType.ofName? name.text = none := by decide
  exact ⟨hname, (ofText_qualifiedName name hname (some "default") .storage).1 rfl⟩

end VariableType

end TraceTree
