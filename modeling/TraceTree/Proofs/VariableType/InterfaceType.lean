import TraceTree.Proofs.VariableType.Decoding

/-!
Two ways to the interface type of a text. Decoding takes the brackets off one by one and goes
through the canonical name of what is left; the interface type put together again is the one that
the text as a whole is accepted as (`VariableType.abiType?_ofText`). The induction is on the
derivation of the text.
-/
namespace TraceTree

open AbiType (Spells SpellsItems SpellsRoot)

variable {cs ds : List Char} {c : Char} {t : AbiType} {ts : List AbiType} {n : Nat}
  {k : Option Nat} {l : DataLocation}

/-! ### Ends of accepted texts -/

namespace AbiType

/-- An accepted text is a path or ends with a bracket or a parenthesis. -/
theorem Spells.path_or_close (h : Spells n cs t) :
    (∀ c ∈ cs, isPathChar c) ∨ cs.getLast? = some ']' ∨ cs.getLast? = some ')' := by
  cases h with
  | root h => exact .inl h.all
  | unit _ _ => exact .inr (.inr List.getLast?_concat)
  | tuple _ _ h => exact .inr (.inr (by rw [List.getLast?_append, h.getLast?]; rfl))
  | array _ _ _ => exact .inr (.inl List.getLast?_concat)

theorem Spells.trim (h : Spells n cs t) : Text.trim cs = cs := by
  rcases h.path_or_close with hpath | hclose
  · exact trim_of_path hpath
  · apply Text.IsTrimmed.trim
    constructor
    · obtain ⟨c, ds, rfl, hc | rfl⟩ := h.exists_cons
      · have hpath := isPathChar_of_isNameRest (isNameRest_of_isNameStart hc)
        simpa using isBlank_of_isPathChar hpath
      · rfl
    · rcases hclose with hlast | hlast <;> rw [hlast] <;> rfl

/-- No location word is part of an accepted text. -/
theorem Spells.strip (h : Spells n cs t) : DataLocation.strip cs = (cs, none) := by
  rcases h.path_or_close with hpath | hclose
  · exact DataLocation.strip_of_path hpath
  · have hstrip : DataLocation.strip cs = (Text.trim cs, none) :=
      DataLocation.strip_of_close (by rwa [h.trim])
    rw [hstrip, h.trim]

theorem head?_of_opening {lead : List Char} (h : lead ∈ openings) (rest : List Char) :
    (lead ++ rest).head? = some '(' ∨ (lead ++ rest).head? = some 't' := by
  simp only [openings, List.mem_cons, List.not_mem_nil, or_false] at h
  rcases h with rfl | rfl
  · exact .inl rfl
  · exact .inr rfl

/-- An accepted text that ends with a parenthesis starts as a tuple does. -/
theorem Spells.head?_of_close (h : Spells n cs t) (hclose : cs.getLast? = some ')') :
    cs.head? = some '(' ∨ cs.head? = some 't' := by
  cases h with
  | root h => exact absurd (h.all _ (List.mem_of_getLast? hclose)) (by decide)
  | unit hlead _ | tuple hlead _ _ =>
    rw [List.append_assoc]
    exact head?_of_opening hlead _
  | array _ _ _ =>
    rw [List.getLast?_concat] at hclose
    simp at hclose

/-- The digits of a size are read as the length of an array. -/
theorem lengthOf?_of_size? (hk : size? ds = some k) : TypeKind.lengthOf? ds = k := by
  cases k with
  | none =>
    rw [size?_eq_some_none_iff.1 hk]
    rfl
  | some size =>
    obtain ⟨hdigits, -, hlt⟩ := size?_eq_some_some_iff.1 hk
    rw [TypeKind.lengthOf?_of_digits? hdigits, if_pos hlt]

end AbiType

/-! ### Interface types of decoded texts -/

namespace TypeKind

theorem abiType?_elementary (h : AbiType.ofText? cs = some t) :
    (elementary (String.ofList t.render)).abiType? = some t := by
  rw [abiType?, String.toList_ofList]
  exact AbiType.ofText?_render h

theorem abiType?_of_path (h : Spells AbiType.maxTuples cs t)
    (hpath : ∀ c ∈ cs, AbiType.isPathChar c) :
    (ofText cs l).abiType? = some t := by
  have ht := AbiType.ofText?_eq_some_iff.2 h
  obtain ⟨c, ds, rfl, -⟩ := h.exists_cons
  rw [ofText_of_path (List.cons_ne_nil c ds) hpath, ht]
  exact abiType?_elementary ht

/-- A tuple starts with none of the words that tell other kinds. -/
theorem abiType?_of_close (h : Spells AbiType.maxTuples cs t) (hclose : cs.getLast? = some ')') :
    (ofText cs l).abiType? = some t := by
  have ht := AbiType.ofText?_eq_some_iff.2 h
  have hhead := h.head?_of_close hclose
  have hword : ∀ w ∈ "mapping(".toList :: keywords, ¬ w <+: cs := by
    rintro w hw ⟨rest, rfl⟩
    obtain ⟨hsome, hopen, hletter⟩ := (by decide : ∀ w ∈ "mapping(".toList :: keywords,
      w.head?.isSome ∧ w.head? ≠ some '(' ∧ w.head? ≠ some 't') w hw
    rw [List.head?_append, Option.or_of_isSome hsome] at hhead
    exact hhead.elim hopen hletter
  rw [ofText_of_simple (by simp [hclose]) (.inr (hword _ List.mem_cons_self)),
    simple_of_no_keyword fun w hw => hword w (List.mem_cons_of_mem _ hw), ht]
  exact abiType?_elementary ht

theorem abiType?_of_spells : ∀ {n cs t}, Spells n cs t → n = AbiType.maxTuples → ∀ l,
    (ofText cs l).abiType? = some t
  | _, _, _, .root h, _, _ => abiType?_of_path (.root h) h.all
  | _, _, _, .unit hlead hgap, _, _ => abiType?_of_close (.unit hlead hgap) List.getLast?_concat
  | _, _, _, .tuple hlead hgap h, hn, _ =>
    abiType?_of_close (hn ▸ .tuple hlead hgap h)
      (by rw [List.getLast?_append, h.getLast?]; rfl)
  | _, _, _, @Spells.array _ cs t ds k h hds hk, hn, l => by
    have hopen : '[' ∉ ds := fun hmem => absurd (List.all_eq_true.1 hds _ hmem) (by decide)
    rw [ofText_of_brackets hopen, VariableType.inner_of_strip h.strip,
      AbiType.lengthOf?_of_size? hk, abiType?, VariableType.abiType?, abiType?_of_spells h hn]
    rfl

end TypeKind

/-- The interface type of a decoded text is the one that the text as a whole is accepted as. -/
theorem VariableType.abiType?_ofText {typeString : String} {t : AbiType}
    (h : AbiType.ofText? typeString.toList = some t) (declared : Option String)
    (default : DataLocation) : (ofText typeString declared default).abiType? = some t := by
  rw [AbiType.ofText?_eq_some_iff] at h
  rw [ofText_of_strip h.strip rfl, abiType?]
  exact TypeKind.abiType?_of_spells h rfl _

theorem VariableType.abiType?_ofText_nested :
    AbiType.ofText? "tuple(uint8[03], (a.b ))[]".toList =
        some (.array (.tuple [.fixedArray (.uint 8) 3, .tuple [.uint 8]])) ∧
      (ofText "tuple(uint8[03], (a.b ))[]" (some "memory") .storage).abiType? =
        some (.array (.tuple [.fixedArray (.uint 8) 3, .tuple [.uint 8]])) := by
  have hgap : AbiType.IsGap [] ∧ AbiType.IsGap [' '] := by simp [AbiType.IsGap]
  have hparen : ['('] ∈ AbiType.openings := by decide
  have hword : "tuple(".toList ∈ AbiType.openings := by decide
  have hname : SpellsRoot "uint8".toList (.uint 8) := .name ⟨rfl, rfl⟩ rfl
  have hqualified : SpellsRoot "a.b".toList (.uint 8) :=
    .qualified (a := ['a']) (b := ['b']) ⟨rfl, rfl⟩ ⟨rfl, rfl⟩
  have hdigits : ['0', '3'].all Char.isDigit := rfl
  have hempty : ([] : List Char).all Char.isDigit := rfl
  have hfirst : Spells 78 "uint8[03]".toList (.fixedArray (.uint 8) 3) :=
    .array (.root hname) hdigits (k := some 3) rfl
  have hitems : SpellsItems 77 "a.b )".toList [.uint 8] := .last (.root hqualified) hgap.2
  have hsecond : Spells 78 "(a.b )".toList (.tuple [.uint 8]) := .tuple hparen hgap.1 hitems
  have hboth : SpellsItems 78 "uint8[03], (a.b ))".toList
      [.fixedArray (.uint 8) 3, .tuple [.uint 8]] := .more hfirst hgap.2 (.last hsecond hgap.1)
  have htuple : Spells AbiType.maxTuples "tuple(uint8[03], (a.b ))".toList
      (.tuple [.fixedArray (.uint 8) 3, .tuple [.uint 8]]) := .tuple hword hgap.1 hboth
  have harray : Spells AbiType.maxTuples "tuple(uint8[03], (a.b ))[]".toList
      (.array (.tuple [.fixedArray (.uint 8) 3, .tuple [.uint 8]])) :=
    .array htuple hempty (k := none) rfl
  have haccepted := AbiType.ofText?_eq_some_iff.2 harray
  exact ⟨haccepted, VariableType.abiType?_ofText haccepted _ _⟩

end TraceTree
