import TraceTree.Proofs.VariableType.Decoding

/-!
Lengths of arrays, at every node of a decoded type. A size in brackets is kept as the length of the
array below 2 ^ 64 only; from there on the array is decoded as one without a length, which stands
for a dynamic array, and the interface type follows the decoded length
(`VariableType.length_ofText`).
-/
namespace TraceTree

/-- The nodes of a type: the type itself, and the nodes of the types that it is made of. -/
inductive VariableType.Holds : VariableType → VariableType → Prop
  | self {t} : Holds t t
  | base {s l b k node} : Holds b node → Holds (.mk s l (.array b k)) node
  | key {s l key value node} : Holds key node → Holds (.mk s l (.mapping key value)) node
  | value {s l key value node} : Holds value node → Holds (.mk s l (.mapping key value)) node

variable {cs base size : List Char} {l : DataLocation} {t node : VariableType} {k : Option Nat}

/-! ### Sizes in brackets -/

namespace TypeKind

theorem splitBrackets?_eq_some (h : splitBrackets? cs = some (base, size)) :
    cs = base ++ '[' :: size ++ [']'] ∧ '[' ∉ size := by
  rw [splitBrackets?] at h
  split at h
  · rename_i rest hreverse
    split at h
    · rename_i c after hdrop
      obtain ⟨rfl, rfl⟩ : after.reverse = base ∧ (rest.takeWhile (· ≠ '[')).reverse = size := by
        simpa using h
      obtain rfl : c = '[' := by
        have hhead := List.head?_dropWhile_not (· ≠ '[') rest
        rw [hdrop] at hhead
        simpa using hhead
      have hrest : rest.takeWhile (· ≠ '[') ++ '[' :: after = rest := by
        rw [← hdrop, List.takeWhile_append_dropWhile]
      constructor
      · calc cs = (']' :: rest).reverse := by rw [← hreverse, List.reverse_reverse]
          _ = (']' :: (rest.takeWhile (· ≠ '[') ++ '[' :: after)).reverse := by rw [hrest]
          _ = _ := by simp
      · intro hmem
        have hne := List.all_eq_true.1 List.all_takeWhile '[' (List.mem_reverse.1 hmem)
        simp at hne
    · contradiction
  · contradiction

theorem simple_ne_array (b : VariableType) : simple cs ≠ .array b k := by
  unfold simple
  repeat' split
  all_goals simp

theorem simple_ne_mapping (key value : VariableType) : simple cs ≠ .mapping key value := by
  unfold simple
  repeat' split
  all_goals simp

/-- Arrays are the texts that end with brackets. -/
theorem ofText_eq_array_iff {b : VariableType} : ofText cs l = .array b k ↔
    ∃ base size, cs = base ++ '[' :: size ++ [']'] ∧ '[' ∉ size ∧ b = .inner base l ∧
      k = lengthOf? size := by
  constructor
  · intro h
    rw [ofText_eq] at h
    split at h
    · split at h <;> contradiction
    · split at h
      · rename_i base size hsplit
        obtain ⟨rfl, hopen⟩ := splitBrackets?_eq_some hsplit
        obtain ⟨rfl, rfl⟩ : VariableType.inner base l = b ∧ lengthOf? size = k := by simpa using h
        exact ⟨base, size, rfl, hopen, rfl, rfl⟩
      · exact (simple_ne_array b h).elim
  · rintro ⟨base, size, rfl, hopen, rfl, rfl⟩
    exact ofText_of_brackets hopen

theorem exists_inner_of_ofText_mapping {key value : VariableType}
    (h : ofText cs l = .mapping key value) :
    (∃ text, key = .inner text l) ∧ ∃ text, value = .inner text l := by
  rw [ofText_eq] at h
  split at h
  · split at h
    · rename_i left right _
      obtain ⟨rfl, rfl⟩ : VariableType.inner (Text.trim left) l = key ∧
        VariableType.inner (Text.trim right) l = value := by simpa using h
      exact ⟨⟨_, rfl⟩, _, rfl⟩
    · contradiction
  · split at h
    · contradiction
    · exact (simple_ne_mapping key value h).elim

end TypeKind

/-! ### Nodes -/

namespace VariableType

/-- The text of a type less the blanks around it and the location word. -/
def bare (t : VariableType) : List Char := (DataLocation.strip t.typeString.toList).1

/-- Whether the structure of the type is that of its text. -/
def IsDecoded (t : VariableType) : Prop := t.kind = .ofText t.bare t.location

theorem isDecoded_ofText (typeString : String) (declared : Option String) (default : DataLocation) :
    (ofText typeString declared default).IsDecoded := by
  cases h : DataLocation.strip typeString.toList with
  | mk bare spelled =>
    rw [ofText_of_strip h rfl]
    simp [IsDecoded, VariableType.bare, kind, location, VariableType.typeString, h]

theorem isDecoded_inner (text : List Char) (l : DataLocation) : (inner text l).IsDecoded := by
  cases h : DataLocation.strip text with
  | mk bare spelled =>
    rw [inner_of_strip h]
    simp [IsDecoded, VariableType.bare, kind, location, VariableType.typeString, h]

theorem IsDecoded.of_holds (h : t.IsDecoded) (hnode : t.Holds node) : node.IsDecoded := by
  induction hnode with
  | self => exact h
  | base _ ih =>
    obtain ⟨text, _, _, _, heq, _⟩ := TypeKind.ofText_eq_array_iff.1 h.symm
    exact ih (heq ▸ isDecoded_inner text _)
  | key _ ih =>
    obtain ⟨⟨text, heq⟩, _⟩ := TypeKind.exists_inner_of_ofText_mapping h.symm
    exact ih (heq ▸ isDecoded_inner text _)
  | value _ ih =>
    obtain ⟨_, text, heq⟩ := TypeKind.exists_inner_of_ofText_mapping h.symm
    exact ih (heq ▸ isDecoded_inner text _)

/-- Blanks in front and a location word behind stand in the way of no brackets. -/
theorem bare_of_brackets {place : Option DataLocation.Spelling}
    (h : t.typeString.toList = base ++ '[' :: size ++ ']' :: DataLocation.ending place) :
    t.bare = base.dropWhile Text.isBlank ++ '[' :: size ++ [']'] := by
  have hbrackets : Text.IsTrimmed (('[' :: size) ++ [']']) := Text.isTrimmed_append rfl rfl
  have htrim : Text.trim t.typeString.toList =
      (base.dropWhile Text.isBlank ++ '[' :: size ++ [']']) ++ DataLocation.ending place := by
    have hends := DataLocation.isTrimmed_append_ending hbrackets place
    simpa [h] using hends.trim_append base [] (by simp)
  rw [bare, DataLocation.strip_append_ending
    (DataLocation.not_spelled_of_close (.inl List.getLast?_concat)) htrim]

theorem abiType?_eq (t : VariableType) : t.abiType? = t.kind.abiType? := by
  cases t
  rw [abiType?, kind]

/-- The length that is kept of a size is the size below 2 ^ 64 and none from there on, also in the
interface type; and a node is an array without a length exactly when no number below 2 ^ 64 stands
between its last brackets. -/
theorem length_ofText (typeString : String) (declared : Option String) (default : DataLocation)
    (h : (ofText typeString declared default).Holds node) :
    (∀ base n place,
      node.typeString.toList = base ++ '[' :: Text.digits n ++ ']' :: DataLocation.ending place →
        ∃ b, node.kind = .array b (if n < Text.bound64 then some n else none) ∧
          node.abiType? = b.abiType?.map fun t =>
            if n < Text.bound64 then .fixedArray t n else .array t) ∧
    ((∃ b, node.kind = .array b none) ↔
      ∃ base size, node.bare = base ++ '[' :: size ++ [']'] ∧ '[' ∉ size ∧
        ∀ ds n, Text.trim size = ds ∨ Text.trim size = '+' :: ds → Text.digits? ds = some n →
          Text.bound64 ≤ n) := by
  have hnode : node.kind = .ofText node.bare node.location :=
    (isDecoded_ofText typeString declared default).of_holds h
  constructor
  · intro base n place htext
    have hopen : '[' ∉ Text.digits n := fun hmem =>
      absurd (Text.isDigit_of_mem_digits hmem) (by decide)
    rw [bare_of_brackets htext, TypeKind.ofText_of_brackets hopen,
      TypeKind.lengthOf?_digits] at hnode
    refine ⟨_, hnode, ?_⟩
    rw [abiType?_eq, hnode, TypeKind.abiType?]
    split_ifs <;> rfl
  · rw [hnode]
    constructor
    · rintro ⟨b, hb⟩
      obtain ⟨base, size, hbare, hopen, -, hlength⟩ := TypeKind.ofText_eq_array_iff.1 hb
      exact ⟨base, size, hbare, hopen, Text.unsigned?_eq_none_iff.1 hlength.symm⟩
    · rintro ⟨base, size, hbare, hopen, hnone⟩
      exact ⟨_, TypeKind.ofText_eq_array_iff.2
        ⟨base, size, hbare, hopen, rfl, (Text.unsigned?_eq_none_iff.2 hnone).symm⟩⟩

theorem length_ofText_nested : ∃ node b,
    (ofText "uint256[18446744073709551616][3]" none .storage).Holds node ∧
      node.typeString = "uint256[18446744073709551616]" ∧ node.kind = .array b none ∧
      node.abiType? = b.abiType?.map .array := by
  have hstrip : DataLocation.strip "uint256[18446744073709551616][3]".toList =
      ("uint256[18446744073709551616]".toList ++ '[' :: ['3'] ++ [']'], none) :=
    DataLocation.strip_of_close (.inl (by decide))
  have hnode : (ofText "uint256[18446744073709551616][3]" none .storage).Holds
      (inner "uint256[18446744073709551616]".toList .storage) := by
    rw [ofText_of_strip hstrip rfl, TypeKind.ofText_of_brackets (by decide)]
    exact .base .self
  have htext : (inner "uint256[18446744073709551616]".toList .storage).typeString.toList =
      "uint256".toList ++ '[' :: Text.digits 18446744073709551616 ++ ']' ::
        DataLocation.ending none := by decide
  obtain ⟨b, hb, habi⟩ := (length_ofText _ _ _ hnode).1 _ _ _ htext
  exact ⟨_, b, hnode, rfl, hb, habi⟩

end VariableType

end TraceTree
