import TraceTree.Proofs.AbiType.Canonical
import TraceTree.VariableType

/-!
One level of decoding, for texts of each form: a location word is taken off exactly when the text
ends with one (`strip_of_spelled`, `strip_eq_trim`), a text that ends in brackets is an array
(`ofText_of_brackets`), one between the word for mappings and a parenthesis is a mapping
(`ofText_of_arrow`; `Skips` says what the search for the arrow goes through), and the others are
told apart by the word they start with.
-/
namespace TraceTree

variable {cs bare base size left right : List Char} {c : Char} {l : DataLocation}

/-! ### Characters of paths -/

namespace AbiType

theorem toNat_of_isPathChar (h : isPathChar c) : 36 ≤ c.toNat ∧ c.toNat ≤ 122 := by
  delta isPathChar isNameRest Char.isAlphanum Char.isAlpha Char.isUpper Char.isLower
    Char.isDigit at h
  simp only [Bool.or_eq_true, Bool.and_eq_true, decide_eq_true_eq, beq_iff_eq,
    UInt32.le_iff_toNat_le, ge_iff_le] at h
  have hnat : c.toNat = c.val.toNat := rfl
  have hZ : 'Z'.val.toNat = 90 := rfl
  have hz : 'z'.val.toNat = 122 := rfl
  have h9 : '9'.val.toNat = 57 := rfl
  have hA : 'A'.val.toNat = 65 := rfl
  have ha : 'a'.val.toNat = 97 := rfl
  have h0 : '0'.val.toNat = 48 := rfl
  rcases h with (((h | h) | rfl) | rfl) | rfl
  · omega
  · omega
  all_goals decide

theorem isBlank_of_isPathChar (h : isPathChar c) : Text.isBlank c = false := by
  have hnat := toNat_of_isPathChar h
  simp only [Text.isBlank, Bool.or_eq_false_iff, Bool.and_eq_false_iff, decide_eq_false_iff_not,
    beq_eq_false_iff_ne]
  omega

theorem trim_of_path (h : ∀ c ∈ cs, isPathChar c) : Text.trim cs = cs :=
  Text.trim_of_no_blank fun c hc => isBlank_of_isPathChar (h c hc)

theorem isTrimmed_of_path (hne : cs ≠ []) (h : ∀ c ∈ cs, isPathChar c) : Text.IsTrimmed cs :=
  Text.isTrimmed_of_no_blank hne fun c hc => isBlank_of_isPathChar (h c hc)

end AbiType

/-! ### Location words -/

namespace DataLocation

theorem strip_eq_trim (h : ∀ s ∈ spellings, ¬ s.1 <:+ Text.trim cs) :
    strip cs = (Text.trim cs, none) := by
  have hnone : ∀ s ∈ spellings, (s.1.isSuffixOf? (Text.trim cs)).map
      (fun rest => (rest, some s.2)) = none := by
    intro s hs
    rw [Text.isSuffixOf?_eq_none_iff.2 (h s hs), Option.map_none]
  rw [strip, List.findSome?_eq_none_iff.2 hnone]
  rfl

theorem strip_of_spelled {s : List Char × DataLocation} (hs : s ∈ spellings)
    (h : Text.trim cs = bare ++ s.1) : strip cs = (bare, some s.2) := by
  simp only [spellings, List.mem_cons, List.not_mem_nil, or_false] at hs
  rcases hs with rfl | rfl | rfl | rfl | rfl | rfl <;>
    simp [strip, h, spellings, List.isSuffixOf?, List.isPrefixOf?]

/-- No location word ends in a bracket or a parenthesis. -/
theorem not_spelled_of_close (h : cs.getLast? = some ']' ∨ cs.getLast? = some ')') :
    ∀ s ∈ spellings, ¬ s.1 <:+ cs := by
  rintro s hs ⟨rest, rfl⟩
  rw [List.getLast?_append] at h
  simp only [spellings, List.mem_cons, List.not_mem_nil, or_false] at hs
  rcases hs with rfl | rfl | rfl | rfl | rfl | rfl <;> simp at h

/-- Each location word stands after a blank. -/
theorem not_spelled_of_path (h : ∀ c ∈ cs, AbiType.isPathChar c) :
    ∀ s ∈ spellings, ¬ s.1 <:+ cs := by
  intro s hs hsuffix
  have hblank : ∀ s ∈ spellings, ' ' ∈ s.1 := by decide
  exact absurd (h ' ' (hsuffix.subset (hblank s hs))) (by decide)

/-- A location word that can stand after a type. -/
abbrev Spelling := { s : List Char × DataLocation // s ∈ spellings }

def ending : Option Spelling → List Char
  | none => []
  | some s => s.1.1

variable {place : Option Spelling}

theorem isTrimmed_append_ending (h : Text.IsTrimmed cs) (place : Option Spelling) :
    Text.IsTrimmed (cs ++ ending place) := by
  cases place with
  | none => rwa [ending, List.append_nil]
  | some s =>
    have hlast : ∀ s ∈ spellings, s.1.getLast?.any fun c => !Text.isBlank c := by decide
    exact Text.isTrimmed_append h.1 (hlast s.1 s.2)

theorem strip_append_ending (h : ∀ s ∈ spellings, ¬ s.1 <:+ bare)
    (htrim : Text.trim cs = bare ++ ending place) :
    strip cs = (bare, place.map fun s => s.1.2) := by
  cases place with
  | none =>
    rw [ending, List.append_nil] at htrim
    rw [strip_eq_trim (htrim ▸ h), htrim, Option.map_none]
  | some s => rw [strip_of_spelled s.2 htrim, Option.map_some]

theorem strip_of_close
    (h : (Text.trim cs).getLast? = some ']' ∨ (Text.trim cs).getLast? = some ')') :
    strip cs = (Text.trim cs, none) :=
  strip_eq_trim (not_spelled_of_close h)

theorem strip_of_path (h : ∀ c ∈ cs, AbiType.isPathChar c) : strip cs = (cs, none) := by
  have htrim := AbiType.trim_of_path h
  rw [strip_eq_trim (by rw [htrim]; exact not_spelled_of_path h), htrim]

end DataLocation

section

variable {typeString : String} {declared : Option String} {default : DataLocation}
  {spelled : Option DataLocation}

theorem VariableType.ofText_of_strip (h : DataLocation.strip typeString.toList = (bare, spelled))
    (hl : ((declared.bind DataLocation.ofKeyword?) <|> spelled).getD default = l) :
    ofText typeString declared default = .mk typeString l (.ofText bare l) := by
  simp only [ofText, h, hl]

theorem VariableType.inner_of_strip (h : DataLocation.strip cs = (bare, spelled)) :
    inner cs l = .mk (String.ofList cs) (spelled.getD l) (.ofText bare (spelled.getD l)) := by
  rw [inner, h]

end

namespace TypeKind

/-! ### Brackets and arrows -/

theorem splitBrackets?_append (h : '[' ∉ size) :
    splitBrackets? (base ++ '[' :: size ++ [']']) = some (base, size) := by
  have hreverse : (base ++ '[' :: size ++ [']']).reverse =
      ']' :: (size.reverse ++ '[' :: base.reverse) := by simp
  have hsize : ∀ c ∈ size.reverse, decide (c ≠ '[') = true := by
    intro c hc
    rw [decide_eq_true_eq]
    rintro rfl
    exact h (List.mem_reverse.1 hc)
  have hopen : ('[' :: base.reverse).head?.all fun c => !decide (c ≠ '[') := rfl
  obtain ⟨htake, hdrop⟩ := Text.takeWhile_append_of_head hsize hopen
  rw [splitBrackets?, hreverse]
  simp only [htake, hdrop, List.reverse_reverse]

theorem splitBrackets?_eq_none (h : cs.getLast? ≠ some ']') : splitBrackets? cs = none := by
  rw [splitBrackets?]
  split
  · rename_i rest hreverse
    exact (h (by rw [List.getLast?_eq_head?_reverse, hreverse]; rfl)).elim
  · rfl

theorem lengthOf?_of_digits? {n : Nat} (h : Text.digits? cs = some n) :
    lengthOf? cs = if n < Text.bound64 then some n else none := by
  have htrim : Text.trim cs = cs := AbiType.trim_of_path fun c hc =>
    AbiType.isPathChar_of_isDigit (Text.isDigit_of_digits? h c hc)
  rw [lengthOf?, htrim, Text.unsigned?_of_digits? h]

theorem lengthOf?_digits (n : Nat) :
    lengthOf? (Text.digits n) = if n < Text.bound64 then some n else none :=
  lengthOf?_of_digits? (Text.digits?_digits n)

theorem mappingBody?_append (body : List Char) :
    mappingBody? ("mapping(".toList ++ body ++ [')']) = some body := by
  rw [mappingBody?, Option.bind_eq_some_iff]
  exact ⟨body ++ [')'], by rw [List.isPrefixOf?_eq_some_iff_append_eq, List.append_assoc],
    List.isSuffixOf?_eq_some_iff_append_eq.2 rfl⟩

theorem mappingBody?_eq_none (h : cs.getLast? ≠ some ')' ∨ ¬ "mapping(".toList <+: cs) :
    mappingBody? cs = none := by
  rw [mappingBody?, Option.bind_eq_none_iff]
  intro rest hrest
  rw [List.isPrefixOf?_eq_some_iff_append_eq] at hrest
  rw [Text.isSuffixOf?_eq_none_iff]
  rintro ⟨body, rfl⟩
  rcases h with h | h
  · exact h (by rw [← hrest, ← List.append_assoc, List.getLast?_concat])
  · exact h ⟨_, hrest⟩

/-- Whether the search for an arrow goes through the text and is as deep in parentheses after it. -/
def Skips (depth : Nat) (cs : List Char) : Prop :=
  ∀ rest left right, splitArrow? depth rest = some (left, right) →
    splitArrow? depth (cs ++ rest) = some (cs ++ left, right)

variable {depth : Nat}

theorem Skips.append (h : Skips depth cs) (h' : Skips depth bare) : Skips depth (cs ++ bare) := by
  intro rest left right hrest
  rw [List.append_assoc, List.append_assoc]
  exact h _ _ _ (h' rest left right hrest)

/-- The first character of an arrow is passed by inside of parentheses only. -/
theorem skips_of_forall (h : ∀ c ∈ cs, c ≠ '(' ∧ c ≠ ')' ∧ (depth = 0 → c ≠ '=')) :
    Skips depth cs := by
  intro rest left right hrest
  induction cs with
  | nil => exact hrest
  | cons c cs ih =>
    obtain ⟨⟨hopen, hclose, harrow⟩, hcs⟩ := List.forall_mem_cons.1 h
    rw [List.cons_append, splitArrow?, if_neg (fun h => harrow h.1 h.2.1), if_neg hopen,
      if_neg hclose]
    simp only [ih hcs, Option.map_some, List.cons_append]

/-- Whether the character is part of no parenthesis and no arrow. -/
def isPlain (c : Char) : Bool := c != '(' && c != ')' && c != '='

theorem isPlain_of_isPathChar (h : AbiType.isPathChar c) : isPlain c := by
  have hne : c ≠ '(' ∧ c ≠ ')' ∧ c ≠ '=' := by
    refine ⟨?_, ?_, ?_⟩ <;> rintro rfl <;> exact absurd h (by decide)
  simp [isPlain, hne]

theorem skips_of_plain (h : cs.all isPlain) : Skips depth cs := by
  apply skips_of_forall
  intro c hc
  have hplain : (c ≠ '(' ∧ c ≠ ')') ∧ c ≠ '=' := by
    simpa [isPlain] using List.all_eq_true.1 h c hc
  exact ⟨hplain.1.1, hplain.1.2, fun _ => hplain.2⟩

theorem Skips.parentheses (h : Skips (depth + 1) cs) : Skips depth ('(' :: cs ++ [')']) := by
  intro rest left right hrest
  have hclose : splitArrow? (depth + 1) (')' :: rest) = some (')' :: left, right) := by
    simp [splitArrow?, hrest]
  have hinside := h _ _ _ hclose
  have hopen : splitArrow? depth ('(' :: (cs ++ ')' :: rest)) =
      some ('(' :: (cs ++ ')' :: left), right) := by
    simp [splitArrow?, hinside]
  simpa using hopen

theorem ofText_of_brackets (h : '[' ∉ size) :
    ofText (base ++ '[' :: size ++ [']']) l = .array (.inner base l) (lengthOf? size) := by
  have hmapping : mappingBody? (base ++ '[' :: size ++ [']']) = none :=
    mappingBody?_eq_none (.inl (by rw [List.getLast?_concat]; simp))
  simp only [ofText_eq, hmapping, splitBrackets?_append h]

theorem ofText_of_arrow {body : List Char} (h : splitArrow? 0 body = some (left, right)) :
    ofText ("mapping(".toList ++ body ++ [')']) l =
      .mapping (.inner (Text.trim left) l) (.inner (Text.trim right) l) := by
  simp only [ofText_eq, mappingBody?_append, h]

theorem ofText_of_simple (hbracket : cs.getLast? ≠ some ']')
    (hmapping : cs.getLast? ≠ some ')' ∨ ¬ "mapping(".toList <+: cs) : ofText cs l = simple cs := by
  simp only [ofText_eq, mappingBody?_eq_none hmapping, splitBrackets?_eq_none hbracket]

/-! ### First words -/

/-- What a text starts with that is neither an interface type nor a user-defined one. -/
def keywords : List (List Char) :=
  ["struct ".toList, "enum ".toList, "contract ".toList, "library ".toList, "interface ".toList,
    "function ".toList, "function(".toList, "address payable".toList]

theorem simple_of_no_keyword (h : ∀ w ∈ keywords, ¬ w <+: cs) :
    simple cs =
      match AbiType.ofText? cs with
      | some t => .elementary (String.ofList t.render)
      | none =>
        if isPath cs && !Text.occursIn "const".toList cs then .userDefined (String.ofList cs)
        else .unknown := by
  have hnone : ∀ w ∈ keywords, w.isPrefixOf? cs = none :=
    fun w hw => Text.isPrefixOf?_eq_none_iff.2 (h w hw)
  have hfunction : isFunction cs = false := by
    rw [isFunction, Bool.or_eq_false_iff, Bool.eq_false_iff, Bool.eq_false_iff, ne_eq, ne_eq,
      List.isPrefixOf_iff_prefix, List.isPrefixOf_iff_prefix]
    exact ⟨h _ (by simp [keywords]), h _ (by simp [keywords])⟩
  have haddress : cs ≠ "address payable".toList := by
    rintro rfl
    exact h _ (by simp [keywords]) List.prefix_rfl
  simp only [keywords, List.forall_mem_cons] at hnone
  obtain ⟨hstruct, henum, hcontract, hlibrary, hinterface, -⟩ := hnone
  have hname : contractName? cs = none := by
    rw [contractName?, hcontract, hlibrary, hinterface]
    rfl
  simp only [simple, hstruct, henum, hname, hfunction, haddress]
  cases AbiType.ofText? cs <;> simp

/-- A path holds no blank and no parenthesis, so it is told apart by the name as a whole. -/
theorem ofText_of_path (hne : cs ≠ []) (h : ∀ c ∈ cs, AbiType.isPathChar c) :
    ofText cs l =
      match AbiType.ofText? cs with
      | some t => .elementary (String.ofList t.render)
      | none =>
        if Text.occursIn "const".toList cs then .unknown else .userDefined (String.ofList cs) := by
  have hword : ∀ w, (w.any fun c => !AbiType.isPathChar c) → ¬ w <+: cs := by
    intro w hw hstarts
    obtain ⟨c, hc, hpath⟩ := List.any_eq_true.1 hw
    simp [h c (hstarts.subset hc)] at hpath
  have hbracket : cs.getLast? ≠ some ']' := fun hlast =>
    absurd (h _ (List.mem_of_getLast? hlast)) (by decide)
  have hkeyword : ∀ w ∈ keywords, ¬ w <+: cs := fun w hw =>
    hword w ((by decide : ∀ w ∈ keywords, w.any fun c => !AbiType.isPathChar c) w hw)
  have hpath : isPath cs = true := by
    rw [isPath, Bool.and_eq_true, List.all_eq_true]
    exact ⟨by simpa using hne, h⟩
  rw [ofText_of_simple hbracket (.inr (hword _ (by decide))), simple_of_no_keyword hkeyword, hpath]
  cases AbiType.ofText? cs with
  | some t => rfl
  | none => cases Text.occursIn "const".toList cs <;> rfl

end TypeKind

end TraceTree
