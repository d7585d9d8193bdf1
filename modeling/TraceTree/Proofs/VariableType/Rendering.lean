import TraceTree.Proofs.VariableType.UserDefined

/-!
Types as the compiler spells them. A tree of types has a text and stands for a decoded type, and the
text is decoded as that type (`VariableType.ofText_render`), however brackets, arrows and location
words are nested in it. The induction is on the tree.
-/
namespace TraceTree

open DataLocation (Spelling ending)

/-! ### Trees -/

/-- The words for locations that a declaration can name. -/
def DataLocation.words : List (List Char) :=
  ["storage".toList, "memory".toList, "calldata".toList, "transient".toList]

/-- A name that is not taken for the location of something else. -/
structure TypeName extends QualifiedName where
  not_location : toQualifiedName.text ∉ DataLocation.words

/-- What a word in front of a name tells. -/
inductive NamedSort where
  | struct
  | enumeration
  | contract

def NamedSort.word : NamedSort → List Char
  | struct => "struct".toList
  | enumeration => "enum".toList
  | contract => "contract".toList

def NamedSort.kind (name : String) : NamedSort → TypeKind
  | struct => .struct name
  | enumeration => .enumeration name
  | contract => .contract name

/-- Types that are made of no others. -/
inductive SimpleType where
  | elementary (t : AbiType) (isNamed : t.IsNamed)
  | payable
  | named (sort : NamedSort) (name : TypeName)

def SimpleType.text : SimpleType → List Char
  | elementary t _ => t.render
  | payable => "address payable".toList
  | named sort name => sort.word ++ ' ' :: name.text

def SimpleType.kind : SimpleType → TypeKind
  | elementary t _ => .elementary (String.ofList t.render)
  | payable => .elementary "address"
  | named sort name => sort.kind (String.ofList name.text)

/-- A type with the types that it is made of, each with the location word that it ends with. -/
inductive TypeTree where
  | simple (t : SimpleType) (place : Option Spelling)
  | array (base : TypeTree) (length : Option (Fin Text.bound64)) (place : Option Spelling)
  | mapping (key value : TypeTree) (place : Option Spelling)

namespace TypeTree

def place : TypeTree → Option Spelling
  | simple _ place | array _ _ place | mapping _ _ place => place

/-- The location that the tree names for itself. -/
def location? (t : TypeTree) : Option DataLocation := t.place.map fun s => s.1.2

/-- What stands between brackets for a length. -/
def size : Option (Fin Text.bound64) → List Char
  | none => []
  | some n => Text.digits n

/-- The text of a tree up to the location word of the whole. -/
def bare : TypeTree → List Char
  | simple t _ => t.text
  | array base length _ => (base.bare ++ ending base.place) ++ '[' :: size length ++ [']']
  | mapping key value _ =>
    "mapping(".toList ++
      ((key.bare ++ ending key.place) ++ (" => ".toList ++ (value.bare ++ ending value.place))) ++
      [')']

def render (t : TypeTree) : List Char := t.bare ++ ending t.place

/-- What the tree stands for at a location. A tree inside that names no location is where the tree
around it is. -/
def decoded : TypeTree → DataLocation → VariableType
  | simple t place, l => .mk (String.ofList (simple t place).render) l t.kind
  | array base length place, l =>
    .mk (String.ofList (array base length place).render) l
      (.array (base.decoded (base.location?.getD l)) (length.map Fin.val))
  | mapping key value place, l =>
    .mk (String.ofList (mapping key value place).render) l
      (.mapping (key.decoded (key.location?.getD l)) (value.decoded (value.location?.getD l)))

end TypeTree

variable {l : DataLocation} {depth : Nat}

/-! ### Simple types -/

theorem NamedSort.isPathChar_of_mem_word (s : NamedSort) :
    ∀ c ∈ s.word, AbiType.isPathChar c := by
  rw [← List.all_eq_true]
  cases s <;> rfl

/-- Behind the only blank of a text stands what the text ends with after a blank. -/
theorem eq_of_suffix_of_not_mem {lead cs word : List Char} (hlead : ' ' ∉ lead) (hcs : ' ' ∉ cs)
    (h : ' ' :: word <:+ lead ++ ' ' :: cs) : cs = word := by
  obtain ⟨rest, hrest⟩ := h
  rcases List.append_eq_append_iff.1 hrest with ⟨middle, rfl, hword⟩ | ⟨middle, rfl, hword⟩
  · cases middle with
    | nil => simpa using hword.symm
    | cons c middle => simp_all
  · cases middle with
    | nil => simpa using hword
    | cons c middle => simp_all

namespace SimpleType

@[simp] theorem text_elementary {t : AbiType} (h : t.IsNamed) :
    (elementary t h).text = t.render := rfl

@[simp] theorem text_named (sort : NamedSort) (name : TypeName) :
    (named sort name).text = sort.word ++ ' ' :: name.text := rfl

theorem isPathChar_or_blank (t : SimpleType) : ∀ c ∈ t.text, AbiType.isPathChar c ∨ c = ' ' := by
  cases t with
  | elementary t h => exact fun c hc => .inl (AbiType.isPathChar_of_mem_render h c hc)
  | payable =>
    have hall : "address payable".toList.all fun c => AbiType.isPathChar c || c == ' ' := rfl
    exact fun c hc => by simpa using List.all_eq_true.1 hall c hc
  | named sort name =>
    intro c hc
    rcases List.mem_append.1 hc with hc | hc
    · exact .inl (sort.isPathChar_of_mem_word c hc)
    · rcases List.mem_cons.1 hc with hc | hc
      · exact .inr hc
      · exact .inl (name.isPathChar_of_mem_text c hc)

theorem getLast?_named (sort : NamedSort) (name : TypeName) :
    (named sort name).text.getLast? = name.text.getLast? := by
  rw [text_named, List.append_cons, List.getLast?_append,
    Option.or_of_isSome (by simpa using name.text_ne_nil)]

theorem isTrimmed_text (t : SimpleType) : Text.IsTrimmed t.text := by
  cases t with
  | elementary t h =>
    rw [text_elementary]
    exact AbiType.isTrimmed_of_path (AbiType.render_ne_nil h) (AbiType.isPathChar_of_mem_render h)
  | payable => exact ⟨rfl, rfl⟩
  | named sort name =>
    have hname := AbiType.isTrimmed_of_path name.text_ne_nil name.isPathChar_of_mem_text
    exact ⟨by cases sort <;> rfl, by rw [getLast?_named]; exact hname.2⟩

theorem not_spelled_text (t : SimpleType) : ∀ s ∈ DataLocation.spellings, ¬ s.1 <:+ t.text := by
  cases t with
  | elementary t h =>
    rw [text_elementary]
    exact DataLocation.not_spelled_of_path (AbiType.isPathChar_of_mem_render h)
  | payable => decide
  | named sort name =>
    intro s hs hsuffix
    have hword : ' ' ∉ sort.word := by cases sort <;> decide
    have hname : ' ' ∉ name.text := fun h =>
      absurd (name.isPathChar_of_mem_text ' ' h) (by decide)
    -- each location word has a blank in front, and here that is the one before the name
    obtain ⟨hhead, htail⟩ := (by decide : ∀ s ∈ DataLocation.spellings, s.1.head? = some ' ' ∧
      (s.1.tail ∈ DataLocation.words ∨ ' ' ∈ s.1.tail)) s hs
    obtain ⟨word, hs'⟩ := List.head?_eq_some_iff.1 hhead
    rw [hs'] at hsuffix htail
    obtain rfl : name.text = word := eq_of_suffix_of_not_mem hword hname hsuffix
    exact htail.elim name.not_location hname

theorem simple_named (sort : NamedSort) (cs : List Char) :
    TypeKind.simple (sort.word ++ ' ' :: cs) = sort.kind (String.ofList cs) := by
  cases sort with
  | struct =>
    have hname : "struct ".toList.isPrefixOf? (NamedSort.struct.word ++ ' ' :: cs) = some cs := rfl
    simp only [TypeKind.simple, hname, NamedSort.kind]
  | enumeration =>
    have hstruct : "struct ".toList.isPrefixOf? (NamedSort.enumeration.word ++ ' ' :: cs) = none :=
      rfl
    have hname : "enum ".toList.isPrefixOf? (NamedSort.enumeration.word ++ ' ' :: cs) = some cs :=
      rfl
    simp only [TypeKind.simple, hstruct, hname, NamedSort.kind]
  | contract =>
    have hstruct : "struct ".toList.isPrefixOf? (NamedSort.contract.word ++ ' ' :: cs) = none := rfl
    have henum : "enum ".toList.isPrefixOf? (NamedSort.contract.word ++ ' ' :: cs) = none := rfl
    have hname : TypeKind.contractName? (NamedSort.contract.word ++ ' ' :: cs) = some cs := rfl
    simp only [TypeKind.simple, hstruct, henum, hname, NamedSort.kind]

theorem ofText_elementary {t : AbiType} (h : t.IsNamed) :
    TypeKind.ofText t.render l = .elementary (String.ofList t.render) := by
  have ht : AbiType.ofText? t.render = some t :=
    AbiType.ofText?_eq_some_iff.2 (AbiType.spells_render_of_isNamed h)
  simp only [TypeKind.ofText_of_path (AbiType.render_ne_nil h) (AbiType.isPathChar_of_mem_render h),
    ht]

theorem ofText_payable : TypeKind.ofText "address payable".toList l = .elementary "address" := by
  rw [TypeKind.ofText_of_simple (by simp) (.inl (by simp))]
  simp [TypeKind.simple, TypeKind.contractName?, TypeKind.isFunction, List.isPrefixOf?]

theorem ofText_named (sort : NamedSort) (name : TypeName) :
    TypeKind.ofText (named sort name).text l = sort.kind (String.ofList name.text) := by
  have hlast : ∀ c, AbiType.isPathChar c = false → (named sort name).text.getLast? ≠ some c := by
    intro c hc hlast
    rw [getLast?_named] at hlast
    exact absurd (name.isPathChar_of_mem_text c (List.mem_of_getLast? hlast)) (by simp [hc])
  rw [TypeKind.ofText_of_simple (hlast _ rfl) (.inl (hlast _ rfl)), text_named, simple_named]

theorem ofText_text (t : SimpleType) : TypeKind.ofText t.text l = t.kind := by
  cases t with
  | elementary t h => exact ofText_elementary h
  | payable => exact ofText_payable
  | named sort name => exact ofText_named sort name

theorem skips_text (t : SimpleType) : TypeKind.Skips depth t.text := by
  apply TypeKind.skips_of_plain
  rw [List.all_eq_true]
  intro c hc
  rcases t.isPathChar_or_blank c hc with hpath | rfl
  · exact TypeKind.isPlain_of_isPathChar hpath
  · rfl

end SimpleType

/-! ### Trees -/

theorem DataLocation.skips_ending (place : Option Spelling) :
    TypeKind.Skips depth (ending place) := by
  cases place with
  | none => exact TypeKind.skips_of_plain rfl
  | some s =>
    have hspelled : ∀ s ∈ spellings, s.1.all TypeKind.isPlain := by decide
    exact TypeKind.skips_of_plain (hspelled s.1 s.2)

namespace TypeTree

@[simp] theorem bare_array (base : TypeTree) (length : Option (Fin Text.bound64))
    (place : Option Spelling) :
    (array base length place).bare = base.render ++ '[' :: size length ++ [']'] := rfl

@[simp] theorem bare_mapping (key value : TypeTree) (place : Option Spelling) :
    (mapping key value place).bare =
      "mapping(".toList ++ (key.render ++ (" => ".toList ++ value.render)) ++ [')'] := rfl

theorem isDigit_of_mem_size {length : Option (Fin Text.bound64)} :
    ∀ c ∈ size length, c.isDigit := by
  cases length with
  | none => simp [size]
  | some n => exact fun c hc => Text.isDigit_of_mem_digits hc

theorem lengthOf?_size (length : Option (Fin Text.bound64)) :
    TypeKind.lengthOf? (size length) = length.map Fin.val := by
  cases length with
  | none => rfl
  | some n => rw [size, TypeKind.lengthOf?_digits, if_pos n.isLt, Option.map_some]

theorem isTrimmed_bare (t : TypeTree) : Text.IsTrimmed t.bare := by
  induction t with
  | simple t _ => exact t.isTrimmed_text
  | array base length _ ih =>
    have hbase := DataLocation.isTrimmed_append_ending ih base.place
    rw [bare_array, List.append_assoc]
    exact Text.isTrimmed_append hbase.1 (by rw [List.getLast?_concat]; rfl)
  | mapping _ _ _ _ _ => exact Text.isTrimmed_append (by rfl) rfl

theorem isTrimmed_render (t : TypeTree) : Text.IsTrimmed t.render :=
  DataLocation.isTrimmed_append_ending t.isTrimmed_bare t.place

theorem strip_render (t : TypeTree) : DataLocation.strip t.render = (t.bare, t.location?) := by
  apply DataLocation.strip_append_ending _ t.isTrimmed_render.trim
  cases t with
  | simple t _ => exact t.not_spelled_text
  | array _ _ _ => exact DataLocation.not_spelled_of_close (.inl List.getLast?_concat)
  | mapping _ _ _ => exact DataLocation.not_spelled_of_close (.inr List.getLast?_concat)

theorem skips_size (length : Option (Fin Text.bound64)) : TypeKind.Skips depth (size length) :=
  TypeKind.skips_of_plain <| List.all_eq_true.2 fun c hc =>
    TypeKind.isPlain_of_isPathChar (AbiType.isPathChar_of_isDigit (isDigit_of_mem_size c hc))

/-- Arrows of a tree stand in parentheses. -/
theorem skips_render (t : TypeTree) (depth : Nat) : TypeKind.Skips depth t.render := by
  suffices h : TypeKind.Skips depth t.bare from h.append (DataLocation.skips_ending t.place)
  induction t generalizing depth with
  | simple t _ => exact t.skips_text
  | array base length place ih =>
    have hbase := (ih depth).append (DataLocation.skips_ending base.place)
    have hopen : TypeKind.Skips depth ['['] := TypeKind.skips_of_plain rfl
    have hclose : TypeKind.Skips depth [']'] := TypeKind.skips_of_plain rfl
    have hsize := (hopen.append (skips_size length)).append hclose
    rw [bare_array, List.append_assoc]
    exact hbase.append hsize
  | mapping key value place hkey hvalue =>
    have hkey := (hkey (depth + 1)).append (DataLocation.skips_ending key.place)
    have hvalue := (hvalue (depth + 1)).append (DataLocation.skips_ending value.place)
    have hword : TypeKind.Skips depth "mapping".toList := TypeKind.skips_of_plain rfl
    have harrow : TypeKind.Skips (depth + 1) " => ".toList := TypeKind.skips_of_forall (by simp)
    have hbody := (hkey.append (harrow.append hvalue)).parentheses
    exact hword.append hbody

theorem decoded_eq (t : TypeTree) (l : DataLocation) :
    t.decoded l = .mk (String.ofList t.render) l (t.decoded l).kind := by
  cases t <;> rfl

theorem inner_render (t : TypeTree)
    (h : ∀ l, TypeKind.ofText t.bare l = (t.decoded l).kind) (l : DataLocation) :
    VariableType.inner t.render l = t.decoded (t.location?.getD l) := by
  rw [VariableType.inner_of_strip t.strip_render, h, ← t.decoded_eq]

theorem ofText_bare (t : TypeTree) (l : DataLocation) :
    TypeKind.ofText t.bare l = (t.decoded l).kind := by
  induction t generalizing l with
  | simple t _ => exact t.ofText_text
  | array base length place ih =>
    have hopen : '[' ∉ size length := fun hmem => absurd (isDigit_of_mem_size '[' hmem) (by decide)
    rw [bare_array, TypeKind.ofText_of_brackets hopen, lengthOf?_size, base.inner_render ih]
    rfl
  | mapping key value place hkey hvalue =>
    -- arrows of the key stand in its own parentheses, so this is the first one outside of any
    have harrow : TypeKind.splitArrow? 0 (key.render ++ (" => ".toList ++ value.render)) =
        some (key.render ++ [' '], ' ' :: value.render) := key.skips_render 0 _ _ _ rfl
    have hleft : Text.trim (key.render ++ [' ']) = key.render := by
      simpa using key.isTrimmed_render.trim_append [] [' '] (by simp [Text.isBlank])
    have hright : Text.trim (' ' :: value.render) = value.render := by
      simpa [Text.isBlank] using value.isTrimmed_render.trim_append [' '] [] (by simp)
    rw [bare_mapping, TypeKind.ofText_of_arrow harrow, hleft, hright, key.inner_render hkey,
      value.inner_render hvalue]
    rfl

end TypeTree

/-- A rendered tree is decoded as what it stands for. The location of the whole is the declared one,
or else the one that the tree names, or else the default. -/
theorem VariableType.ofText_render (t : TypeTree) (declared : Option String)
    (default : DataLocation) :
    ofText (String.ofList t.render) declared default =
      t.decoded (((declared.bind DataLocation.ofKeyword?) <|> t.location?).getD default) := by
  have hstrip : DataLocation.strip (String.ofList t.render).toList = (t.bare, t.location?) := by
    rw [String.toList_ofList, t.strip_render]
  rw [ofText_of_strip hstrip rfl, t.ofText_bare, ← t.decoded_eq]

example : (TypeTree.mapping (.simple (.elementary .address trivial) none)
      (.array (.simple .payable none) (some ⟨3, by decide⟩)
        (some ⟨(" storage".toList, .storage), by decide⟩)) none).render =
    "mapping(address => address payable[3] storage)".toList := by decide

end TraceTree
