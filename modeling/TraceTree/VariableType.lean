import TraceTree.AbiType
import TraceTree.Json.Record
import TraceTree.Text

/-!
Types of variables as the compiler spells them, such as `mapping(address => uint256[3])` or
`struct Vault.Position storage ref`, decoded into structure and data location. What cannot be
decoded is of unknown kind.
-/
namespace TraceTree

/-- Where a variable's value lives, or the data that its stack slot points to. -/
inductive DataLocation where
  | storage
  | memory
  | calldata
  | transient
  | stack
  deriving DecidableEq, Inhabited

mutual

/-- A type with the text that spells it and its data location. -/
inductive VariableType where
  | mk (typeString : String) (location : DataLocation) (kind : TypeKind)

/-- The structure of a type. An array without a length is dynamic. -/
inductive TypeKind where
  | elementary (name : String)
  | array (base : VariableType) (length : Option Nat)
  | mapping (key value : VariableType)
  | struct (name : String)
  | enumeration (name : String)
  | contract (name : String)
  | userDefined (name : String)
  | function
  | unknown

end

deriving instance DecidableEq for VariableType, TypeKind

namespace DataLocation

def name : DataLocation → String
  | storage => "storage"
  | memory => "memory"
  | calldata => "calldata"
  | transient => "transient"
  | stack => "stack"

def ofName? : String → Option DataLocation
  | "storage" => some storage
  | "memory" => some memory
  | "calldata" => some calldata
  | "transient" => some transient
  | "stack" => some stack
  | _ => none

/-- The location that a declaration's keyword names; the stack has no keyword. -/
def ofKeyword? (keyword : String) : Option DataLocation :=
  (ofName? keyword).filter (· != stack)

def ofJson? (j : Json) : Option DataLocation := (Json.readTag j).bind ofName?

/-- The words that spell a location after a type, longer ones first. -/
def spellings : List (List Char × DataLocation) :=
  [(" storage ref".toList, storage), (" storage pointer".toList, storage),
    (" storage".toList, storage), (" memory".toList, memory), (" calldata".toList, calldata),
    (" transient".toList, transient)]

/-- Takes the spelled location off a trimmed text. -/
def strip (cs : List Char) : List Char × Option DataLocation :=
  let cs := Text.trim cs
  let found := spellings.findSome? fun (word, location) =>
    (word.isSuffixOf? cs).map fun rest => (rest, some location)
  found.getD (cs, none)

end DataLocation

namespace VariableType

instance : Inhabited VariableType := ⟨.mk "" .stack .unknown⟩

def typeString : VariableType → String
  | mk text _ _ => text

def location : VariableType → DataLocation
  | mk _ location _ => location

def kind : VariableType → TypeKind
  | mk _ _ kind => kind

end VariableType

namespace TypeKind

/-! ### Taking a type apart -/

/-- What stands between the parentheses of a mapping. -/
def mappingBody? (cs : List Char) : Option (List Char) :=
  ("mapping(".toList.isPrefixOf? cs).bind ([')'].isSuffixOf? ·)

/-- The two sides of the first arrow that stands in no parentheses. -/
def splitArrow? (depth : Nat) : List Char → Option (List Char × List Char)
  | [] => none
  | c :: cs =>
    if depth = 0 ∧ c = '=' ∧ cs.head? = some '>' then some ([], cs.tail)
    else
      let depth := if c = '(' then depth + 1 else if c = ')' then depth - 1 else depth
      (splitArrow? depth cs).map fun (left, right) => (c :: left, right)

/-- What stands before the last opening bracket, and what between it and a closing one at the
end. -/
def splitBrackets? (cs : List Char) : Option (List Char × List Char) :=
  match cs.reverse with
  | ']' :: rest =>
    match rest.dropWhile (· ≠ '[') with
    | _ :: base => some (base.reverse, (rest.takeWhile (· ≠ '[')).reverse)
    | [] => none
  | _ => none

/-- The length between brackets; what is no number that fits gives none. -/
def lengthOf? (cs : List Char) : Option Nat := Text.unsigned? Text.bound64 (Text.trim cs)

/-- Letters, digits, underscores, dollar signs and dots. -/
def isPath (cs : List Char) : Bool :=
  !cs.isEmpty && cs.all fun c => c.isAlphanum || c == '_' || c == '$' || c == '.'

/-- What stands after one of the words for contracts. -/
def contractName? (cs : List Char) : Option (List Char) :=
  "contract ".toList.isPrefixOf? cs <|> "library ".toList.isPrefixOf? cs
    <|> "interface ".toList.isPrefixOf? cs

def isFunction (cs : List Char) : Bool :=
  "function ".toList.isPrefixOf cs || "function(".toList.isPrefixOf cs

/-- The kind of a type that is neither a mapping nor an array. -/
def simple (cs : List Char) : TypeKind :=
  if let some name := "struct ".toList.isPrefixOf? cs then .struct (String.ofList name)
  else if let some name := "enum ".toList.isPrefixOf? cs then .enumeration (String.ofList name)
  else if let some name := contractName? cs then .contract (String.ofList name)
  else if isFunction cs then .function
  else if cs = "address payable".toList then .elementary "address"
  else if let some t := AbiType.ofText? cs then .elementary (String.ofList t.render)
  else if isPath cs && !Text.occursIn "const".toList cs then .userDefined (String.ofList cs)
  else .unknown

/-! ### Measures -/

theorem length_strip_le (cs : List Char) : (DataLocation.strip cs).1.length ≤ cs.length := by
  have ht := Text.length_trim_le cs
  simp only [DataLocation.strip]
  cases hf : DataLocation.spellings.findSome? fun (word, location) =>
      (word.isSuffixOf? (Text.trim cs)).map fun rest => (rest, some location) with
  | none => simpa using ht
  | some found =>
    obtain ⟨⟨word, location⟩, -, he⟩ := List.exists_of_findSome?_eq_some hf
    obtain ⟨rest, hr, rfl⟩ := Option.map_eq_some_iff.1 he
    have hl := Text.length_of_isSuffixOf? hr
    simp only [Option.getD_some]
    omega

theorem length_mappingBody?_lt {cs body : List Char} (h : mappingBody? cs = some body) :
    body.length < cs.length := by
  obtain ⟨rest, h1, h2⟩ := Option.bind_eq_some_iff.1 h
  have hword : 0 < "mapping(".toList.length := by decide
  have hrest := Text.length_of_isPrefixOf? h1
  have hbody := Text.length_of_isSuffixOf? h2
  omega

theorem length_splitArrow?_le {depth : Nat} {cs left right : List Char}
    (h : splitArrow? depth cs = some (left, right)) :
    left.length ≤ cs.length ∧ right.length ≤ cs.length := by
  induction cs generalizing depth left right with
  | nil => simp [splitArrow?] at h
  | cons c cs ih =>
    rw [splitArrow?] at h
    split at h
    · simp only [Option.some.injEq, Prod.mk.injEq] at h
      obtain ⟨rfl, rfl⟩ := h
      simp only [List.length_nil, List.length_cons, List.length_tail]
      omega
    · obtain ⟨⟨l, r⟩, hlr, he⟩ := Option.map_eq_some_iff.1 h
      simp only [Prod.mk.injEq] at he
      obtain ⟨rfl, rfl⟩ := he
      have := ih hlr
      simp only [List.length_cons]
      omega

theorem length_splitBrackets?_lt {cs base size : List Char}
    (h : splitBrackets? cs = some (base, size)) : base.length < cs.length := by
  unfold splitBrackets? at h
  split at h
  · rename_i rest hr
    split at h
    · rename_i b base' hd
      simp only [Option.some.injEq, Prod.mk.injEq] at h
      obtain ⟨rfl, rfl⟩ := h
      have h1 := congrArg List.length hr
      have h2 := (List.dropWhile_suffix (l := rest) (· ≠ '[')).length_le
      rw [hd] at h2
      simp only [List.length_reverse, List.length_cons] at h1 h2 ⊢
      omega
    · simp at h
  · simp at h

/-! ### Decoding -/

/-- The structure of a type whose own location is `location`. Inner types without a spelled location
take that of the type around them. -/
def ofText (cs : List Char) (location : DataLocation) : TypeKind :=
  let inner (text : List Char) (bare : List Char × Option DataLocation)
      (_ : bare.1.length < cs.length) : VariableType :=
    let here := bare.2.getD location
    .mk (String.ofList text) here (ofText bare.1 here)
  match hm : mappingBody? cs with
  | some body =>
    match ha : splitArrow? 0 body with
    | some (left, right) =>
      let key := Text.trim left
      let value := Text.trim right
      .mapping
        (inner key (DataLocation.strip key) (by
          have h1 := length_mappingBody?_lt hm
          have h2 := (length_splitArrow?_le ha).1
          have h3 : key.length ≤ left.length := Text.length_trim_le left
          have h4 := length_strip_le key
          omega))
        (inner value (DataLocation.strip value) (by
          have h1 := length_mappingBody?_lt hm
          have h2 := (length_splitArrow?_le ha).2
          have h3 : value.length ≤ right.length := Text.length_trim_le right
          have h4 := length_strip_le value
          omega))
    | none => .unknown
  | none =>
    match hs : splitBrackets? cs with
    | some (base, size) =>
      .array
        (inner base (DataLocation.strip base) (by
          have h1 := length_splitBrackets?_lt hs
          have h2 := length_strip_le base
          omega))
        (lengthOf? size)
    | none => simple cs
termination_by cs.length

end TypeKind

namespace VariableType

/-- Decodes an inner type inside of one whose location is `location`. -/
def inner (text : List Char) (location : DataLocation) : VariableType :=
  let (bare, spelled) := DataLocation.strip text
  let here := spelled.getD location
  .mk (String.ofList text) here (.ofText bare here)

/-- Decodes a type. Its location is the declared one when that is a keyword, else the one spelled in
the text, else `default`. -/
def ofText (typeString : String) (declared : Option String) (default : DataLocation) :
    VariableType :=
  let (bare, spelled) := DataLocation.strip typeString.toList
  let location := ((declared.bind DataLocation.ofKeyword?) <|> spelled).getD default
  .mk typeString location (.ofText bare location)

end VariableType

/-- One level of decoding, in terms of the inner types. -/
theorem TypeKind.ofText_eq (cs : List Char) (location : DataLocation) :
    TypeKind.ofText cs location =
      match mappingBody? cs with
      | some body =>
        match splitArrow? 0 body with
        | some (left, right) =>
          .mapping (.inner (Text.trim left) location) (.inner (Text.trim right) location)
        | none => .unknown
      | none =>
        match splitBrackets? cs with
        | some (base, size) => .array (.inner base location) (lengthOf? size)
        | none => simple cs := by
  rw [TypeKind.ofText]
  split
  · rename_i body hm
    simp only [hm]
    split
    · rename_i left right ha
      simp only [ha, VariableType.inner]
    · rename_i ha
      simp only [ha]
  · rename_i hm
    simp only [hm]
    split
    · rename_i base size hs
      simp only [hs, VariableType.inner]
    · rename_i hs
      simp only [hs]

/-! ### Interface types -/

mutual

/-- The interface type of a value, where it has one: enumerations are small numbers and contracts
are addresses. -/
def VariableType.abiType? : VariableType → Option AbiType
  | .mk _ _ kind => kind.abiType?

def TypeKind.abiType? : TypeKind → Option AbiType
  | .elementary name => AbiType.ofText? name.toList
  | .array base length => base.abiType?.map fun t => t.ofSize length
  | .enumeration _ => some (.uint 8)
  | .contract _ => some .address
  | .function => some .function
  | .mapping _ _ | .struct _ | .userDefined _ | .unknown => none

end

/-! ### Data -/

mutual

def VariableType.toJson : VariableType → Json
  | .mk typeString location kind =>
    .object [("type_string", .string typeString), ("location", .string location.name),
      ("kind", kind.toJson)]

def TypeKind.toJson : TypeKind → Json
  | .elementary name => .object [("elementary", .string name)]
  | .array base length =>
    .object [("array", .object [("base", base.toJson), ("len", Json.option Json.nat length)])]
  | .mapping key value =>
    .object [("mapping", .object [("key", key.toJson), ("value", value.toJson)])]
  | .struct name => .object [("struct", .string name)]
  | .enumeration name => .object [("enum", .string name)]
  | .contract name => .object [("contract", .string name)]
  | .userDefined name => .object [("userDefinedValue", .string name)]
  | .function => .string "function"
  | .unknown => .string "unknown"

end

/-- The kinds that are written as a name alone. -/
def TypeKind.ofTag? : String → Option TypeKind
  | "function" => some .function
  | "unknown" => some .unknown
  | _ => none

/-- The kinds that are written as a name over a text. -/
def TypeKind.ofNamed? (tag name : String) : Option TypeKind :=
  match tag with
  | "elementary" => some (.elementary name)
  | "struct" => some (.struct name)
  | "enum" => some (.enumeration name)
  | "contract" => some (.contract name)
  | "userDefinedValue" => some (.userDefined name)
  | _ => none

mutual

def VariableType.ofJson? : Json → Option VariableType
  | .object ms => do
    let fs ← Json.fields? ["type_string", "location", "kind"] (.object ms)
    let typeString ← fs.required "type_string" Json.readString
    let location ← fs.required "location" DataLocation.ofJson?
    let kind ← TypeKind.inMembers? "kind" ms
    return .mk typeString location kind
  | .array [a, b, c] => do
    let typeString ← Json.readString a
    let location ← DataLocation.ofJson? b
    let kind ← TypeKind.ofJson? c
    return .mk typeString location kind
  | _ => none

def TypeKind.ofJson? : Json → Option TypeKind
  | .string tag => TypeKind.ofTag? tag
  | .object [("array", .object ms)] => do
    let fs ← Json.fields? ["base", "len"] (.object ms)
    let base ← VariableType.inMembers? "base" ms
    let length ← fs.optional "len" Json.readNat64
    return .array base length
  | .object [("mapping", .object ms)] => do
    let _ ← Json.fields? ["key", "value"] (.object ms)
    let key ← VariableType.inMembers? "key" ms
    let value ← VariableType.inMembers? "value" ms
    return .mapping key value
  | .object [(tag, .string name)] => TypeKind.ofNamed? tag name
  | .object [(tag, .null)] => TypeKind.ofTag? tag
  | _ => none

/-- The kind under the first member of that name. -/
def TypeKind.inMembers? (name : String) : List (String × Json) → Option TypeKind
  | [] => none
  | (k, j) :: ms => if k = name then TypeKind.ofJson? j else TypeKind.inMembers? name ms

/-- The type under the first member of that name. -/
def VariableType.inMembers? (name : String) : List (String × Json) → Option VariableType
  | [] => none
  | (k, j) :: ms => if k = name then VariableType.ofJson? j else VariableType.inMembers? name ms

end

end TraceTree
