import TraceTree.Proofs.Json.Reads
import TraceTree.VariableType

/-!
Decoded types as data. A type reads back from what is written of it, with the members of its objects
in any order (`VariableType.reads_toJson`), by induction on the nesting of types.
-/
namespace TraceTree

open Json (Reads)

/-! ### Written names -/

theorem DataLocation.ofName?_name (l : DataLocation) : ofName? l.name = some l := by
  cases l <;> rfl

theorem DataLocation.reads_name (l : DataLocation) :
    Reads DataLocation.ofJson? (.string l.name) l :=
  Json.reads_tag l.ofName?_name

/-! ### Types -/

mutual

/-- Whether every length of an array in the type is a number of 64 bits. -/
def VariableType.fits : VariableType → Bool
  | .mk _ _ kind => kind.fits

def TypeKind.fits : TypeKind → Bool
  | .array base length => base.fits && length.all (· < Text.bound64)
  | .mapping key value => key.fits && value.fits
  | _ => true

end

theorem TypeKind.inMembers?_eq (name : String) (ms : List (String × Json)) :
    TypeKind.inMembers? name ms = (Json.memberIn name ms).bind TypeKind.ofJson? := by
  induction ms with
  | nil => rfl
  | cons m ms ih =>
    rw [TypeKind.inMembers?, Json.memberIn]
    split
    · rfl
    · exact ih

theorem VariableType.inMembers?_eq (name : String) (ms : List (String × Json)) :
    VariableType.inMembers? name ms = (Json.memberIn name ms).bind VariableType.ofJson? := by
  induction ms with
  | nil => rfl
  | cons m ms ih =>
    rw [VariableType.inMembers?, Json.memberIn]
    split
    · rfl
    · exact ih

section Members

variable {ms ns : List (String × Json)} {name : String} {v : Json}

theorem TypeKind.inMembers?_of_holds {k : TypeKind} (h : Json.Fields.Holds ⟨ns, false⟩ ms)
    (hv : Json.memberIn name ms = some v) (hk : Reads TypeKind.ofJson? v k) :
    TypeKind.inMembers? name ns = some k :=
  (inMembers?_eq name ns).trans (h.required hv hk)

theorem VariableType.inMembers?_of_holds {t : VariableType} (h : Json.Fields.Holds ⟨ns, false⟩ ms)
    (hv : Json.memberIn name ms = some v) (ht : Reads VariableType.ofJson? v t) :
    VariableType.inMembers? name ns = some t :=
  (inMembers?_eq name ns).trans (h.required hv ht)

end Members

/-- The kinds that are a name over a text. -/
theorem TypeKind.reads_named {tag name : String} {k : TypeKind} (h : ofNamed? tag name = some k) :
    Reads TypeKind.ofJson? (.object [(tag, .string name)]) k := by
  intro j hj
  obtain ⟨w, rfl, hw⟩ := hj.of_single
  rw [hw.of_string, TypeKind.ofJson?]
  exact h

mutual

theorem VariableType.reads_toJson : ∀ (t : VariableType), t.fits →
    Reads VariableType.ofJson? t.toJson t
  | .mk typeString location kind, h => by
    intro j hj
    rw [VariableType.toJson] at hj
    obtain ⟨ns, rfl, hfields, hholds⟩ :=
      Json.exists_fields ["type_string", "location", "kind"] rfl (by decide) hj
    rw [VariableType.ofJson?, hfields, Option.bind_eq_bind, Option.bind_some,
      hholds.required rfl (Json.reads_string typeString), hholds.required rfl location.reads_name,
      TypeKind.inMembers?_of_holds hholds rfl (TypeKind.reads_toJson kind h)]
    rfl

theorem TypeKind.reads_toJson : ∀ (k : TypeKind), k.fits → Reads TypeKind.ofJson? k.toJson k
  | .array base length, h => by
    rw [TypeKind.fits, Bool.and_eq_true] at h
    intro j hj
    rw [TypeKind.toJson] at hj
    obtain ⟨w, rfl, hw⟩ := hj.of_single
    obtain ⟨ns, rfl, hfields, hholds⟩ := Json.exists_fields ["base", "len"] rfl (by decide) hw
    have hlength : Reads (Json.readOption Json.readNat64) (Json.option Json.nat length) length :=
      .option rfl fun n hn =>
        Json.reads_nat64 (of_decide_eq_true ((Option.all_eq_true _ _).1 h.2 n hn))
    rw [TypeKind.ofJson?, hfields, Option.bind_eq_bind, Option.bind_some,
      VariableType.inMembers?_of_holds hholds rfl (VariableType.reads_toJson base h.1),
      hholds.optional rfl hlength]
    rfl
  | .mapping key value, h => by
    rw [TypeKind.fits, Bool.and_eq_true] at h
    intro j hj
    rw [TypeKind.toJson] at hj
    obtain ⟨w, rfl, hw⟩ := hj.of_single
    obtain ⟨ns, rfl, hfields, hholds⟩ := Json.exists_fields ["key", "value"] rfl (by decide) hw
    rw [TypeKind.ofJson?, hfields, Option.bind_eq_bind, Option.bind_some,
      VariableType.inMembers?_of_holds hholds rfl (VariableType.reads_toJson key h.1),
      VariableType.inMembers?_of_holds hholds rfl (VariableType.reads_toJson value h.2)]
    rfl
  | .elementary _, _ | .struct _, _ | .enumeration _, _ | .contract _, _ | .userDefined _, _ =>
    TypeKind.reads_named rfl
  | .function, _ | .unknown, _ => fun j hj => by rw [hj.of_string]; rfl

end

mutual

@[simp] theorem VariableType.namesDistinct_toJson : ∀ t : VariableType, t.toJson.namesDistinct
  | .mk _ _ kind => by simp [VariableType.toJson, TypeKind.namesDistinct_toJson kind]

@[simp] theorem TypeKind.namesDistinct_toJson : ∀ k : TypeKind, k.toJson.namesDistinct
  | .array base _ => by
    simp [TypeKind.toJson, VariableType.namesDistinct_toJson base,
      Json.namesDistinct_option Json.namesDistinct_nat]
  | .mapping key value => by
    simp [TypeKind.toJson, VariableType.namesDistinct_toJson key,
      VariableType.namesDistinct_toJson value]
  | .elementary _ | .struct _ | .enumeration _ | .contract _ | .userDefined _ | .function
  | .unknown => by simp [TypeKind.toJson]

end

end TraceTree
