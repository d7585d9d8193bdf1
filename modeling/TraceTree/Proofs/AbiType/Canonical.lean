import TraceTree.Proofs.AbiType.Grammar

/-!
Canonical names read back. Whatever text was accepted as a type, the name that is written for the
type is accepted as the same type (`ofText?_render`), by induction on the derivation of the text.
-/
namespace TraceTree.AbiType

variable {cs ds word : List Char} {t : AbiType} {ts : List AbiType} {n : Nat} {k : Option Nat}

/-! ### What is written -/

@[simp] theorem render_uint (bits : Nat) :
    (uint bits).render = "uint".toList ++ Text.digits bits := rfl

@[simp] theorem render_int (bits : Nat) :
    (int bits).render = "int".toList ++ Text.digits bits := rfl

@[simp] theorem render_fixedBytes (size : Nat) :
    (fixedBytes size).render = "bytes".toList ++ Text.digits size := rfl

@[simp] theorem render_unit : (tuple []).render = ['(', ')'] := rfl

@[simp] theorem render_tuple_one (t : AbiType) :
    (tuple [t]).render = '(' :: t.render ++ [',', ')'] := rfl

@[simp] theorem render_tuple_cons (t u : AbiType) (ts : List AbiType) :
    (tuple (t :: u :: ts)).render = '(' :: t.render ++ renderRest (u :: ts) ++ [')'] := rfl

@[simp] theorem renderRest_nil : renderRest [] = [] := rfl

@[simp] theorem renderRest_cons (t : AbiType) (ts : List AbiType) :
    renderRest (t :: ts) = ',' :: t.render ++ renderRest ts := rfl

/-! ### Named types -/

/-- Types with a name of their own, in a width that exists. -/
def IsNamed : AbiType → Prop
  | address | bool | string | bytes | function => True
  | uint bits | int bits => 8 ≤ bits ∧ bits ≤ 256 ∧ bits % 8 = 0
  | fixedBytes size => 1 ≤ size ∧ size ≤ 32
  | array _ | fixedArray _ _ | tuple _ => False

theorem bits?_eq_some_iff :
    bits? cs = some n ↔ Text.digits? cs = some n ∧ 8 ≤ n ∧ n ≤ 256 ∧ n % 8 = 0 := by
  simp [bits?, Option.filter_eq_some_iff, and_assoc]

theorem bytes?_eq_some_iff : bytes? cs = some n ↔ Text.digits? cs = some n ∧ 1 ≤ n ∧ n ≤ 32 := by
  simp [bytes?, Option.filter_eq_some_iff]

theorem isNamed_of_ofName? (h : ofName? cs = some t) : t.IsNamed := by
  unfold ofName? at h
  split_ifs at h
  iterate 5 obtain rfl := Option.some.inj h; exact trivial
  iterate 2 obtain rfl := Option.some.inj h; exact ⟨by decide, by decide, by decide⟩
  simp only [Option.orElse_eq_orElse, Option.orElse_eq_or, Option.or_eq_some_iff,
    Option.map_eq_some_iff, Option.bind_eq_some_iff] at h
  rcases h with ⟨bits, ⟨_, -, hbits⟩, rfl⟩ | ⟨-, ⟨bits, ⟨_, -, hbits⟩, rfl⟩ |
    ⟨-, size, ⟨_, -, hsize⟩, rfl⟩⟩
  · exact (bits?_eq_some_iff.1 hbits).2
  · exact (bits?_eq_some_iff.1 hbits).2
  · exact (bytes?_eq_some_iff.1 hsize).2

theorem ofName?_render (h : t.IsNamed) : ofName? t.render = some t := by
  cases t with
  | address | bool | string | bytes | function => rfl
  | uint bits =>
    have hbits := bits?_eq_some_iff.2 ⟨Text.digits?_digits bits, h⟩
    have hne : Text.digits bits ≠ [] := Nat.toDigits_ne_nil
    simp [ofName?, List.isPrefixOf?, hbits, hne]
  | int bits =>
    have hbits := bits?_eq_some_iff.2 ⟨Text.digits?_digits bits, h⟩
    have hne : Text.digits bits ≠ [] := Nat.toDigits_ne_nil
    simp [ofName?, List.isPrefixOf?, hbits, hne]
  | fixedBytes size =>
    have hsize := bytes?_eq_some_iff.2 ⟨Text.digits?_digits size, h⟩
    have hne : Text.digits size ≠ [] := Nat.toDigits_ne_nil
    simp [ofName?, List.isPrefixOf?, hsize, hne]
  | array _ | fixedArray _ _ | tuple _ => exact h.elim

theorem isName_append_digits (h : IsName word) : IsName (word ++ Text.digits n) := by
  cases word with
  | nil => exact h.elim
  | cons c cs =>
    have hdigits : (Text.digits n).all isNameRest := by
      rw [List.all_eq_true]
      exact fun d hd => isNameRest_of_isDigit (Text.isDigit_of_mem_digits hd)
    exact ⟨h.1, (List.all_append).trans (by rw [h.2, hdigits]; rfl)⟩

theorem isName_render (h : t.IsNamed) : IsName t.render := by
  cases t with
  | address | bool | string | bytes | function => exact ⟨rfl, rfl⟩
  | uint _ | int _ | fixedBytes _ => exact isName_append_digits ⟨rfl, rfl⟩
  | array _ | fixedArray _ _ | tuple _ => exact h.elim

theorem render_ne_nil (h : t.IsNamed) : t.render ≠ [] := by
  obtain ⟨c, cs, hrender, -⟩ := (isName_render h).exists_cons
  rw [hrender]
  exact List.cons_ne_nil c cs

theorem isPathChar_of_mem_render (h : t.IsNamed) : ∀ c ∈ t.render, isPathChar c := fun c hc =>
  isPathChar_of_isNameRest ((isName_render h).all c hc)

theorem spells_render_of_isNamed (h : t.IsNamed) : Spells n t.render t :=
  .root (.name (isName_render h) (ofName?_render h))

theorem SpellsRoot.isNamed (h : SpellsRoot cs t) : t.IsNamed := by
  cases h with
  | name _ ht => exact isNamed_of_ofName? ht
  | qualified _ _ | dotted _ => exact ⟨by decide, by decide, by decide⟩

/-! ### Tuples and arrays -/

theorem size?_eq_some_none_iff : size? ds = some none ↔ ds = [] := by
  rw [size?]
  split <;> simp_all

theorem size?_eq_some_some_iff :
    size? ds = some (some n) ↔ Text.digits? ds = some n ∧ 0 < n ∧ n < Text.bound64 := by
  rw [size?]
  split
  · simp_all [Text.digits?]
  · simp [Option.filter_eq_some_iff]

theorem spells_render_ofSize (h : Spells n t.render t) (hk : size? ds = some k) :
    Spells n (t.ofSize k).render (t.ofSize k) := by
  cases k with
  | none =>
    have hbrackets := h.array List.all_nil (size?_eq_some_none_iff.2 rfl)
    rwa [List.append_assoc] at hbrackets
  | some size =>
    have hbound := (size?_eq_some_some_iff.1 hk).2
    have hdigits : (Text.digits size).all Char.isDigit :=
      List.all_eq_true.2 fun c hc => Text.isDigit_of_mem_digits hc
    exact h.array hdigits (size?_eq_some_some_iff.2 ⟨Text.digits?_digits size, hbound⟩)

theorem SpellsItems.ne_nil {cs : List Char} (h : SpellsItems n cs ts) : ts ≠ [] := by
  cases h <;> simp

/-- Items after the first stand after a comma each. -/
theorem spellsItems_renderRest (h : ∀ u ∈ t :: ts, Spells n u.render u) :
    SpellsItems n (t.render ++ renderRest ts ++ [')']) (t :: ts) := by
  have hgap : IsGap [] := by simp [IsGap]
  induction ts generalizing t with
  | nil => simpa using SpellsItems.last (h t List.mem_cons_self) hgap
  | cons u us ih =>
    have hus := ih fun v hv => h v (List.mem_cons_of_mem _ hv)
    simpa using SpellsItems.more (h t List.mem_cons_self) hgap hus

theorem spells_render_unit : Spells n (tuple []).render (tuple []) := by
  have hgap : IsGap [] := by simp [IsGap]
  have hlead : ['('] ∈ openings := by simp [openings]
  simpa using Spells.unit hlead hgap

theorem spells_render_tuple (hts : ts ≠ []) (h : ∀ u ∈ ts, Spells n u.render u) :
    Spells (n + 1) (tuple ts).render (tuple ts) := by
  have hgap : IsGap [] := by simp [IsGap]
  have hlead : ['('] ∈ openings := by simp [openings]
  cases ts with
  | nil => contradiction
  | cons t us =>
    cases us with
    | nil => simpa using Spells.tuple hlead hgap (.lastComma (h t List.mem_cons_self) hgap)
    | cons u us => simpa using Spells.tuple hlead hgap (spellsItems_renderRest h)

mutual

theorem Spells.spells_render : ∀ {n cs t}, Spells n cs t → Spells n t.render t
  | _, _, _, .root h => spells_render_of_isNamed h.isNamed
  | _, _, _, .unit _ _ => spells_render_unit
  | _, _, _, .tuple _ _ h => spells_render_tuple h.ne_nil (SpellsItems.spells_render h)
  | _, _, _, .array h _ hk => spells_render_ofSize (Spells.spells_render h) hk

theorem SpellsItems.spells_render : ∀ {n cs ts}, SpellsItems n cs ts →
    ∀ u ∈ ts, Spells n u.render u
  | _, _, _, .last h _ => List.forall_mem_singleton.2 (Spells.spells_render h)
  | _, _, _, .lastComma h _ => List.forall_mem_singleton.2 (Spells.spells_render h)
  | _, _, _, .more h _ hts =>
    List.forall_mem_cons.2 ⟨Spells.spells_render h, SpellsItems.spells_render hts⟩

end

/-- The canonical name of an accepted type stands for that type. -/
theorem ofText?_render (h : ofText? cs = some t) : ofText? t.render = some t :=
  ofText?_eq_some_iff.2 (ofText?_eq_some_iff.1 h).spells_render

end TraceTree.AbiType
