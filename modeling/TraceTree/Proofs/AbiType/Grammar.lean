import Mathlib.Data.List.TakeDrop
import TraceTree.AbiType
import TraceTree.Proofs.Text

/-!
The grammar of interface types. A text is accepted as a type exactly when the grammar derives the
two together, with at most `maxTuples` tuples that have items inside each other
(`ofText?_eq_some_iff`).
The parser takes a stem and then its brackets from the left, the grammar adds the last brackets to a
shorter text; `type?_append` says both at once: parsing a derived text and what follows it comes to
taking the brackets that follow.
-/
namespace TraceTree.AbiType

/-! ### The grammar -/

/-- A letter, an underscore or a dollar sign, and then digits too. -/
def IsName : List Char → Prop
  | [] => False
  | c :: cs => isNameStart c ∧ cs.all isNameRest

instance : DecidablePred IsName
  | [] => inferInstanceAs (Decidable False)
  | c :: cs => inferInstanceAs (Decidable (isNameStart c ∧ cs.all isNameRest))

/-- Whether a character can stand in a name or between two. -/
def isPathChar (c : Char) : Bool := isNameRest c || c == '.'

/-- Whether the text holds only what separates the items of a tuple beside commas. -/
def IsGap (cs : List Char) : Prop := ∀ c ∈ cs, c = ' ' ∨ c = '\t'

/-- Whether the text does not go on with a name, a dot or a parenthesis. -/
def EndsName (rest : List Char) : Prop := rest.head?.all fun c => !(isPathChar c || c == '(')

/-- A name that stands for a type, or a qualified one, whose second part may be missing. -/
inductive SpellsRoot : List Char → AbiType → Prop
  | name {cs t} : IsName cs → ofName? cs = some t → SpellsRoot cs t
  | qualified {a b} : IsName a → IsName b → SpellsRoot (a ++ '.' :: b) (uint 8)
  | dotted {a} : IsName a → SpellsRoot (a ++ ['.']) (uint 8)

/-- What opens a tuple. -/
def openings : List (List Char) := [['('], "tuple(".toList]

mutual

/-- The text spells the type, with at most so many tuples with items inside each other. -/
inductive Spells : Nat → List Char → AbiType → Prop
  | root {n cs t} : SpellsRoot cs t → Spells n cs t
  | unit {n lead gap} : lead ∈ openings → IsGap gap → Spells n (lead ++ gap ++ [')']) (tuple [])
  | tuple {n lead gap cs ts} : lead ∈ openings → IsGap gap → SpellsItems n cs ts →
      Spells (n + 1) (lead ++ gap ++ cs) (tuple ts)
  | array {n cs t ds k} : Spells n cs t → ds.all Char.isDigit → size? ds = some k →
      Spells n (cs ++ '[' :: ds ++ [']']) (t.ofSize k)

/-- The text spells the items of a tuple and closes it. -/
inductive SpellsItems : Nat → List Char → List AbiType → Prop
  | last {n cs t gap} : Spells n cs t → IsGap gap → SpellsItems n (cs ++ gap ++ [')']) [t]
  | lastComma {n cs t gap} : Spells n cs t → IsGap gap →
      SpellsItems n (cs ++ ',' :: gap ++ [')']) [t]
  | more {n cs t gap rest ts} : Spells n cs t → IsGap gap → SpellsItems n rest ts →
      SpellsItems n (cs ++ ',' :: gap ++ rest) (t :: ts)

end

variable {a b cs ds rest : List Char} {c : Char} {t u : AbiType} {ts : List AbiType}
  {n fuel : Nat} {k : Option Nat}

/-! ### Names and blanks -/

theorem isNameRest_of_isNameStart (h : isNameStart c) : isNameRest c := by
  simp only [isNameStart, isNameRest, Char.isAlphanum, Bool.or_eq_true] at h ⊢
  tauto

theorem isPathChar_of_isNameRest (h : isNameRest c) : isPathChar c := by
  rw [isPathChar, h, Bool.true_or]

theorem isNameRest_of_isDigit (h : c.isDigit) : isNameRest c := by
  simp [isNameRest, Char.isAlphanum, h]

theorem isPathChar_of_isDigit (h : c.isDigit) : isPathChar c :=
  isPathChar_of_isNameRest (isNameRest_of_isDigit h)

theorem IsName.all (h : IsName cs) : ∀ c ∈ cs, isNameRest c := by
  cases cs with
  | nil => exact h.elim
  | cons d ds =>
    intro c hc
    rcases List.mem_cons.1 hc with rfl | hc
    · exact isNameRest_of_isNameStart h.1
    · exact List.all_eq_true.1 h.2 c hc

theorem IsName.dot_not_mem (h : IsName cs) : '.' ∉ cs := fun hdot =>
  absurd (h.all '.' hdot) (by decide)

theorem IsName.exists_cons (h : IsName cs) : ∃ c ds, cs = c :: ds ∧ isNameStart c := by
  cases cs with
  | nil => exact h.elim
  | cons c ds => exact ⟨c, ds, rfl, h.1⟩

theorem name?_append (ha : IsName a) (h : rest.head?.all fun c => !isNameRest c) :
    name? (a ++ rest) = some (a, rest) := by
  cases a with
  | nil => exact ha.elim
  | cons c cs =>
    obtain ⟨htake, hdrop⟩ := Text.takeWhile_append_of_head (List.all_eq_true.1 ha.2) h
    rw [List.cons_append, name?, if_pos ha.1, htake, hdrop]

theorem name?_eq_some (h : name? cs = some (a, rest)) : cs = a ++ rest ∧ IsName a := by
  cases cs with
  | nil => simp [name?] at h
  | cons c cs =>
    rw [name?] at h
    split at h
    · rename_i hc
      simp only [Option.some.injEq, Prod.mk.injEq] at h
      obtain ⟨rfl, rfl⟩ := h
      exact ⟨by rw [List.cons_append, List.takeWhile_append_dropWhile], hc,
        List.all_takeWhile⟩
    · simp at h

theorem skipBlanks_append (ha : IsGap a) (h : rest.head?.all fun c => !(c == ' ' || c == '\t')) :
    skipBlanks (a ++ rest) = rest :=
  (Text.takeWhile_append_of_head (fun c hc => by simpa using ha c hc) h).2

theorem skipBlanks_close (ha : IsGap a) (rest : List Char) :
    skipBlanks (a ++ ')' :: rest) = ')' :: rest :=
  skipBlanks_append ha rfl

theorem exists_gap (cs : List Char) : ∃ gap, IsGap gap ∧ cs = gap ++ skipBlanks cs :=
  ⟨cs.takeWhile fun c => c == ' ' || c == '\t',
    fun c hc => by simpa using List.all_eq_true.1 List.all_takeWhile c hc,
    List.takeWhile_append_dropWhile.symm⟩

/-! ### Stems -/

theorem root?_append (h : SpellsRoot cs t) (hrest : EndsName rest) :
    root? (cs ++ rest) = some (t, rest) := by
  have hname : rest.head?.all fun c => !isNameRest c := by
    cases rest with
    | nil => rfl
    | cons c rest => simp_all [EndsName, isPathChar]
  cases h with
  | name ha ht =>
    rw [root?, name?_append ha hname]
    cases rest with
    | nil => simp [ht]
    | cons c rest =>
      have hdot : c ≠ '.' := by
        rintro rfl
        exact absurd hrest (by simp [EndsName, isPathChar])
      simp [hdot, ht]
  | qualified ha hb =>
    rw [List.append_assoc, List.cons_append, root?, name?_append ha (by simp; decide)]
    simp [name?_append hb hname]
  | dotted ha =>
    rw [List.append_assoc, List.cons_append, List.nil_append, root?,
      name?_append ha (by simp; decide)]
    cases rest with
    | nil => rfl
    | cons c rest =>
      have hstart : isNameStart c = false := by
        by_contra h
        have := isNameRest_of_isNameStart (by simpa using h)
        simp_all
      simp [name?, hstart]

theorem SpellsRoot.all (h : SpellsRoot cs t) : ∀ c ∈ cs, isPathChar c := by
  cases h with
  | name ha _ => exact fun c hc => isPathChar_of_isNameRest (ha.all c hc)
  | qualified ha hb =>
    intro c hc
    rcases List.mem_append.1 hc with hc | hc
    · exact isPathChar_of_isNameRest (ha.all c hc)
    · rcases List.mem_cons.1 hc with rfl | hc
      · rfl
      · exact isPathChar_of_isNameRest (hb.all c hc)
  | dotted ha =>
    intro c hc
    rcases List.mem_append.1 hc with hc | hc
    · exact isPathChar_of_isNameRest (ha.all c hc)
    · rw [List.mem_singleton.1 hc]
      rfl

theorem SpellsRoot.exists_cons (h : SpellsRoot cs t) : ∃ c ds, cs = c :: ds ∧ isNameStart c := by
  cases h with
  | name ha _ => exact ha.exists_cons
  | qualified ha _ | dotted ha =>
    obtain ⟨c, ds, rfl, hc⟩ := ha.exists_cons
    exact ⟨c, _, rfl, hc⟩

theorem tupleBody?_root (h : SpellsRoot cs t) (hrest : EndsName rest) :
    tupleBody? (cs ++ rest) = none := by
  have hword : "tuple(".toList.isPrefixOf? (cs ++ rest) = none := by
    rw [Option.eq_none_iff_forall_ne_some]
    intro body hbody
    rw [List.isPrefixOf?_eq_some_iff_append_eq] at hbody
    have hpath : rest.head?.all fun c => !isPathChar c := by
      cases rest with
      | nil => rfl
      | cons c rest => simp_all [EndsName]
    have hdrop := (Text.takeWhile_append_of_head h.all hpath).2
    rw [← hbody] at hdrop
    have hrest' : '(' :: body = rest := hdrop
    subst hrest'
    exact absurd hrest (by simp [EndsName])
  obtain ⟨c, ds, rfl, hc⟩ := h.exists_cons
  have hparen : '(' ≠ c := by
    rintro rfl
    exact absurd hc (by decide)
  rw [tupleBody?, hword, List.cons_append, List.isPrefixOf?, if_neg (by simpa using hparen)]
  rfl

theorem tupleBody?_append {lead body : List Char} (h : lead ∈ openings) :
    tupleBody? (lead ++ body) = some body := by
  simp only [openings, List.mem_cons, List.not_mem_nil, or_false] at h
  rcases h with rfl | rfl <;> rfl

theorem tupleBody?_eq_some {body : List Char} (h : tupleBody? cs = some body) :
    ∃ lead ∈ openings, cs = lead ++ body := by
  rw [tupleBody?, Option.orElse_eq_orElse, Option.orElse_eq_or, Option.or_eq_some_iff] at h
  rcases h with h | ⟨-, h⟩
  · exact ⟨_, by simp [openings], (List.append_eq_of_isPrefixOf?_eq_some h).symm⟩
  · exact ⟨_, by simp [openings], (List.append_eq_of_isPrefixOf?_eq_some h).symm⟩

theorem SpellsItems.getLast? : ∀ {n cs ts}, SpellsItems n cs ts → cs.getLast? = some ')'
  | _, _, _, .last _ _ | _, _, _, .lastComma _ _ => List.getLast?_concat
  | _, _, _, .more _ _ h => by
    rw [List.getLast?_append, SpellsItems.getLast? h]
    rfl

/-- Brackets and parentheses stand in no path, so a path is spelled as a name. -/
theorem spells_iff_of_path (h : ∀ c ∈ cs, isPathChar c) : Spells n cs t ↔ SpellsRoot cs t := by
  have hclose : ¬ isPathChar ')' ∧ ¬ isPathChar ']' := by decide
  constructor
  · intro hs
    cases hs with
    | root hroot => exact hroot
    | unit _ _ => exact (hclose.1 (h ')' (by simp))).elim
    | array _ _ _ => exact (hclose.2 (h ']' (by simp))).elim
    | tuple _ _ hitems =>
      exact (hclose.1 (h ')' (List.mem_append_right _ (List.mem_of_getLast? hitems.getLast?)))).elim
  · exact .root

/-! ### Brackets -/

theorem suffixes?_bracket (hds : ds.all Char.isDigit) (hk : size? ds = some k) :
    suffixes? t ('[' :: ds ++ ']' :: rest) = suffixes? (t.ofSize k) rest := by
  have hend : (']' :: rest).head?.all fun c => !c.isDigit := rfl
  obtain ⟨htake, hdrop⟩ := Text.takeWhile_append_of_head (List.all_eq_true.1 hds) hend
  rw [List.cons_append, suffixes?]
  split
  · rename_i rest' hrest
    obtain rfl : rest = rest' := by simpa using hdrop.symm.trans hrest
    rw [htake, hk]
    rfl
  · rename_i hne
    exact (hne rest hdrop).elim

theorem suffixes?_of_head (h : rest.head? ≠ some '[') : suffixes? t rest = some (t, rest) := by
  cases rest with
  | nil => rw [suffixes?]; simp
  | cons c rest => rw [suffixes?]; simpa using h

theorem Spells.of_suffixes? (h : Spells n a t) (hs : suffixes? t cs = some (u, rest)) :
    ∃ b, cs = b ++ rest ∧ Spells n (a ++ b) u := by
  fun_induction suffixes? t cs generalizing a with
  | case1 t cs rest' hdrop ih =>
    obtain ⟨k, hk, hs⟩ := Option.bind_eq_some_iff.1 hs
    obtain ⟨b, rfl, hb⟩ := ih k (h.array List.all_takeWhile hk) hs
    have hsplit : cs.takeWhile Char.isDigit ++ ']' :: (b ++ rest) = cs := by
      rw [← hdrop, List.takeWhile_append_dropWhile]
    exact ⟨'[' :: cs.takeWhile Char.isDigit ++ [']'] ++ b, by simp [hsplit], by simpa using hb⟩
  | case2 => simp at hs
  | case3 t cs =>
    obtain ⟨rfl, rfl⟩ : t = u ∧ cs = rest := by simpa using hs
    exact ⟨[], rfl, by simpa using h⟩

/-! ### Derived texts are accepted -/

theorem endsName_gap (hgap : IsGap a) (h : EndsName rest) : EndsName (a ++ rest) := by
  cases a with
  | nil => exact h
  | cons c a =>
    rcases hgap c List.mem_cons_self with rfl | rfl <;> rfl

theorem exists_cons_of_opening {lead : List Char} (h : lead ∈ openings) :
    ∃ c ds, lead = c :: ds ∧ (isNameStart c ∨ c = '(') := by
  simp only [openings, List.mem_cons, List.not_mem_nil, or_false] at h
  rcases h with rfl | rfl
  · exact ⟨'(', [], rfl, .inr rfl⟩
  · exact ⟨'t', "uple(".toList, rfl, .inl rfl⟩

theorem Spells.exists_cons : ∀ {n cs t}, Spells n cs t →
    ∃ c ds, cs = c :: ds ∧ (isNameStart c ∨ c = '(')
  | _, _, _, .root h => by
    obtain ⟨c, ds, rfl, hc⟩ := h.exists_cons
    exact ⟨c, ds, rfl, .inl hc⟩
  | _, _, _, .unit hlead _ | _, _, _, .tuple hlead _ _ => by
    obtain ⟨c, ds, rfl, hc⟩ := exists_cons_of_opening hlead
    exact ⟨c, _, rfl, hc⟩
  | _, _, _, .array h _ _ => by
    obtain ⟨c, ds, rfl, hc⟩ := Spells.exists_cons h
    exact ⟨c, _, rfl, hc⟩

theorem SpellsItems.exists_cons (h : SpellsItems n cs ts) :
    ∃ c ds, cs = c :: ds ∧ (isNameStart c ∨ c = '(') := by
  cases h with
  | last h _ | lastComma h _ | more h _ _ =>
    obtain ⟨c, ds, rfl, hc⟩ := h.exists_cons
    exact ⟨c, _, rfl, hc⟩

/-- Items start with neither a blank nor a closing parenthesis. -/
theorem SpellsItems.skipBlanks (h : SpellsItems n cs ts) (hgap : IsGap a) (rest : List Char) :
    skipBlanks (a ++ (cs ++ rest)) = cs ++ rest ∧ (cs ++ rest).head? ≠ some ')' := by
  obtain ⟨c, ds, rfl, hc⟩ := h.exists_cons
  have hne : c ≠ ' ' ∧ c ≠ '\t' ∧ c ≠ ')' := by
    refine ⟨?_, ?_, ?_⟩ <;> rintro rfl <;> exact absurd hc (by decide)
  exact ⟨skipBlanks_append hgap (by simp [hne]), by simp [hne]⟩

/-- The last item stands before blanks and the closing parenthesis. -/
theorem items?_last (h : type? fuel n cs = some (t, a ++ ')' :: rest)) (ha : IsGap a) :
    items? (fuel + 1) n cs = some ([t], rest) := by
  rw [items?, h]
  split
  · contradiction
  · rename_i u rest' heq
    have hcomma : a ++ ')' :: rest = ',' :: rest' := by simp_all
    cases a with
    | nil => simp at hcomma
    | cons c a =>
      obtain rfl : c = ',' := by simp_all
      exact absurd (ha ',' List.mem_cons_self) (by decide)
  · rename_i u rest' _ heq
    obtain ⟨rfl, rfl⟩ : t = u ∧ a ++ ')' :: rest = rest' := by simpa using heq
    simp only [skipBlanks_close ha]

/-- After a comma there may be nothing more. -/
theorem items?_lastComma (h : type? fuel n cs = some (t, ',' :: a ++ ')' :: rest)) (ha : IsGap a) :
    items? (fuel + 1) n cs = some ([t], rest) := by
  rw [items?, h]
  simp only [List.cons_append, skipBlanks_close ha]

/-- After a comma there may be more items. -/
theorem items?_more (h : type? fuel n cs = some (t, ',' :: b))
    (hb : (skipBlanks b).head? ≠ some ')') (hts : items? fuel n (skipBlanks b) = some (ts, rest)) :
    items? (fuel + 1) n cs = some (t :: ts, rest) := by
  rw [items?, h]
  simp only
  split
  · rename_i heq
    exact (hb (by rw [heq]; rfl)).elim
  · rw [hts]
    rfl

/-! The induction is on the derivation. Each step down takes at least one character of the text, or
is the one from a tuple to its items, so two of fuel for each character are enough. -/

mutual

theorem type?_append : ∀ {n cs t fuel}, Spells n cs t → 2 * cs.length ≤ fuel → ∀ rest,
    EndsName rest → type? fuel n (cs ++ rest) = suffixes? t rest
  | _, _, _, 0, h, hfuel, _, _ => by
    obtain ⟨c, ds, rfl, -⟩ := h.exists_cons
    simp at hfuel
  | n, cs, t, fuel + 1, .root h, hfuel, rest, hrest => by
    rw [type?, tupleBody?_root h hrest, root?_append h hrest]
    rfl
  | n, _, _, fuel + 1, .unit hlead hgap, hfuel, rest, hrest => by
    rw [List.append_assoc, List.append_assoc, type?, tupleBody?_append hlead]
    simp only [List.singleton_append, skipBlanks_close hgap]
  | n + 1, _, _, fuel + 1, .tuple hlead hgap h, hfuel, rest, hrest => by
    obtain ⟨hskip, hhead⟩ := h.skipBlanks hgap rest
    have hitems : items? fuel n _ = _ := items?_append h
      (by obtain ⟨c, ds, rfl, -⟩ := exists_cons_of_opening hlead; simp at hfuel; omega) rest
    rw [List.append_assoc, List.append_assoc, type?, tupleBody?_append hlead]
    simp only [hskip]
    split
    · rename_i heq
      exact (hhead (by rw [heq]; rfl)).elim
    · contradiction
    · simp_all
  | n, _, _, fuel + 1, .array h hds hk, hfuel, rest, hrest => by
    -- the brackets go to what follows the shorter text
    rw [List.append_assoc, List.append_assoc, type?_append h (by simp at hfuel; omega) _ (by rfl),
      ← suffixes?_bracket hds hk]
    rfl

theorem items?_append : ∀ {n cs ts fuel}, SpellsItems n cs ts → 2 * cs.length ≤ fuel → ∀ rest,
    items? fuel n (cs ++ rest) = some (ts, rest)
  | _, _, _, 0, h, hfuel, _ => by
    obtain ⟨c, ds, rfl, -⟩ := h.exists_cons
    simp at hfuel
  | n, _, _, fuel + 1, @SpellsItems.last _ _ _ gap h hgap, hfuel, rest => by
    have hend : EndsName (gap ++ ')' :: rest) := endsName_gap hgap rfl
    have htype : type? fuel n _ = _ := type?_append h (by simp at hfuel; omega) _ hend
    have hbracket : (gap ++ ')' :: rest).head? ≠ some '[' := by
      cases gap with
      | nil => simp
      | cons c gap => rcases hgap c List.mem_cons_self with rfl | rfl <;> simp
    rw [suffixes?_of_head hbracket] at htype
    rw [List.append_assoc, List.append_assoc]
    exact items?_last htype hgap
  | n, _, _, fuel + 1, @SpellsItems.lastComma _ _ _ gap h hgap, hfuel, rest => by
    have htype : type? fuel n _ = _ := type?_append h (by simp at hfuel; omega)
      (',' :: gap ++ ')' :: rest) rfl
    rw [suffixes?_of_head (by simp)] at htype
    rw [List.append_assoc, List.append_assoc]
    exact items?_lastComma htype hgap
  | n, _, _, fuel + 1, @SpellsItems.more _ _ _ gap after _ h hgap hts, hfuel, rest => by
    have htype : type? fuel n _ = _ := type?_append h (by simp at hfuel; omega)
      (',' :: (gap ++ (after ++ rest))) rfl
    rw [suffixes?_of_head (by simp)] at htype
    obtain ⟨hskip, hhead⟩ := hts.skipBlanks hgap rest
    have hitems : items? fuel n _ = _ := items?_append hts (by simp at hfuel; omega) rest
    rw [List.append_assoc, List.append_assoc]
    exact items?_more htype (by rw [hskip]; exact hhead) (by rw [hskip]; exact hitems)

end

/-! ### Accepted texts are derived -/

theorem root?_eq_some (h : root? cs = some (t, rest)) : ∃ a, cs = a ++ rest ∧ SpellsRoot a t := by
  rw [root?] at h
  split at h
  · contradiction
  · rename_i a rest' ha
    obtain ⟨rfl, hname⟩ := name?_eq_some ha
    split at h
    · rename_i b rest'' hb
      obtain ⟨rfl, hsecond⟩ := name?_eq_some hb
      obtain ⟨rfl, rfl⟩ : uint 8 = t ∧ rest'' = rest := by simpa using h
      exact ⟨a ++ '.' :: b, by simp, .qualified hname hsecond⟩
    · obtain ⟨rfl, rfl⟩ : uint 8 = t ∧ rest' = rest := by simpa using h
      exact ⟨a ++ ['.'], by simp, .dotted hname⟩
  · rename_i a rest' _ ha
    obtain ⟨rfl, hname⟩ := name?_eq_some ha
    obtain ⟨t', ht, heq⟩ := Option.map_eq_some_iff.1 h
    obtain ⟨rfl, rfl⟩ : t' = t ∧ rest' = rest := by simpa using heq
    exact ⟨a, rfl, .name hname ht⟩

mutual

theorem exists_spells : ∀ {fuel n cs t rest}, type? fuel n cs = some (t, rest) →
    ∃ a, cs = a ++ rest ∧ Spells n a t
  | 0, _, _, _, _, h => by simp [type?] at h
  | fuel + 1, n, cs, t, rest, h => by
    rw [type?] at h
    split at h
    · obtain ⟨⟨u, after⟩, hroot, hs⟩ := Option.bind_eq_some_iff.1 h
      obtain ⟨a, rfl, ha⟩ := root?_eq_some hroot
      obtain ⟨b, rfl, hb⟩ := (Spells.root ha).of_suffixes? hs
      exact ⟨a ++ b, by simp, hb⟩
    · rename_i body hbody
      obtain ⟨lead, hlead, rfl⟩ := tupleBody?_eq_some hbody
      obtain ⟨gap, hgap, hgapped⟩ := exists_gap body
      split at h
      · rename_i after hskip
        obtain ⟨b, rfl, hb⟩ := (Spells.unit hlead hgap).of_suffixes? h
        exact ⟨lead ++ gap ++ [')'] ++ b, by rw [hgapped, hskip]; simp, hb⟩
      · contradiction
      · obtain ⟨⟨ts, after⟩, hitems, hs⟩ := Option.bind_eq_some_iff.1 h
        obtain ⟨a, ha, hts⟩ := exists_spellsItems hitems
        obtain ⟨b, rfl, hb⟩ := (Spells.tuple hlead hgap hts).of_suffixes? hs
        exact ⟨lead ++ gap ++ a ++ b, by rw [hgapped, ha]; simp, hb⟩

theorem exists_spellsItems : ∀ {fuel n cs ts rest}, items? fuel n cs = some (ts, rest) →
    ∃ a, cs = a ++ rest ∧ SpellsItems n a ts
  | 0, _, _, _, _, h => by simp [items?] at h
  | fuel + 1, n, cs, ts, rest, h => by
    rw [items?] at h
    split at h
    · contradiction
    · rename_i t after htype
      obtain ⟨a, rfl, ha⟩ := exists_spells htype
      obtain ⟨gap, hgap, hgapped⟩ := exists_gap after
      split at h
      · rename_i rest' hskip
        obtain ⟨rfl, rfl⟩ : [t] = ts ∧ rest' = rest := by simpa using h
        exact ⟨a ++ ',' :: gap ++ [')'], by rw [hgapped, hskip]; simp, .lastComma ha hgap⟩
      · obtain ⟨⟨us, rest'⟩, hitems, heq⟩ := Option.map_eq_some_iff.1 h
        obtain ⟨rfl, rfl⟩ : t :: us = ts ∧ rest' = rest := by simpa using heq
        obtain ⟨b, hb, hus⟩ := exists_spellsItems hitems
        exact ⟨a ++ ',' :: gap ++ b, by rw [hgapped, hb]; simp, .more ha hgap hus⟩
    · rename_i t after _ htype
      obtain ⟨a, rfl, ha⟩ := exists_spells htype
      obtain ⟨gap, hgap, hgapped⟩ := exists_gap after
      split at h
      · rename_i rest' hskip
        obtain ⟨rfl, rfl⟩ : [t] = ts ∧ rest' = rest := by simpa using h
        exact ⟨a ++ gap ++ [')'], by rw [hgapped, hskip]; simp, .last ha hgap⟩
      · contradiction

end

/-- The parser accepts what the grammar derives, as the type that it derives. -/
theorem ofText?_eq_some_iff : ofText? cs = some t ↔ Spells maxTuples cs t := by
  rw [ofText?]
  constructor
  · intro h
    split at h
    · rename_i u hu
      obtain rfl : u = t := by simpa using h
      obtain ⟨a, rfl, ha⟩ := exists_spells hu
      simpa using ha
    · contradiction
  · intro h
    have htype : type? (2 * cs.length + 2) maxTuples _ = _ := type?_append h (by omega) [] rfl
    rw [List.append_nil, suffixes?_of_head (by simp)] at htype
    rw [htype]

end TraceTree.AbiType
