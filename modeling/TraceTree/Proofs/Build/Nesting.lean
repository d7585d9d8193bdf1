import TraceTree.Proofs.Build.Layout
import TraceTree.Proofs.CallTree.WellFormed

/-!
What holds of the scopes while they open and close. The open scopes form a chain from the root
inwards (`Chained`); a scope that has ended lies between the first and the last step of the scopes
around it. Main statements: opening a scope in the innermost one and closing innermost ones keep
this (`Sound.openScope`, `Sound.close`).
-/
namespace TraceTree.Build

/-! ### The chain of open scopes -/

/-- Each open scope is the last child so far of the next one outwards, and the outermost is the
root. -/
def Chained : List Frame → Prop
  | [] => True
  | [root] => root.id = .root ∧ root.kind = .root
  | top :: next :: around =>
    top.id = next.id.child next.children ∧ top.kind ≠ .root ∧ Chained (next :: around)

namespace Chained

variable {top f : Frame} {around frames : List Frame}

theorem tail (h : Chained (top :: around)) : Chained around := by
  cases around with
  | nil => exact trivial
  | cons next around => exact h.2.2

theorem contains_top (h : Chained (top :: around)) (hf : f ∈ top :: around) :
    f.id.contains top.id := by
  induction around generalizing top with
  | nil =>
    rw [List.mem_singleton.1 hf]
    exact ScopeId.contains_refl _
  | cons next around ih =>
    rcases List.mem_cons.1 hf with rfl | hf
    · exact ScopeId.contains_refl _
    · rw [h.1]
      exact ScopeId.contains_trans (ih h.tail hf) (ScopeId.contains_child _ _)

theorem ne_top (h : Chained (top :: around)) (hf : f ∈ around) : f.id ≠ top.id := by
  cases around with
  | nil => cases hf
  | cons next around =>
    intro he
    have hin := h.tail.contains_top hf
    rw [he, h.1] at hin
    exact ScopeId.not_child_contains _ _ hin

theorem belowRoot (h : Chained (top :: around)) : ScopeId.root.contains top.id := by
  induction around generalizing top with
  | nil =>
    rw [h.1]
    exact ScopeId.contains_refl _
  | cons next around ih =>
    rw [h.1]
    exact ScopeId.contains_trans (ih h.tail) (ScopeId.contains_child _ _)

theorem eq_nil_of_root (h : Chained (top :: around)) (hid : top.id = .root) : around = [] := by
  cases around with
  | nil => rfl
  | cons next around => exact absurd (h.1.symm.trans hid) (ScopeId.child_ne_root _ _)

theorem countChild (h : Chained frames) : Chained (Layout.countChild frames) := by
  match frames with
  | [] => exact h
  | [_] => exact h
  | _ :: _ :: _ => exact h

/-- A new child of the innermost scope lengthens the chain. -/
theorem push (h : Chained (top :: around)) (new : Frame)
    (hid : new.id = top.id.child (top.children + 1)) (hkind : new.kind ≠ .root) :
    Chained (new :: Layout.countChild (top :: around)) :=
  ⟨hid, hkind, h.countChild⟩

end Chained

/-! ### The parts of the invariant -/

/-- The open scopes are those of the tree that have not ended. -/
structure Linked (k : Layout) : Prop where
  chained : Chained k.frames
  framed : ∀ {f}, f ∈ k.frames → ∃ o, k.tree.scopes f.id = some o ∧ o.lastStep = none
  opened : ∀ {id o}, k.tree.scopes id = some o → o.lastStep = none → ∃ f ∈ k.frames, f.id = id

/-- Scopes stand under their ids, and the children of each are numbered from one. -/
structure Numbered (k : Layout) : Prop where
  keyed : ∀ {id o}, k.tree.scopes id = some o → o.id = id
  belowRoot : ∀ {id o}, k.tree.scopes id = some o → ScopeId.root.contains id
  parent : ∀ {p n}, (k.tree.scopes (ScopeId.child p n)).isSome → (k.tree.scopes p).isSome
  ordinals : ∀ id : ScopeId, ∃ m, ∀ n, (k.tree.scopes (id.child n)).isSome ↔ 1 ≤ n ∧ n ≤ m
  counted : ∀ {f}, f ∈ k.frames → ∀ n, (k.tree.scopes (f.id.child n)).isSome ↔
    1 ≤ n ∧ n ≤ f.children

/-- No scope starts after the step `now`, all that have ended did so before the step `gone`, and
the scopes lie in one another as their ids say. -/
structure Nested (now gone : Nat) (k : Layout) : Prop where
  early : ∀ {id o}, k.tree.scopes id = some o → o.firstStep ≤ now ∧ o.firstStep < k.tree.stepCount
  ended : ∀ {id o l}, k.tree.scopes id = some o → o.lastStep = some l → o.firstStep ≤ l ∧ l < gone
  inside : ∀ {p n o c}, k.tree.scopes p = some o → k.tree.scopes (ScopeId.child p n) = some c →
    o.firstStep ≤ c.firstStep ∧ ∀ l, o.lastStep = some l → ∃ m, c.lastStep = some m ∧ m ≤ l
  apart : ∀ {p m n a b}, m < n → k.tree.scopes (ScopeId.child p m) = some a →
    k.tree.scopes (ScopeId.child p n) = some b → ∃ l, a.lastStep = some l ∧ l < b.firstStep

/-- The table of starts has the deepest of the scopes that start at a step. -/
structure Started (k : Layout) : Prop where
  starting : ∀ {id o}, k.tree.scopes id = some o → (k.tree.starts.find? o.firstStep).isSome
  started : ∀ {step id}, k.tree.starts.find? step = some id →
    (∃ o, k.tree.scopes id = some o ∧ o.firstStep = step) ∧
      ∀ {c o}, k.tree.scopes c = some o → o.firstStep = step → c.contains id

/-- The root starts with the trace, and ends with it when it has ended. -/
def Rooted (k : Layout) : Prop :=
  ∃ o, k.tree.scopes .root = some o ∧ o.kind = .root ∧ o.firstStep = 0 ∧
    ∀ l, o.lastStep = some l → l + 1 = k.tree.stepCount

/-- The scopes of a layout are in order: none starts after `now`, and those that have ended did so
before `gone`. -/
structure Sound (src : Sources) (now gone : Nat) (k : Layout) : Prop where
  linked : Linked k
  numbered : Numbered k
  nested : Nested now gone k
  started : Started k
  rooted : Rooted k
  coded : ∀ {id o}, k.tree.scopes id = some o → src.codeAt o.firstStep = .ok o.code
  stepCount : k.tree.stepCount = src.context.trace.length

theorem Nested.mono {k : Layout} {now now' gone gone' : Nat} (h : Nested now gone k)
    (hnow : now ≤ now') (hgone : gone ≤ gone') : Nested now' gone' k where
  early hs := ⟨(h.early hs).1.trans hnow, (h.early hs).2⟩
  ended hs hl := ⟨(h.ended hs hl).1, (h.ended hs hl).2.trans_le hgone⟩
  inside := h.inside
  apart := h.apart

theorem Sound.mono {src : Sources} {k : Layout} {now now' gone gone' : Nat}
    (h : Sound src now gone k) (hnow : now ≤ now') (hgone : gone ≤ gone') :
    Sound src now' gone' k :=
  { h with nested := h.nested.mono hnow hgone }

/-! ### The innermost scope -/

section Innermost

variable {k : Layout} {top : Frame} {around : List Frame}

theorem Linked.framedTop (link : Linked k) (hframes : k.frames = top :: around) :
    ∃ o, k.tree.scopes top.id = some o ∧ o.lastStep = none :=
  link.framed (by simp [hframes])

theorem Numbered.countedTop (num : Numbered k) (hframes : k.frames = top :: around) (n : Nat) :
    (k.tree.scopes (top.id.child n)).isSome ↔ 1 ≤ n ∧ n ≤ top.children :=
  num.counted (by simp [hframes]) n

/-- All scopes that are open lie around the innermost one. -/
theorem Linked.contains_top (link : Linked k) (hframes : k.frames = top :: around) {id : ScopeId}
    {o : Outline} (ho : k.tree.scopes id = some o) (hopen : o.lastStep = none) :
    id.contains top.id := by
  obtain ⟨f, hf, rfl⟩ := link.opened ho hopen
  exact (hframes ▸ link.chained).contains_top (hframes ▸ hf)

/-- The children of the innermost scope have ended. -/
theorem Linked.child_ended (link : Linked k) (hframes : k.frames = top :: around) {n : Nat}
    {c : Outline} (hc : k.tree.scopes (top.id.child n) = some c) : ∃ l, c.lastStep = some l := by
  cases hl : c.lastStep with
  | some l => exact ⟨l, rfl⟩
  | none => exact absurd (link.contains_top hframes hc hl) (ScopeId.not_child_contains _ _)

end Innermost

/-! ### The start -/

section Start

variable {root : CodeAddress} {steps : Nat} {id : ScopeId} {o : Outline}

theorem scopes_start (root : CodeAddress) (steps : Nat) (id : ScopeId) :
    (Layout.start root steps).tree.scopes id =
      if id = .root then
        some { id := .root, kind := .root, code := root, firstStep := 0, lastStep := none }
      else none :=
  Function.update_apply _ _ _ _

theorem starts_start (root : CodeAddress) (steps step : Nat) :
    (Layout.start root steps).tree.starts.find? step = if step = 0 then some .root else none :=
  SortedMap.find?_insert _ _ _ _

/-- The root is the only scope at the start. -/
theorem of_start (h : (Layout.start root steps).tree.scopes id = some o) :
    id = .root ∧
      o = { id := .root, kind := .root, code := root, firstStep := 0, lastStep := none } := by
  rw [scopes_start] at h
  split at h
  · rename_i hid
    exact ⟨hid, (Option.some.inj h).symm⟩
  · cases h

theorem isSome_child_start (root : CodeAddress) (steps : Nat) (id : ScopeId) (n : Nat) :
    ¬ ((Layout.start root steps).tree.scopes (id.child n)).isSome := by
  rw [scopes_start, if_neg (ScopeId.child_ne_root id n)]
  simp

theorem Linked.start (root : CodeAddress) (steps : Nat) : Linked (.start root steps) where
  chained := ⟨rfl, rfl⟩
  framed hf := by
    rw [List.mem_singleton.1 hf, scopes_start, if_pos rfl]
    exact ⟨_, rfl, rfl⟩
  opened ho _ := ⟨_, List.mem_singleton_self _, (of_start ho).1.symm⟩

theorem Numbered.start (root : CodeAddress) (steps : Nat) : Numbered (.start root steps) where
  keyed ho := by rw [(of_start ho).1, (of_start ho).2]
  belowRoot ho := by
    rw [(of_start ho).1]
    exact ScopeId.contains_refl _
  parent h := absurd h (isSome_child_start root steps _ _)
  ordinals id := by
    refine ⟨0, fun n => ⟨fun h => absurd h (isSome_child_start root steps _ _), ?_⟩⟩
    intro h
    omega
  counted hf n := by
    rw [List.mem_singleton.1 hf]
    refine ⟨fun h => absurd h (isSome_child_start root steps _ _), ?_⟩
    intro h
    exact absurd (h.1.trans h.2) (Nat.not_succ_le_zero 0)

theorem Nested.start (root : CodeAddress) (hpos : 0 < steps) : Nested 0 0 (.start root steps) where
  early ho := by
    rw [(of_start ho).2]
    exact ⟨le_refl 0, hpos⟩
  ended ho hl := by
    rw [(of_start ho).2] at hl
    cases hl
  inside _ hc := absurd (by rw [hc]; rfl) (isSome_child_start root steps _ _)
  apart _ ha := absurd (by rw [ha]; rfl) (isSome_child_start root steps _ _)

theorem Started.start (root : CodeAddress) (steps : Nat) : Started (.start root steps) where
  starting ho := by
    rw [(of_start ho).2, starts_start]
    rfl
  started h := by
    rw [starts_start] at h
    split at h
    · rename_i hstep
      cases h
      refine ⟨⟨_, by rw [scopes_start, if_pos rfl], hstep.symm⟩, ?_⟩
      intro c o ho _
      rw [(of_start ho).1]
      exact ScopeId.contains_refl _
    · cases h

theorem Sound.start {src : Sources} (hpos : 0 < src.context.trace.length)
    (hroot : src.codeAt 0 = .ok root) : Sound src 0 0 (.start root src.context.trace.length) where
  linked := .start _ _
  numbered := .start _ _
  nested := .start _ hpos
  started := .start _ _
  rooted := by
    refine ⟨_, by rw [scopes_start, if_pos rfl], rfl, rfl, ?_⟩
    intro l hl
    cases hl
  coded ho := by
    rw [(of_start ho).2]
    exact hroot
  stepCount := rfl

end Start

/-! ### Opening -/

section Opening

variable {k : Layout} {top : Frame} {around : List Frame} {kind : ScopeKind} {code : CodeAddress}
  {function : Option Nat} {x now gone : Nat}

theorem scopes_openScope (k : Layout) (x : Nat) (kind : ScopeKind) (code : CodeAddress)
    (function : Option Nat) (id : ScopeId) :
    (k.openScope x kind code function).tree.scopes id =
      if id = k.nextId then some { id := k.nextId, kind, code, firstStep := x, lastStep := none }
      else k.tree.scopes id :=
  Function.update_apply _ _ _ _

theorem scopes_openScope_of_some {id : ScopeId} {o : Outline}
    (hfresh : k.tree.scopes k.nextId = none) (ho : k.tree.scopes id = some o) :
    (k.openScope x kind code function).tree.scopes id = some o := by
  rw [scopes_openScope, if_neg, ho]
  rintro rfl
  rw [hfresh] at ho
  cases ho

/-- A scope of the new layout is the one that opened or was there. -/
theorem of_openScope {id : ScopeId} {o : Outline}
    (h : (k.openScope x kind code function).tree.scopes id = some o) :
    (id = k.nextId ∧ o = { id := k.nextId, kind, code, firstStep := x, lastStep := none }) ∨
      id ≠ k.nextId ∧ k.tree.scopes id = some o := by
  rw [scopes_openScope] at h
  split at h
  · rename_i hid
    exact .inl ⟨hid, (Option.some.inj h).symm⟩
  · rename_i hid
    exact .inr ⟨hid, h⟩

theorem nextId_cons (hframes : k.frames = top :: around) :
    k.nextId = top.id.child (top.children + 1) := by
  rw [Layout.nextId, hframes]

/-- The id of the next scope is not taken. -/
theorem Numbered.fresh (num : Numbered k) (hframes : k.frames = top :: around) :
    k.tree.scopes k.nextId = none := by
  have hcount := num.countedTop hframes (top.children + 1)
  rw [nextId_cons hframes, ← Option.not_isSome_iff_eq_none, hcount]
  omega

/-- A child of the next scope would have made that a scope before. -/
theorem Numbered.not_isSome_child_nextId (num : Numbered k) (hframes : k.frames = top :: around)
    (n : Nat) : ¬ (k.tree.scopes (k.nextId.child n)).isSome := by
  intro h
  have hparent := num.parent h
  rw [num.fresh hframes] at hparent
  cases hparent

theorem nextId_ne_top (hframes : k.frames = top :: around) : k.nextId ≠ top.id := by
  intro h
  have hin := ScopeId.not_child_contains top.id (top.children + 1)
  rw [← nextId_cons hframes, h] at hin
  exact hin (ScopeId.contains_refl _)

theorem isSome_openScope (id : ScopeId) :
    ((k.openScope x kind code function).tree.scopes id).isSome ↔
      id = k.nextId ∨ (k.tree.scopes id).isSome := by
  rw [scopes_openScope]
  split
  · rename_i hid
    simp [hid]
  · rename_i hid
    simp [hid]

theorem isSome_child_openScope (hframes : k.frames = top :: around) (id : ScopeId) (n : Nat) :
    ((k.openScope x kind code function).tree.scopes (id.child n)).isSome ↔
      (id = top.id ∧ n = top.children + 1) ∨ (k.tree.scopes (id.child n)).isSome := by
  rw [isSome_openScope, nextId_cons hframes, ScopeId.child_inj]

/-- The scopes that are open have the next scope below them. -/
theorem Linked.contains_nextId (link : Linked k) (hframes : k.frames = top :: around) {f : Frame}
    (hf : f ∈ k.frames) : f.id.contains k.nextId := by
  rw [hframes] at hf
  rw [nextId_cons hframes]
  exact ScopeId.contains_trans ((hframes ▸ link.chained).contains_top hf)
    (ScopeId.contains_child _ _)

theorem mem_frames_openScope (hframes : k.frames = top :: around) {f : Frame} :
    f ∈ (k.openScope x kind code function).frames ↔
      f = { id := k.nextId, kind, function } ∨ f = { top with children := top.children + 1 } ∨
        f ∈ around := by
  rw [Layout.openScope, hframes, Layout.countChild, List.mem_cons, List.mem_cons]

theorem Linked.openScope (link : Linked k) (num : Numbered k) (hframes : k.frames = top :: around)
    (hkind : kind ≠ .root) : Linked (k.openScope x kind code function) where
  chained := by
    have h := hframes ▸ link.chained
    have hpush := h.push { id := k.nextId, kind, function } (nextId_cons hframes) hkind
    rwa [← hframes] at hpush
  framed {f} hf := by
    -- Both a frame that was there and the counted one have an id that was open before.
    have hold : ∀ g ∈ k.frames, ∃ o, (k.openScope x kind code function).tree.scopes g.id = some o ∧
        o.lastStep = none := by
      intro g hg
      obtain ⟨o, ho, hopen⟩ := link.framed hg
      exact ⟨o, scopes_openScope_of_some (num.fresh hframes) ho, hopen⟩
    rcases (mem_frames_openScope hframes).1 hf with rfl | rfl | hf
    · exact ⟨_, by rw [scopes_openScope, if_pos rfl], rfl⟩
    · exact hold top (by simp [hframes])
    · exact hold f (by simp [hframes, hf])
  opened {id o} ho hopen := by
    rcases of_openScope ho with ⟨rfl, -⟩ | ⟨-, ho⟩
    · exact ⟨_, (mem_frames_openScope hframes).2 (.inl rfl), rfl⟩
    · obtain ⟨f, hf, rfl⟩ := link.opened ho hopen
      rw [hframes, List.mem_cons] at hf
      rcases hf with rfl | hf
      · exact ⟨_, (mem_frames_openScope hframes).2 (.inr (.inl rfl)), rfl⟩
      · exact ⟨f, (mem_frames_openScope hframes).2 (.inr (.inr hf)), rfl⟩

theorem Numbered.openScope (num : Numbered k) (link : Linked k)
    (hframes : k.frames = top :: around) : Numbered (k.openScope x kind code function) where
  keyed ho := by
    rcases of_openScope ho with ⟨rfl, rfl⟩ | ⟨-, ho⟩
    · rfl
    · exact num.keyed ho
  belowRoot ho := by
    rcases of_openScope ho with ⟨rfl, -⟩ | ⟨-, ho⟩
    · have h := (hframes ▸ link.chained).belowRoot
      rw [nextId_cons hframes]
      exact ScopeId.contains_trans h (ScopeId.contains_child _ _)
    · exact num.belowRoot ho
  parent {p n} h := by
    rw [isSome_openScope]
    rcases (isSome_child_openScope hframes p n).1 h with ⟨rfl, -⟩ | h
    · obtain ⟨o, ho, -⟩ := link.framedTop hframes
      exact .inr (by rw [ho]; rfl)
    · exact .inr (num.parent h)
  ordinals id := by
    obtain ⟨m, hm⟩ := num.ordinals id
    by_cases hid : id = top.id
    · subst hid
      refine ⟨top.children + 1, ?_⟩
      intro n
      rw [isSome_child_openScope hframes, num.countedTop hframes]
      simp only [true_and]
      omega
    · refine ⟨m, ?_⟩
      intro n
      rw [isSome_child_openScope hframes, hm]
      simp [hid]
  counted {f} hf n := by
    rw [isSome_child_openScope hframes]
    rcases (mem_frames_openScope hframes).1 hf with rfl | rfl | hf
    · constructor
      · rintro (⟨h, -⟩ | h)
        · exact absurd h (nextId_ne_top hframes)
        · exact absurd h (num.not_isSome_child_nextId hframes n)
      · rintro ⟨hpos, hle⟩
        exact absurd (hpos.trans hle) (Nat.not_succ_le_zero 0)
    · rw [num.countedTop hframes]
      simp only [true_and]
      omega
    · have hne := (hframes ▸ link.chained).ne_top hf
      rw [num.counted (f := f) (by simp [hframes, hf])]
      simp [hne]

/-- A scope that opens is the last child so far, and all earlier ones have ended. -/
theorem Nested.openScope (nest : Nested x x k) (link : Linked k) (num : Numbered k)
    (hframes : k.frames = top :: around) (hx : x < k.tree.stepCount) :
    Nested x x (k.openScope x kind code function) where
  early ho := by
    rcases of_openScope ho with ⟨-, rfl⟩ | ⟨-, ho⟩
    · exact ⟨le_refl x, hx⟩
    · exact nest.early ho
  ended ho hl := by
    rcases of_openScope ho with ⟨-, rfl⟩ | ⟨-, ho⟩
    · cases hl
    · exact nest.ended ho hl
  inside {p n o c} ho hc := by
    rcases of_openScope hc with ⟨hid, rfl⟩ | ⟨-, hc⟩
    · rw [nextId_cons hframes, ScopeId.child_inj] at hid
      obtain ⟨rfl, -⟩ := hid
      obtain ⟨t, ht, hopen⟩ := link.framedTop hframes
      rcases of_openScope ho with ⟨hid, -⟩ | ⟨-, ho⟩
      · rw [hid, num.fresh hframes] at ht
        cases ht
      · rw [ht] at ho
        cases ho
        refine ⟨(nest.early ht).1, ?_⟩
        intro l hl
        rw [hopen] at hl
        cases hl
    · rcases of_openScope ho with ⟨rfl, -⟩ | ⟨-, ho⟩
      · have hparent := num.parent (by rw [hc]; rfl)
        rw [num.fresh hframes] at hparent
        cases hparent
      · exact nest.inside ho hc
  apart {p m n a b} hmn ha hb := by
    rcases of_openScope ha with ⟨hid, -⟩ | ⟨hm, ha⟩
    · -- No later child than the new one is there.
      rw [nextId_cons hframes, ScopeId.child_inj] at hid
      obtain ⟨rfl, rfl⟩ := hid
      rcases of_openScope hb with ⟨hid, -⟩ | ⟨-, hb⟩
      · rw [nextId_cons hframes, ScopeId.child_inj] at hid
        omega
      · have hcount := (num.countedTop hframes n).1 (by rw [hb]; rfl)
        omega
    · rcases of_openScope hb with ⟨hid, rfl⟩ | ⟨-, hb⟩
      · rw [nextId_cons hframes, ScopeId.child_inj] at hid
        obtain ⟨rfl, -⟩ := hid
        obtain ⟨l, hl⟩ := link.child_ended hframes ha
        exact ⟨l, hl, (nest.ended ha hl).2⟩
      · exact nest.apart hmn ha hb

/-- The scopes that start where one opens are open, and so are all around it. -/
theorem Started.openScope (start : Started k) (nest : Nested x x k) (link : Linked k)
    (num : Numbered k) (hframes : k.frames = top :: around) :
    Started (k.openScope x kind code function) where
  starting ho := by
    rw [Layout.openScope, Skeleton.openScope, SortedMap.find?_insert]
    split
    · rfl
    · rename_i hne
      rcases of_openScope ho with ⟨-, rfl⟩ | ⟨-, ho⟩
      · exact absurd rfl hne
      · exact start.starting ho
  started {step id} h := by
    rw [Layout.openScope, Skeleton.openScope, SortedMap.find?_insert] at h
    split at h
    · rename_i hstep
      cases h
      refine ⟨⟨_, by rw [scopes_openScope, if_pos rfl], hstep.symm⟩, ?_⟩
      intro c o ho hfirst
      rcases of_openScope ho with ⟨rfl, -⟩ | ⟨-, ho⟩
      · exact ScopeId.contains_refl _
      · have hopen : o.lastStep = none := by
          cases hl : o.lastStep with
          | none => rfl
          | some l =>
            have := nest.ended ho hl
            dsimp only at hstep
            omega
        obtain ⟨f, hf, rfl⟩ := link.opened ho hopen
        exact link.contains_nextId hframes hf
    · rename_i hstep
      obtain ⟨⟨s, hs, hfirst⟩, hdeep⟩ := start.started h
      refine ⟨⟨s, scopes_openScope_of_some (num.fresh hframes) hs, hfirst⟩, ?_⟩
      intro c o ho hfirst
      rcases of_openScope ho with ⟨-, rfl⟩ | ⟨-, ho⟩
      · exact absurd hfirst.symm hstep
      · exact hdeep ho hfirst

/-- Opening a scope in the innermost one keeps the scopes in order. -/
theorem Sound.openScope {src : Sources} (h : Sound src x x k) (hframes : k.frames = top :: around)
    (hkind : kind ≠ .root) (hx : x < src.context.trace.length) (hcode : src.codeAt x = .ok code) :
    Sound src x x (k.openScope x kind code function) where
  linked := h.linked.openScope h.numbered hframes hkind
  numbered := h.numbered.openScope h.linked hframes
  nested := h.nested.openScope h.linked h.numbered hframes (h.stepCount ▸ hx)
  started := h.started.openScope h.nested h.linked h.numbered hframes
  rooted := by
    obtain ⟨o, ho, hroot⟩ := h.rooted
    exact ⟨o, scopes_openScope_of_some (h.numbered.fresh hframes) ho, hroot⟩
  coded ho := by
    rcases of_openScope ho with ⟨-, rfl⟩ | ⟨-, ho⟩
    · exact hcode
    · exact h.coded ho
  stepCount := h.stepCount

end Opening

/-! ### Closing -/

section Closing

variable {k : Layout} {top : Frame} {around : List Frame} {x now gone : Nat}

theorem frames_closeTop (hframes : k.frames = top :: around) : (k.closeTop x).frames = around := by
  rw [Layout.closeTop, hframes]

theorem scopes_closeTop (hframes : k.frames = top :: around) (id : ScopeId) :
    (k.closeTop x).tree.scopes id =
      if id = top.id then (k.tree.scopes top.id).map (·.closeAt x) else k.tree.scopes id := by
  rw [Layout.closeTop, hframes]
  exact Function.update_apply _ _ _ _

/-- A scope of the new layout is the one that was closed or was there. -/
theorem of_closeTop (hframes : k.frames = top :: around) {id : ScopeId} {o : Outline}
    (h : (k.closeTop x).tree.scopes id = some o) :
    (id = top.id ∧ ∃ s, k.tree.scopes id = some s ∧ o = s.closeAt x) ∨
      id ≠ top.id ∧ k.tree.scopes id = some o := by
  rw [scopes_closeTop hframes] at h
  split at h
  · rename_i hid
    obtain ⟨s, hs, rfl⟩ := Option.map_eq_some_iff.1 h
    exact .inl ⟨hid, s, hid ▸ hs, rfl⟩
  · rename_i hid
    exact .inr ⟨hid, h⟩

/-- A scope of the new layout was there, with the same id, kind, code and first step. -/
theorem exists_of_closeTop (hframes : k.frames = top :: around) {id : ScopeId} {o : Outline}
    (h : (k.closeTop x).tree.scopes id = some o) :
    ∃ s, k.tree.scopes id = some s ∧ s.id = o.id ∧ s.kind = o.kind ∧ s.code = o.code ∧
      s.firstStep = o.firstStep := by
  rcases of_closeTop hframes h with ⟨-, s, hs, rfl⟩ | ⟨-, hs⟩
  · exact ⟨s, hs, rfl, rfl, rfl, rfl⟩
  · exact ⟨o, hs, rfl, rfl, rfl, rfl⟩

/-- The scopes that were there still are, with the same id, kind, code and first step. -/
theorem exists_closeTop (hframes : k.frames = top :: around) {id : ScopeId} {s : Outline}
    (h : k.tree.scopes id = some s) :
    ∃ o, (k.closeTop x).tree.scopes id = some o ∧ s.id = o.id ∧ s.kind = o.kind ∧
      s.code = o.code ∧ s.firstStep = o.firstStep := by
  rw [scopes_closeTop hframes]
  split
  · rename_i hid
    subst hid
    exact ⟨s.closeAt x, by rw [h]; rfl, rfl, rfl, rfl, rfl⟩
  · exact ⟨s, h, rfl, rfl, rfl, rfl⟩

theorem isSome_closeTop (hframes : k.frames = top :: around) (id : ScopeId) :
    ((k.closeTop x).tree.scopes id).isSome ↔ (k.tree.scopes id).isSome := by
  rw [scopes_closeTop hframes]
  split
  · rename_i hid
    rw [hid, Option.isSome_map]
  · rfl

theorem starts_closeTop (hframes : k.frames = top :: around) :
    (k.closeTop x).tree.starts = k.tree.starts := by
  rw [Layout.closeTop, hframes]
  rfl

theorem stepCount_closeTop (k : Layout) (x : Nat) :
    (k.closeTop x).tree.stepCount = k.tree.stepCount := by
  rw [Layout.closeTop]
  split <;> rfl

theorem Linked.closeTop (link : Linked k) (hframes : k.frames = top :: around) :
    Linked (k.closeTop x) where
  chained := by
    rw [frames_closeTop hframes]
    exact (hframes ▸ link.chained).tail
  framed {f} hf := by
    rw [frames_closeTop hframes] at hf
    rw [scopes_closeTop hframes, if_neg ((hframes ▸ link.chained).ne_top hf)]
    exact link.framed (by simp [hframes, hf])
  opened {id o} ho hopen := by
    rw [frames_closeTop hframes]
    rcases of_closeTop hframes ho with ⟨-, s, -, rfl⟩ | ⟨hid, ho⟩
    · cases hopen
    · obtain ⟨f, hf, rfl⟩ := link.opened ho hopen
      rw [hframes, List.mem_cons] at hf
      rcases hf with rfl | hf
      · exact absurd rfl hid
      · exact ⟨f, hf, rfl⟩

theorem Numbered.closeTop (num : Numbered k) (hframes : k.frames = top :: around) :
    Numbered (k.closeTop x) where
  keyed ho := by
    obtain ⟨s, hs, hid, -⟩ := exists_of_closeTop hframes ho
    rw [← hid, num.keyed hs]
  belowRoot ho := by
    obtain ⟨s, hs, -⟩ := exists_of_closeTop hframes ho
    exact num.belowRoot hs
  parent h := by
    rw [isSome_closeTop hframes] at h ⊢
    exact num.parent h
  ordinals id := by
    obtain ⟨m, hm⟩ := num.ordinals id
    exact ⟨m, fun n => (isSome_closeTop hframes _).trans (hm n)⟩
  counted {f} hf n := by
    rw [frames_closeTop hframes] at hf
    rw [isSome_closeTop hframes]
    exact num.counted (by simp [hframes, hf]) n

/-- The innermost scope ends after all of its children have. -/
theorem Nested.closeTop (nest : Nested now gone k) (link : Linked k)
    (hframes : k.frames = top :: around) (hnow : now ≤ x) (hgone : gone ≤ x + 1) :
    Nested now (x + 1) (k.closeTop x) := by
  have htop : ∀ {o}, k.tree.scopes top.id = some o → o.lastStep = none := by
    intro o ho
    obtain ⟨s, hs, hopen⟩ := link.framedTop hframes
    rw [hs] at ho
    cases ho
    exact hopen
  refine ⟨?_, ?_, ?_, ?_⟩
  · intro id o ho
    obtain ⟨s, hs, -, -, -, hfirst⟩ := exists_of_closeTop hframes ho
    rw [← hfirst, stepCount_closeTop]
    exact nest.early hs
  · intro id o l ho hl
    rcases of_closeTop hframes ho with ⟨-, s, hs, rfl⟩ | ⟨-, ho⟩
    · cases hl
      exact ⟨(nest.early hs).1.trans hnow, Nat.lt_succ_self _⟩
    · exact ⟨(nest.ended ho hl).1, (nest.ended ho hl).2.trans_le hgone⟩
  · intro p n o c ho hc
    rcases of_closeTop hframes ho with ⟨rfl, s, hs, rfl⟩ | ⟨hp, ho⟩
    · rcases of_closeTop hframes hc with ⟨hid, -⟩ | ⟨-, hc⟩
      · have hno := ScopeId.not_child_contains top.id n
        rw [hid] at hno
        exact absurd (ScopeId.contains_refl _) hno
      · refine ⟨(nest.inside hs hc).1, ?_⟩
        intro l hl
        cases hl
        obtain ⟨m, hm⟩ := link.child_ended hframes hc
        have hlt := (nest.ended hc hm).2
        exact ⟨m, hm, by omega⟩
    · rcases of_closeTop hframes hc with ⟨hid, s, hs, rfl⟩ | ⟨-, hc⟩
      · refine ⟨(nest.inside ho hs).1, ?_⟩
        intro l hl
        obtain ⟨m, hm, -⟩ := (nest.inside ho hs).2 l hl
        rw [htop (hid ▸ hs)] at hm
        cases hm
      · exact nest.inside ho hc
  · intro p m n a b hmn ha hb
    obtain ⟨s, hs, -, -, -, hfirst⟩ := exists_of_closeTop hframes hb
    rw [← hfirst]
    rcases of_closeTop hframes ha with ⟨hid, r, hr, rfl⟩ | ⟨-, ha⟩
    · obtain ⟨l, hl, -⟩ := nest.apart hmn hr hs
      rw [htop (hid ▸ hr)] at hl
      cases hl
    · exact nest.apart hmn ha hs

theorem Started.closeTop (start : Started k) (hframes : k.frames = top :: around) :
    Started (k.closeTop x) where
  starting ho := by
    obtain ⟨s, hs, -, -, -, hfirst⟩ := exists_of_closeTop hframes ho
    rw [starts_closeTop hframes, ← hfirst]
    exact start.starting hs
  started h := by
    rw [starts_closeTop hframes] at h
    obtain ⟨⟨s, hs, hstep⟩, hdeep⟩ := start.started h
    obtain ⟨o, ho, -, -, -, hfirst⟩ := exists_closeTop (x := x) hframes hs
    refine ⟨⟨o, ho, hfirst ▸ hstep⟩, ?_⟩
    intro c r hr hstep
    obtain ⟨q, hq, -, -, -, hfirst⟩ := exists_of_closeTop hframes hr
    exact hdeep hq (hfirst.trans hstep)

/-- Closing the innermost scope keeps the scopes in order; the root may close at the end only. -/
theorem Sound.closeTop {src : Sources} (h : Sound src now gone k)
    (hframes : k.frames = top :: around) (hnow : now ≤ x) (hgone : gone ≤ x + 1)
    (hroot : around = [] → x + 1 = src.context.trace.length) :
    Sound src now (x + 1) (k.closeTop x) where
  linked := h.linked.closeTop hframes
  numbered := h.numbered.closeTop hframes
  nested := h.nested.closeTop h.linked hframes hnow hgone
  started := h.started.closeTop hframes
  rooted := by
    obtain ⟨s, hs, hkind, hfirst, hlast⟩ := h.rooted
    rw [Rooted, scopes_closeTop hframes, stepCount_closeTop]
    split
    · rename_i hid
      refine ⟨s.closeAt x, by rw [← hid, hs]; rfl, hkind, hfirst, ?_⟩
      intro l hl
      cases hl
      rw [h.stepCount]
      exact hroot ((hframes ▸ h.linked.chained).eq_nil_of_root hid.symm)
    · exact ⟨s, hs, hkind, hfirst, hlast⟩
  coded ho := by
    obtain ⟨s, hs, -, -, hcode, hfirst⟩ := exists_of_closeTop hframes ho
    rw [← hcode, ← hfirst]
    exact h.coded hs
  stepCount := (stepCount_closeTop k x).trans h.stepCount

theorem closeTop_of_nil (hframes : k.frames = []) : k.closeTop x = k := by
  rw [Layout.closeTop, hframes]

/-- What closing the innermost scope preserves, closing several in a row does. -/
theorem close_induction {P : Layout → Prop}
    (hclose : ∀ {k top around}, k.frames = top :: around → P k → P (k.closeTop x)) (h : P k)
    (n : Nat) : P (k.close x n) := by
  induction n generalizing k with
  | zero => exact h
  | succ n ih =>
    rw [Layout.close]
    cases hframes : k.frames with
    | nil =>
      rw [closeTop_of_nil hframes]
      exact ih h
    | cons top around => exact ih (hclose hframes h)

/-- Closing innermost scopes keeps the scopes in order; the root may close at the end only. -/
theorem Sound.close {src : Sources} (h : Sound src now gone k) {n : Nat} (hnow : now ≤ x)
    (hgone : gone ≤ x + 1) (hroot : n < k.frames.length ∨ x + 1 = src.context.trace.length) :
    Sound src now (x + 1) (k.close x n) := by
  induction n generalizing k gone with
  | zero => exact h.mono (le_refl _) hgone
  | succ n ih =>
    rw [Layout.close]
    cases hframes : k.frames with
    | nil =>
      rw [closeTop_of_nil hframes]
      refine ih h hgone ?_
      rw [hframes, List.length_nil] at hroot ⊢
      omega
    | cons top around =>
      rw [hframes, List.length_cons] at hroot
      have hlast : around = [] → x + 1 = src.context.trace.length := by
        rintro rfl
        rw [List.length_nil] at hroot
        omega
      refine ih (h.closeTop hframes hnow hgone hlast) (le_refl _) ?_
      rw [frames_closeTop hframes]
      omega

theorem callSize_lt (frames : List Frame) (h : frames ≠ []) :
    Layout.callSize frames < frames.length := by
  induction frames with
  | nil => exact absurd rfl h
  | cons top around ih =>
    cases around with
    | nil => exact Nat.zero_lt_one
    | cons next around =>
      have := ih (by simp)
      rw [Layout.callSize]
      simp only [List.length_cons] at this ⊢
      split <;> omega

end Closing

end TraceTree.Build
