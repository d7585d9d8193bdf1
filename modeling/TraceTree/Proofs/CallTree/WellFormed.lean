import TraceTree.CallTree.Query
import TraceTree.Proofs.ScopeId

/-!
The rules of a finished call tree, and what they say of the scopes around one step. Main statements:
a scope's steps are steps of every scope around it (`WellFormed.contains_of_contains`), and the
scopes around one step form a chain (`WellFormed.chain`).
-/
namespace TraceTree.CallTree

/-- The scope runs the body of a function, and so has an activation. -/
def IsBody (kind : ScopeKind) : Prop := kind = .internalFunction ∨ kind = .constructor

/-- The rules of a finished call tree. -/
structure WellFormed (t : CallTree) : Prop where
  /-- Scopes stand under their own ids. -/
  keyed : ∀ {id s}, t.scope? id = some s → s.id = id
  /-- Every scope has ended, and its steps are steps of the trace. -/
  closed : ∀ {id s}, t.scope? id = some s →
    ∃ l, s.lastStep = some l ∧ s.firstStep ≤ l ∧ l ≤ t.stepCount - 1
  /-- The root takes all steps. -/
  root : ∃ s, t.root? = some s ∧ s.kind = .root ∧ s.firstStep = 0 ∧
    s.lastStep = some (t.stepCount - 1)
  /-- All scopes lie below the root. -/
  belowRoot : ∀ {id s}, t.scope? id = some s → ScopeId.root.contains id
  /-- Whatever is around a scope is a scope. -/
  upward : ∀ {a b}, (t.scope? b).isSome → a.contains b → (t.scope? a).isSome
  /-- The children of a scope are numbered from one without gaps. -/
  ordinals : ∀ {id s}, t.scope? id = some s →
    ∃ k, ∀ n, (t.scope? (id.child n)).isSome ↔ 1 ≤ n ∧ n ≤ k
  /-- A child starts and ends inside its parent. -/
  inside : ∀ {p n s c}, t.scope? p = some s → t.scope? (ScopeId.child p n) = some c →
    s.firstStep ≤ c.firstStep ∧ ∃ k l, c.lastStep = some k ∧ s.lastStep = some l ∧ k ≤ l
  /-- Of two children of a scope the earlier one has ended before the later one starts. -/
  apart : ∀ {p m n a b}, m < n → t.scope? (ScopeId.child p m) = some a →
    t.scope? (ScopeId.child p n) = some b → ∃ l, a.lastStep = some l ∧ l < b.firstStep
  /-- The steps at which scopes start are exactly those that the table of starts has. -/
  starts : ∀ step, (t.scopeStarts.find? step).isSome ↔
    ∃ id s, t.scope? id = some s ∧ s.firstStep = step
  /-- The table of starts has the deepest of the scopes that start at a step. -/
  deepest : ∀ {step id}, t.scopeStarts.find? step = some id →
    (∃ s, t.scope? id = some s ∧ s.firstStep = step) ∧
      ∀ {c s}, t.scope? c = some s → s.firstStep = step → c.contains id
  /-- Exactly the bodies of functions have activations. -/
  activated : ∀ id, (t.activation? id).isSome ↔ ∃ s, t.scope? id = some s ∧ IsBody s.kind
  /-- An activation starts with its scope and tells whether that runs a constructor. -/
  activation : ∀ {id a s}, t.activation? id = some a → t.scope? id = some s →
    a.scope = id ∧ a.entryStep = s.firstStep ∧ (a.isConstructor = true ↔ s.kind = .constructor)

/-- The deepest scope around a step. -/
structure Innermost (t : CallTree) (step : Nat) (d : Scope) : Prop where
  found : t.scope? d.id = some d
  covers : d.contains step
  deepest : ∀ {c s}, t.scope? c = some s → s.contains step → c.contains d.id

theorem Innermost.unique {t : CallTree} {step : Nat} {r s : Scope} (hs : t.Innermost step s)
    (hr : t.Innermost step r) : s = r := by
  have hid := ScopeId.contains_antisymm (hr.deepest hs.found hs.covers)
    (hs.deepest hr.found hr.covers)
  have hfound := hs.found
  rw [hid, hr.found] at hfound
  injection hfound with hfound
  exact hfound.symm

namespace WellFormed

variable {t : CallTree} {a b : ScopeId} {r s : Scope} {step : Nat}

theorem ends_inside (wf : t.WellFormed) {l : Nat} (h : t.scope? a = some s)
    (hl : s.lastStep = some l) : s.firstStep ≤ l ∧ l ≤ t.stepCount - 1 := by
  obtain ⟨l', hl', hinside⟩ := wf.closed h
  rw [hl] at hl'
  cases hl'
  exact hinside

theorem contains_iff (wf : t.WellFormed) (h : t.scope? a = some s) :
    ∃ l, s.lastStep = some l ∧ ∀ step, s.contains step ↔ s.firstStep ≤ step ∧ step ≤ l := by
  obtain ⟨l, hl, -, -⟩ := wf.closed h
  exact ⟨l, hl, fun step => by simp [Scope.contains, hl]⟩

theorem contains_firstStep (wf : t.WellFormed) (h : t.scope? a = some s) :
    s.contains s.firstStep := by
  obtain ⟨l, hl, hle, -⟩ := wf.closed h
  simp [Scope.contains, hl, hle]

/-- What holds from a child to its parent holds from a scope to every scope around it. -/
theorem outward_induction (wf : t.WellFormed) {R : Scope → Scope → Prop} (hrefl : ∀ s, R s s)
    (hstep : ∀ {p n r c s}, t.scope? p = some r → t.scope? (ScopeId.child p n) = some c →
      R s r → R s c)
    (ha : t.scope? a = some s) (hb : t.scope? b = some r) (hab : a.contains b) : R s r := by
  -- The induction is on the length of the inner id; the outer one stays.
  obtain ⟨n, hn⟩ : ∃ n, b.path.length = n := ⟨_, rfl⟩
  induction n generalizing b r with
  | zero => exact absurd (List.length_eq_zero_iff.1 hn) b.path_ne_nil
  | succ n ih =>
    by_cases hid : a = b
    · subst hid
      rw [ha] at hb
      injection hb with hb
      exact hb ▸ hrefl s
    · rcases ScopeId.eq_root_or_child (wf.belowRoot hb) with rfl | ⟨p, m, rfl, hp⟩
      · exact absurd (ScopeId.eq_root_of_contains_root hab) hid
      · have hap := (ScopeId.contains_child_iff.1 hab).resolve_left hid
        have hpsome := wf.upward (by rw [hb]; rfl) (ScopeId.contains_child p m)
        obtain ⟨q, hq⟩ := Option.isSome_iff_exists.1 hpsome
        exact hstep hq hb (ih hq hap (by simpa using hn))

theorem firstStep_le_of_contains (wf : t.WellFormed) (ha : t.scope? a = some s)
    (hb : t.scope? b = some r) (hab : a.contains b) : s.firstStep ≤ r.firstStep :=
  wf.outward_induction (R := fun s r => s.firstStep ≤ r.firstStep) (fun _ => le_refl _)
    (fun hp hc hle => hle.trans (wf.inside hp hc).1) ha hb hab

/-- A scope's steps are steps of every scope around it. -/
theorem contains_of_contains (wf : t.WellFormed) (ha : t.scope? a = some s)
    (hb : t.scope? b = some r) (hab : a.contains b) (hr : r.contains step) : s.contains step := by
  refine wf.outward_induction (R := fun s r => r.contains step → s.contains step)
    (fun _ h => h) (fun hp hc hle hstep => hle ?_) ha hb hab hr
  obtain ⟨hfirst, k, l, hk, hl, hkl⟩ := wf.inside hp hc
  simp only [Scope.contains, hk, hl, Option.all_some, Bool.and_eq_true, decide_eq_true_eq]
    at hstep ⊢
  omega

/-- Of two scopes around one step one is around the other. -/
theorem chain (wf : t.WellFormed) (ha : t.scope? a = some s) (hb : t.scope? b = some r)
    (hs : s.contains step) (hr : r.contains step) : a.contains b ∨ b.contains a := by
  by_contra hne
  rw [not_or] at hne
  obtain ⟨p, m, n, hmn, hm, hn⟩ :=
    ScopeId.diverge (wf.belowRoot ha) (wf.belowRoot hb) hne.1 hne.2
  obtain ⟨x, hx⟩ := Option.isSome_iff_exists.1 (wf.upward (by rw [ha]; rfl) hm)
  obtain ⟨y, hy⟩ := Option.isSome_iff_exists.1 (wf.upward (by rw [hb]; rfl) hn)
  have hxs := wf.contains_of_contains hx ha hm hs
  have hys := wf.contains_of_contains hy hb hn hr
  -- The step would lie in two children of one scope, and those are apart.
  obtain ⟨k, hk, hxiff⟩ := wf.contains_iff hx
  obtain ⟨l, hl, hyiff⟩ := wf.contains_iff hy
  have hx' := (hxiff step).1 hxs
  have hy' := (hyiff step).1 hys
  rcases Nat.lt_or_gt_of_ne hmn with hlt | hgt
  · obtain ⟨e, he, hlt⟩ := wf.apart hlt hx hy
    rw [hk] at he
    injection he with he
    omega
  · obtain ⟨e, he, hlt⟩ := wf.apart hgt hy hx
    rw [hl] at he
    injection he with he
    omega

end WellFormed

end TraceTree.CallTree
