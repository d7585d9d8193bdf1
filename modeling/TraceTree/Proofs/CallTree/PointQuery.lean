import TraceTree.Proofs.CallTree.WellFormed
import TraceTree.Proofs.SortedMap

/-!
What a finished call tree answers for one step. Main statements: `scopeAt?` finds the innermost
scope around a step (`WellFormed.scopeAt?_innermost`), and `callStackAt` lists the activations of
the scopes around it from the inside out (`WellFormed.callStackAt_eq`).
-/
namespace TraceTree

/-! ### The ids around an id -/

namespace ScopeId

/-- The ids around one, itself included, from the inside out; `path` is its path from the inside
out. -/
def outward : List Nat → List ScopeId
  | [] => []
  | n :: outer => ⟨outer.reverse ++ [n], by simp⟩ :: outward outer

theorem length_outward (path : List Nat) : (outward path).length = path.length := by
  induction path with
  | nil => rfl
  | cons n outer ih => rw [outward, List.length_cons, List.length_cons, ih]

theorem mem_outward {path : List Nat} {a : ScopeId} :
    a ∈ outward path ↔ a.path <+: path.reverse := by
  induction path with
  | nil => simp [outward, a.path_ne_nil]
  | cons n outer ih =>
    rw [outward, List.mem_cons, ih, ← path_inj, List.reverse_cons, List.prefix_concat_iff]

theorem outward_pairwise (path : List Nat) :
    (outward path).Pairwise fun a b => b.isAncestorOf a := by
  induction path with
  | nil => exact .nil
  | cons n outer ih =>
    refine .cons ?_ ih
    intro b hb
    have hp := mem_outward.1 hb
    refine isAncestorOf_iff.2 ⟨contains_iff.2 ?_, ?_⟩
    · simpa using hp.trans (List.prefix_append _ [n])
    · intro h
      have hle := hp.length_le
      rw [h, List.length_append, List.length_singleton] at hle
      omega

theorem nodup_outward (path : List Nat) : (outward path).Nodup :=
  List.Pairwise.imp (fun h e => (isAncestorOf_iff.1 h).2 (Eq.symm e)) (outward_pairwise path)

theorem mem_outward_path {a id : ScopeId} : a ∈ outward id.path.reverse ↔ a.contains id := by
  rw [mem_outward, List.reverse_reverse, contains_iff]

end ScopeId

namespace CallTree

theorem activationsOutward_eq (t : CallTree) (path : List Nat) :
    t.activationsOutward path = (ScopeId.outward path).filterMap t.activation? := by
  induction path with
  | nil => rfl
  | cons n outer ih =>
    rw [activationsOutward, ScopeId.outward, ih]
    have hid : ScopeId.ofPath? (n :: outer).reverse = some ⟨outer.reverse ++ [n], by simp⟩ := by
      simp [ScopeId.ofPath?]
    rw [hid, Option.bind_some, List.filterMap_cons, activation?]
    cases t.activations.find? ⟨outer.reverse ++ [n], by simp⟩ with
    | none => rfl
    | some a => rfl

namespace WellFormed

variable {t : CallTree} {id : ScopeId} {d s : Scope} {step : Nat}

/-! ### The walk outwards -/

/-- A scope has no more scopes around it than there are scopes. -/
theorem length_path_le (wf : t.WellFormed) (h : t.scope? id = some s) :
    id.path.length ≤ t.scopes.size := by
  rw [← List.length_reverse, ← ScopeId.length_outward]
  refine SortedMap.length_le_size (ScopeId.nodup_outward _) ?_
  intro a ha
  exact wf.upward (b := id) (by rw [h]; rfl) (ScopeId.mem_outward_path.1 ha)

/-- A walk from inside of all scopes around a step ends at the innermost of them. -/
theorem enclosing?_innermost (wf : t.WellFormed) (fuel : Nat) (hstep : step < t.stepCount)
    (hs : t.scope? s.id = some s) (hfuel : s.id.path.length ≤ fuel)
    (hall : ∀ {c r}, t.scope? c = some r → r.contains step → c.contains s.id) :
    ∃ d, t.enclosing? step fuel s = some d ∧ t.Innermost step d := by
  induction fuel generalizing s with
  | zero => exact absurd (List.length_eq_zero_iff.1 (by omega)) s.id.path_ne_nil
  | succ fuel ih =>
    rw [enclosing?]
    by_cases hc : s.contains step
    · exact ⟨s, by rw [if_pos hc], hs, hc, hall⟩
    · rw [if_neg hc]
      rcases ScopeId.eq_root_or_child (wf.belowRoot hs) with hroot | ⟨p, n, hp, -⟩
      · -- The root takes every step, so a walk never leaves it.
        obtain ⟨r, hr, -, hfirst, hlast⟩ := wf.root
        rw [hroot] at hs
        have : s = r := by
          rw [root?] at hr
          rw [scope?, hr] at hs
          exact (Option.some.inj hs).symm
        refine absurd ?_ hc
        simp only [this, Scope.contains, hfirst, hlast, Option.all_some, Bool.and_eq_true,
          decide_eq_true_eq]
        omega
      · have hsome := wf.upward (a := p) (by rw [hs]; rfl) (hp ▸ ScopeId.contains_child p n)
        obtain ⟨r, hr⟩ := Option.isSome_iff_exists.1 hsome
        have hrid := wf.keyed hr
        have hparent : t.parentOf? s.id = some r := by
          rw [parentOf?, ScopeId.parent?_eq_some_iff.2 ⟨n, hp⟩, Option.bind_some, hr]
        rw [hparent, Option.bind_some]
        refine ih (by rw [hrid, hr]) ?_ ?_
        · rw [hp] at hfuel
          simp only [ScopeId.path_child, List.length_append, List.length_singleton] at hfuel
          rw [hrid]
          omega
        · intro c q hq hcov
          have := hall hq hcov
          rw [hp] at this
          rcases ScopeId.contains_child_iff.1 this with h | h
          · rw [h, ← hp, hs] at hq
            injection hq with hq
            exact absurd (hq ▸ hcov) hc
          · exact hrid ▸ h

/-- The scope that starts last before a step lies inside all scopes around the step. -/
theorem contains_lastStarted (wf : t.WellFormed) {k : Nat} (hk : k ≤ step)
    (hfind : t.scopeStarts.find? k = some id)
    (hmax : ∀ k' id', t.scopeStarts.find? k' = some id' → k' ≤ step → k' ≤ k) {c : ScopeId}
    (hs : t.scope? c = some s) (hcov : s.contains step) : c.contains id := by
  obtain ⟨⟨x, hx, hxfirst⟩, hdeep⟩ := wf.deepest hfind
  obtain ⟨l, -, hiff⟩ := wf.contains_iff hs
  have hrange := (hiff step).1 hcov
  have hstart := (wf.starts s.firstStep).2 ⟨c, s, hs, rfl⟩
  obtain ⟨id', hid'⟩ := Option.isSome_iff_exists.1 hstart
  have hle := hmax _ _ hid' hrange.1
  rcases Nat.lt_or_eq_of_le hle with hlt | heq
  · have hk' : s.contains k := (hiff k).2 ⟨hle, hk.trans hrange.2⟩
    have hxk : x.contains k := hxfirst ▸ wf.contains_firstStep hx
    rcases wf.chain hs hx hk' hxk with h | h
    · exact h
    · have := wf.firstStep_le_of_contains hx hs h
      omega
  · exact hdeep hs heq

/-- The scope that is found at a step is the innermost one around it. -/
theorem scopeAt?_innermost (wf : t.WellFormed) (hstep : step < t.stepCount) :
    ∃ d, t.scopeAt? step = some d ∧ t.Innermost step d := by
  obtain ⟨r, hr, -, hfirst, -⟩ := wf.root
  obtain ⟨rootId, hrootId⟩ :=
    Option.isSome_iff_exists.1 ((wf.starts 0).2 ⟨.root, r, hr, hfirst⟩)
  have hle : (compare 0 step).isLE := Nat.isLE_compare.2 (Nat.zero_le step)
  obtain ⟨⟨k, id⟩, hfloor⟩ := SortedMap.exists_floor? hrootId hle
  obtain ⟨hfind, hk, hmax⟩ := SortedMap.floor?_spec hfloor
  rw [Nat.isLE_compare] at hk
  obtain ⟨⟨x, hx, -⟩, -⟩ := wf.deepest hfind
  have hxid := wf.keyed hx
  have hpath := wf.length_path_le hx
  have hall : ∀ {c r}, t.scope? c = some r → r.contains step → c.contains x.id := by
    intro c r hr hcov
    rw [hxid]
    refine wf.contains_lastStarted hk hfind ?_ hr hcov
    intro k' id' h' hle'
    exact Nat.isLE_compare.1 (hmax k' id' h' (Nat.isLE_compare.2 hle'))
  obtain ⟨d, hd, hin⟩ := wf.enclosing?_innermost (t.scopes.size + 1) hstep
    (by rw [hxid, hx]) (by rw [hxid]; omega) hall
  refine ⟨d, ?_, hin⟩
  rw [scopeAt?, if_neg (by omega), hfloor]
  simp only [Option.bind_eq_bind, Option.bind_some, hx, hd]

/-! ### The functions at a step -/

/-- The ids around the innermost scope are those of the scopes around the step. -/
theorem mem_outward_innermost (wf : t.WellFormed) (hd : t.Innermost step d) {a : ScopeId} :
    a ∈ ScopeId.outward d.id.path.reverse ↔ ∃ s, t.scope? a = some s ∧ s.contains step := by
  rw [ScopeId.mem_outward_path]
  constructor
  · intro ha
    obtain ⟨s, hs⟩ := Option.isSome_iff_exists.1 (wf.upward (by rw [hd.found]; rfl) ha)
    exact ⟨s, hs, wf.contains_of_contains hs hd.found ha hd.covers⟩
  · rintro ⟨s, hs, hcov⟩
    exact hd.deepest hs hcov

theorem callStackAt_eq (wf : t.WellFormed) (hstep : step < t.stepCount) :
    ∃ ids : List ScopeId, ids.Pairwise (fun a b => b.isAncestorOf a) ∧
      (∀ a, a ∈ ids ↔ ∃ s, t.scope? a = some s ∧ s.contains step) ∧
      t.callStackAt step = ids.filterMap t.activation? := by
  obtain ⟨d, hd, hin⟩ := wf.scopeAt?_innermost hstep
  refine ⟨_, ScopeId.outward_pairwise _, fun a => wf.mem_outward_innermost hin, ?_⟩
  rw [callStackAt, hd]
  exact activationsOutward_eq t _

end WellFormed

theorem scopeAt?_eq_none {t : CallTree} {step : Nat} (h : t.stepCount ≤ step) :
    t.scopeAt? step = none := by
  rw [scopeAt?, if_pos h]

theorem callStackAt_eq_nil {t : CallTree} {step : Nat} (h : t.stepCount ≤ step) :
    t.callStackAt step = [] := by
  rw [callStackAt, scopeAt?_eq_none h]

end CallTree

end TraceTree
