import TraceTree.Proofs.Build.CallDepth
import TraceTree.Proofs.Build.Journal
import TraceTree.Proofs.CallTree.Descendants

/-!
The order of the scopes. A scope opens as the last child so far of the innermost one, so its id
comes after those of all scopes that are there (`lt_nextId`), and the order of the ids is the order
in which the scopes open. Main statement: the queries that scan a stretch of the scopes answer what
their naive definitions say, and all scopes come in the order of the journal that the pass of the
reconstruction has beside it (`build_rangeQueries`, with `run_eq_ok_iff_journal`).
-/
namespace TraceTree

/-! ### Queries that scan -/

namespace CallTree.WellFormed

variable {t : CallTree} {id : ScopeId}

/-- What a scan finds right below an id are the scopes whose parent that is. -/
theorem childrenOf_eq (wf : t.WellFormed) (id : ScopeId) :
    t.childrenOf id = t.allScopes.filter fun s => s.id.parent? = some id := by
  rw [childrenOf, wf.descendants_eq, List.filter_filter]
  refine List.filter_congr fun s _ => ?_
  rw [Bool.eq_iff_iff, Bool.and_eq_true, beq_iff_eq, decide_eq_true_eq,
    ScopeId.parent?_eq_some_iff_depth]
  exact and_comm

theorem ids_ascending (wf : t.WellFormed) :
    (t.allScopes.map (·.id)).Pairwise fun a b => compare a b = .lt := by
  have hids : t.allScopes.map (·.id) = t.scopes.entries.map (·.1) := by
    rw [allScopes, SortedMap.values, List.map_map]
    exact List.map_congr_left fun e he => wf.key_eq he
  rw [hids, List.pairwise_map]
  exact t.scopes.ascending

/-- Of two children of a scope the one with the lower id starts first. -/
theorem firstStep_lt_of_siblings (wf : t.WellFormed) {a b : Scope} (ha : t.scope? a.id = some a)
    (hb : t.scope? b.id = some b) (hpa : a.id.parent? = some id) (hpb : b.id.parent? = some id)
    (hlt : compare a.id b.id = .lt) : a.firstStep < b.firstStep := by
  obtain ⟨m, hm⟩ := ScopeId.parent?_eq_some_iff.1 hpa
  obtain ⟨n, hn⟩ := ScopeId.parent?_eq_some_iff.1 hpb
  rw [hm] at ha
  rw [hn] at hb
  have hmn : m < n := by
    by_contra hle
    rcases Nat.lt_or_eq_of_le (Nat.not_lt.1 hle) with hgt | rfl
    · have hback := ScopeId.compare_of_siblings hgt (ScopeId.contains_refl (id.child n))
        (ScopeId.contains_refl (id.child m))
      rw [← hm, ← hn, Std.OrientedCmp.gt_of_lt hlt] at hback
      cases hback
    · rw [hm, hn] at hlt
      simp at hlt
  obtain ⟨l, hl, hend⟩ := wf.apart hmn ha hb
  exact (wf.ends_inside ha hl).1.trans_lt hend

end CallTree.WellFormed

namespace Build

/-! ### The next scope is the last one -/

/-- What lies around the innermost open scope, or is that, is the root or the last child so far of
an open scope. -/
theorem Chained.last_child {top : Frame} {around : List Frame} (h : Chained (top :: around))
    {p : ScopeId} {n : Nat} (hin : (p.child n).contains top.id) :
    ∃ f ∈ around, f.id = p ∧ f.children = n := by
  induction around generalizing top with
  | nil =>
    rw [h.1] at hin
    exact absurd (ScopeId.eq_root_of_contains_root hin) (ScopeId.child_ne_root p n)
  | cons next around ih =>
    rw [h.1, ScopeId.contains_child_iff] at hin
    rcases hin with hid | hin
    · obtain ⟨rfl, rfl⟩ := ScopeId.child_inj.1 hid
      exact ⟨next, List.mem_cons_self, rfl, rfl⟩
    · obtain ⟨f, hf, hid, hcount⟩ := ih h.tail hin
      exact ⟨f, List.mem_cons_of_mem _ hf, hid, hcount⟩

section NextId

variable {k : Layout} {top : Frame} {around : List Frame}

/-- The next scope opens as the last child of the innermost one or of one around it, as which
nothing but the next scope itself can lie in a later child. -/
theorem Numbered.le_of_contains_nextId (num : Numbered k) (link : Linked k)
    (hframes : k.frames = top :: around) {p : ScopeId} {m n : Nat}
    (hin : (p.child n).contains k.nextId) (hm : (k.tree.scopes (p.child m)).isSome) : m ≤ n := by
  rw [nextId_cons hframes, ScopeId.contains_child_iff] at hin
  rcases hin with hid | hin
  · obtain ⟨rfl, rfl⟩ := ScopeId.child_inj.1 hid
    exact ((num.countedTop hframes m).1 hm).2.trans (Nat.le_succ _)
  · obtain ⟨f, hf, rfl, rfl⟩ := (hframes ▸ link.chained).last_child hin
    exact ((num.counted (by simp [hframes, hf]) m).1 hm).2

/-- The id of the next scope comes after those of all scopes that are there. -/
theorem Numbered.lt_nextId (num : Numbered k) (link : Linked k) (hframes : k.frames = top :: around)
    {id : ScopeId} (hid : (k.tree.scopes id).isSome) : compare id k.nextId = .lt := by
  have hfresh := num.fresh hframes
  have hne : id ≠ k.nextId := by
    rintro rfl
    rw [hfresh] at hid
    cases hid
  by_cases habove : id.contains k.nextId
  · exact ScopeId.compare_of_contains habove hne
  · have hbelow : ¬ k.nextId.contains id := by
      intro hin
      have hsome := num.upward hid hin
      rw [hfresh] at hsome
      cases hsome
    obtain ⟨o, ho⟩ := Option.isSome_iff_exists.1 hid
    have hroot : ScopeId.root.contains k.nextId := by
      rw [nextId_cons hframes]
      exact ScopeId.contains_trans (hframes ▸ link.chained).belowRoot (ScopeId.contains_child _ _)
    obtain ⟨p, m, n, hmn, hm, hn⟩ := ScopeId.diverge (num.belowRoot ho) hroot habove hbelow
    have hle := num.le_of_contains_nextId link hframes hn (num.upward hid hm)
    exact ScopeId.compare_of_siblings (lt_of_le_of_ne hle hmn) hm hn

end NextId

/-! ### The scopes in the order of the journal -/

/-- The ids are those of the scopes of the layout, in their order. -/
structure Enumerates (ids : List ScopeId) (k : Layout) : Prop where
  ascending : ids.Pairwise fun a b => compare a b = .lt
  mem : ∀ id, id ∈ ids ↔ (k.tree.scopes id).isSome

namespace Enumerates

variable {ids : List ScopeId} {k k' : Layout} {x n : Nat}

theorem of_isSome (h : Enumerates ids k)
    (hsome : ∀ id, (k'.tree.scopes id).isSome ↔ (k.tree.scopes id).isSome) : Enumerates ids k' :=
  ⟨h.ascending, fun id => by rw [h.mem, hsome]⟩

/-- A layout has one list of its scopes in order. -/
theorem unique {ids' : List ScopeId} (h : Enumerates ids k) (h' : Enumerates ids' k) :
    ids = ids' := by
  have hnodup : ∀ {l : List ScopeId}, (l.Pairwise fun a b => compare a b = .lt) → l.Nodup :=
    fun hl => hl.imp fun hlt heq => by simp [heq] at hlt
  refine List.Perm.eq_of_pairwise ?_ h.ascending h'.ascending
    ((List.perm_ext_iff_of_nodup (hnodup h.ascending) (hnodup h'.ascending)).2 fun id => ?_)
  · intro a b _ _ hab hba
    rw [Std.OrientedCmp.gt_of_lt hab] at hba
    cases hba
  · rw [h.mem, h'.mem]

theorem start (root : CodeAddress) (steps : Nat) : Enumerates [.root] (.start root steps) where
  ascending := List.pairwise_singleton _ _
  mem id := by
    rw [scopes_start, List.mem_singleton]
    split
    · simp [*]
    · simp [*]

/-- The scope that opens next comes last. -/
theorem openScope (h : Enumerates ids k) {src : Sources} {now gone : Nat}
    (hsound : Sound src now gone k) (hlive : k.frames ≠ []) {kind : ScopeKind} {code : CodeAddress}
    {function : Option Nat} :
    Enumerates (ids ++ [k.nextId]) (k.openScope x kind code function) where
  ascending := by
    obtain ⟨top, around, hframes⟩ := List.exists_cons_of_ne_nil hlive
    refine List.pairwise_append.2 ⟨h.ascending, List.pairwise_singleton _ _, ?_⟩
    intro a ha b hb
    rw [List.mem_singleton.1 hb]
    exact hsound.numbered.lt_nextId hsound.linked hframes ((h.mem a).1 ha)
  mem id := by
    rw [isSome_openScope, List.mem_append, List.mem_singleton, h.mem, or_comm]

theorem closeTop (h : Enumerates ids k) : Enumerates ids (k.closeTop x) := by
  cases hframes : k.frames with
  | nil => rwa [closeTop_of_nil hframes]
  | cons top around => exact h.of_isSome fun id => isSome_closeTop hframes id

theorem close (h : Enumerates ids k) : Enumerates ids (k.close x n) :=
  close_induction (fun _ h => h.closeTop) h n

end Enumerates

/-- Every step opens scopes in the order of their ids. -/
theorem enumerates_rules {src : Sources} {site : Site} :
    Journal.Rules src site (fun p log => Enumerates (openedIn log) p.layout)
      (fun p log => Enumerates (openedIn log) p.layout) where
  keeps hkeeps h := hkeeps.layout ▸ h
  function {p q f kind n log} hvalid _ _ hopen _ h := by
    obtain ⟨a, -, -, -, -, hlayout⟩ := Pass.layout_openFunction hopen
    obtain ⟨around, hframes⟩ := p.layout_frames
    rw [hlayout, openedIn_append, Journal.entryEvents, openedIn_opens, openedIn_registers]
    have hopened : Enumerates (openedIn log ++ [p.layout.nextId])
        (p.layout.openScope site.step kind site.code (some f.id)) :=
      h.openScope hvalid.sound (by simp [hframes])
    exact hopened.of_isSome fun _ => .rfl
  call {p q kind log} hvalid hopen h := by
    obtain ⟨callee, -, hlayout⟩ := Pass.layout_openCall hopen
    obtain ⟨around, hframes⟩ := p.layout_frames
    rw [hlayout, openedIn_append]
    exact h.openScope hvalid.sound (by simp [hframes])
  comesBack _ h := by
    rw [Pass.layout_closeCall]
    exact h.close
  returns hvalid htop h := by
    rw [Pass.layout_closeFunction (hvalid.nested_ne_nil htop)]
    exact h.closeTop
  locals {p range n log} _ h := by
    rw [openedIn_append, openedIn_registers, List.append_nil]
    have hlayout : ({ p with tree := p.tree.addVariables (Journal.localsIn p site range n) } :
        Pass).layout = p.layout := by
      rw [Pass.layout, Pass.layout, CallTree.skeleton_addVariables]
    rwa [hlayout]
  stay h := h

/-- The scopes of a finished tree come in the order in which they opened. -/
theorem exists_journal_of_scopes {src : Sources} {tree : CallTree} (h : src.build = .ready tree) :
    ∃ log, src.journal = .ok log ∧ tree.allScopes.map (·.id) = openedIn log := by
  obtain ⟨log, q, hlog, -, hq, hclose⟩ := journal_induction h
    (P := fun _ p log => Enumerates (openedIn log) p.layout)
    (fun _ => by
      rw [Pass.layout_start]
      exact .start _ _)
    (fun hsite hvalid hp hstep => enumerates_rules.step hsite hvalid hstep hp)
  obtain ⟨wf, -⟩ := wellFormed_of_build h
  refine ⟨log, hlog, ?_⟩
  have hend : Enumerates (openedIn log)
      (q.layout.close (q.tree.stepCount - 1) q.layout.frames.length) := hq.close
  have htree := q.layout_finish.2
  rw [hclose] at htree
  have hscopes : Enumerates (tree.allScopes.map (·.id))
      (q.layout.close (q.tree.stepCount - 1) q.layout.frames.length) := by
    refine ⟨wf.ids_ascending, fun id => ?_⟩
    rw [htree]
    show _ ↔ ((tree.scope? id).map Scope.outline).isSome
    rw [Option.isSome_map, Option.isSome_iff_exists, List.mem_map]
    constructor
    · rintro ⟨s, hs, rfl⟩
      exact ⟨s, (mem_allScopes wf).1 hs⟩
    · rintro ⟨s, hs⟩
      have hid := wf.keyed hs
      exact ⟨s, (mem_allScopes wf).2 (hid.symm ▸ hs), hid⟩
  exact hscopes.unique hend

/-- Queries that scan a stretch of the scopes answer what their naive definitions say, for an id
without a scope too: the children of an id are the scopes whose parent it is, and start one after
another; its gas is the sum over the scopes whose ids it contains, in 64 bits. All scopes are
listed, in the order in which the pass opened them, and none before one around it. -/
theorem build_rangeQueries (src : Sources) (tree : CallTree) (h : src.build = .ready tree) :
    (∀ id, tree.childrenOf id = (tree.allScopes.filter fun s => s.id.parent? = some id) ∧
      (tree.childrenOf id).Pairwise fun a b => a.firstStep < b.firstStep) ∧
    (∀ id, tree.cumulativeGas id =
      ((tree.allScopes.filter fun s => id.contains s.id).map (·.gasCost)).sum % Text.bound64) ∧
    (∀ s, s ∈ tree.allScopes ↔ tree.scope? s.id = some s) ∧
    (∃ log, src.journal = .ok log ∧ tree.allScopes.map (·.id) = openedIn log) ∧
    tree.allScopes.Pairwise fun a b => ¬ b.id.isAncestorOf a.id := by
  obtain ⟨wf, -⟩ := wellFormed_of_build h
  have hascending := List.pairwise_map.1 wf.ids_ascending
  refine ⟨fun id => ⟨wf.childrenOf_eq id, ?_⟩, wf.cumulativeGas_eq, fun s => mem_allScopes wf,
    exists_journal_of_scopes h, ?_⟩
  · rw [wf.childrenOf_eq, List.pairwise_filter]
    refine hascending.imp_of_mem fun {a b} ha hb hlt hpa hpb => ?_
    rw [mem_allScopes wf] at ha hb
    exact wf.firstStep_lt_of_siblings ha hb (of_decide_eq_true hpa) (of_decide_eq_true hpb) hlt
  · refine hascending.imp fun {a b} hlt habove => ?_
    obtain ⟨hin, hne⟩ := ScopeId.isAncestorOf_iff.1 habove
    rw [Std.OrientedCmp.gt_of_lt (ScopeId.compare_of_contains hin hne)] at hlt
    cases hlt

/-- The function that calls opens first, then the frame of the callee, then the function in it. The
function that calls has its own gas and that of the other two; an id without scope has none. -/
theorem build_rangeQueries_call : ∃ tree log, callSources.build = .ready tree ∧
    callSources.journal = .ok log ∧
    tree.allScopes.map (fun s => (s.id.path, s.gasCost)) =
      [([1], 1), ([1, 1], 3), ([1, 1, 1], 1), ([1, 1, 1, 1], 0)] ∧
    tree.allScopes.map (·.id) = openedIn log ∧
    tree.childrenOf .root = (tree.allScopes.filter fun s => s.id.parent? = some .root) ∧
    tree.cumulativeGas (ScopeId.root.child 1) = 4 ∧
    tree.cumulativeGas (ScopeId.root.child 2) = 0 := by
  obtain ⟨tree, h⟩ := Outcome.exists_of_isReady isReady_call
  obtain ⟨hchildren, hgas, -, ⟨log, hlog, horder⟩, -⟩ := build_rangeQueries callSources tree h
  have hscopes : callSources.build.tree?.map
      (fun t => t.allScopes.map fun s => (s.id.path, s.gasCost)) =
        some [([1], 1), ([1, 1], 3), ([1, 1, 1], 1), ([1, 1, 1, 1], 0)] := by decide +kernel
  have hsums : callSources.build.tree?.map (fun t => [1, 2].map fun n =>
      ((t.allScopes.filter fun s => (ScopeId.root.child n).contains s.id).map (·.gasCost)).sum %
        Text.bound64) = some [4, 0] := by decide +kernel
  rw [h, Outcome.tree?, Option.map_some, Option.some.injEq] at hscopes hsums
  simp only [List.map_cons, List.map_nil, ← hgas, List.cons.injEq] at hsums
  exact ⟨tree, log, h, hlog, hscopes, horder, (hchildren .root).1, hsums.1, hsums.2.1⟩

end Build

end TraceTree
