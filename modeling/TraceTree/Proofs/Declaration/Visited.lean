import Mathlib.Data.List.Nodup
import Mathlib.Logic.Function.Iterate
import TraceTree.Declaration
import TraceTree.Proofs.Json.Reordered

/-!
The order in which the nodes of a syntax tree are visited. Main statements: a loop with a stack
visits them in that order and comes to its end (`Walk.exists_turns`), in a canonical tree the
members of every visited object come in the order of their names (`ascending_of_mem_visited`), and
where ids are unique no node stands both before a function and in one of its parameter lists
(`UniqueIds.not_before`).
-/
namespace TraceTree.SyntaxNode

variable {node tree j x y : Json} {xs : List Json} {ms : List (String × Json)}
  {name key : String} {n : Nat}

/-! ### Visited nodes -/

theorem mem_visitedItems : node ∈ visitedItems xs ↔ ∃ x ∈ xs, node ∈ visited x := by
  induction xs with
  | nil => simp [visitedItems]
  | cons x xs ih => simp [visitedItems, ih]

theorem mem_visitedMembers : node ∈ visitedMembers ms ↔ ∃ m ∈ ms, node ∈ visited m.2 := by
  induction ms with
  | nil => simp [visitedMembers]
  | cons m ms ih => simp [visitedMembers, ih]

theorem mem_visited_object :
    node ∈ visited (.object ms) ↔
      ¬ isAssembly (.object ms) ∧ (node = .object ms ∨ ∃ m ∈ ms, node ∈ visited m.2) := by
  rw [visited]
  split_ifs with h <;> simp [h, mem_visitedMembers]

mutual

/-- Assembly is not visited. -/
theorem not_isAssembly_of_mem_visited : ∀ {tree : Json}, node ∈ visited tree → ¬ isAssembly node
  | .array xs, h => by
    rw [visited] at h
    exact not_isAssembly_of_mem_items h
  | .object ms, h => by
    rw [visited] at h
    split_ifs at h with hasm
    · cases h
    · rcases List.mem_cons.1 h with rfl | h
      · exact hasm
      · exact not_isAssembly_of_mem_members h
  | .null, h | .bool _, h | .integer _, h | .decimal _, h | .string _, h | .unreadable, h => by
    simp [visited] at h

theorem not_isAssembly_of_mem_items : ∀ {xs : List Json},
    node ∈ visitedItems xs → ¬ isAssembly node
  | [], h => by simp [visitedItems] at h
  | x :: xs, h => by
    rw [visitedItems, List.mem_append] at h
    exact h.elim not_isAssembly_of_mem_visited not_isAssembly_of_mem_items

theorem not_isAssembly_of_mem_members : ∀ {ms : List (String × Json)},
    node ∈ visitedMembers ms → ¬ isAssembly node
  | [], h => by simp [visitedMembers] at h
  | (_, x) :: ms, h => by
    rw [visitedMembers, List.mem_append] at h
    exact h.elim not_isAssembly_of_mem_visited not_isAssembly_of_mem_members

end

/-! ### The loop -/

/-- A loop over a tree: the values that are still to come, as a stack with its top at the end of
the list, and what the visits made so far. -/
structure Walk (σ : Type) where
  pending : List Json
  state : σ

namespace Walk

variable {σ : Type} {visit : σ → Json → σ} {w w' w'' : Walk σ}

/-- One turn of the loop. It takes the value on top; an array leaves its items on the stack, an
object its values after it was visited, both so that the first comes to lie on top. -/
def turn (visit : σ → Json → σ) (w : Walk σ) : Walk σ :=
  match w.pending.getLast? with
  | none => w
  | some (.array xs) => ⟨w.pending.dropLast ++ xs.reverse, w.state⟩
  | some (.object ms) =>
    if isAssembly (.object ms) then ⟨w.pending.dropLast, w.state⟩
    else ⟨w.pending.dropLast ++ (ms.map (·.2)).reverse, visit w.state (.object ms)⟩
  | some _ => ⟨w.pending.dropLast, w.state⟩

/-- Some turns lead from the one to the other. -/
def Leads (visit : σ → Json → σ) (w w' : Walk σ) : Prop := ∃ n, (turn visit)^[n] w = w'

theorem Leads.of_turn (h : turn visit w = w') : Leads visit w w' := ⟨1, h⟩

theorem Leads.trans (h : Leads visit w w') (h' : Leads visit w' w'') : Leads visit w w'' := by
  obtain ⟨n, rfl⟩ := h
  obtain ⟨n', rfl⟩ := h'
  exact ⟨n' + n, Function.iterate_add_apply _ n' n w⟩

mutual

/-- What lies on top is worked off before anything below it: its nodes are visited in their
order. -/
theorem leads_visited (rest : List Json) (s : σ) : ∀ j : Json,
    Leads visit ⟨rest ++ [j], s⟩ ⟨rest, (visited j).foldl visit s⟩
  | .array xs => by
    have hturn : turn visit ⟨rest ++ [.array xs], s⟩ = ⟨rest ++ xs.reverse, s⟩ := by simp [turn]
    rw [visited]
    exact (Leads.of_turn hturn).trans (leads_visitedItems rest s xs)
  | .object ms => by
    rw [visited]
    split_ifs with hasm
    · exact .of_turn (by simp [turn, hasm])
    · have hturn : turn visit ⟨rest ++ [.object ms], s⟩ =
          ⟨rest ++ (ms.map (·.2)).reverse, visit s (.object ms)⟩ := by simp [turn, hasm]
      exact (Leads.of_turn hturn).trans (leads_visitedMembers rest _ ms)
  | .null | .bool _ | .integer _ | .decimal _ | .string _ | .unreadable => by
    exact .of_turn (by simp [turn, visited])

theorem leads_visitedItems (rest : List Json) (s : σ) : ∀ xs : List Json,
    Leads visit ⟨rest ++ xs.reverse, s⟩ ⟨rest, (visitedItems xs).foldl visit s⟩
  | [] => ⟨0, by simp [visitedItems]⟩
  | x :: xs => by
    rw [List.reverse_cons, ← List.append_assoc, visitedItems, List.foldl_append]
    exact (leads_visited _ s x).trans (leads_visitedItems rest _ xs)

theorem leads_visitedMembers (rest : List Json) (s : σ) : ∀ ms : List (String × Json),
    Leads visit ⟨rest ++ (ms.map (·.2)).reverse, s⟩ ⟨rest, (visitedMembers ms).foldl visit s⟩
  | [] => ⟨0, by simp [visitedMembers]⟩
  | (_, v) :: ms => by
    rw [List.map_cons, List.reverse_cons, ← List.append_assoc, visitedMembers, List.foldl_append]
    exact (leads_visited _ s v).trans (leads_visitedMembers rest _ ms)

end

/-- From a stack with the tree alone the loop comes to an empty stack, and it has visited the nodes
in their order. -/
theorem exists_turns (visit : σ → Json → σ) (s : σ) (tree : Json) :
    ∃ n, (turn visit)^[n] ⟨[tree], s⟩ = ⟨[], (visited tree).foldl visit s⟩ :=
  leads_visited [] s tree

end Walk

/-! ### The order of members -/

/-- Members in strictly ascending order of their names. -/
def Ascending (ms : List (String × Json)) : Prop :=
  ms.Pairwise fun a b => compare a.1 b.1 = .lt

theorem keepLast_sublist (ms : List (String × Json)) : (Json.keepLast ms).Sublist ms := by
  fun_induction Json.keepLast ms with
  | case1 => exact .slnil
  | case2 => exact .refl _
  | case3 m m' rest heq ih => exact ih.cons _
  | case4 m m' rest hne ih => exact ih.cons_cons _

theorem ascending_keepLast (h : ms.Pairwise fun a b => (compare a.1 b.1).isLE) :
    Ascending (Json.keepLast ms) := by
  fun_induction Json.keepLast ms with
  | case1 => exact .nil
  | case2 m => exact List.pairwise_singleton _ m
  | case3 m m' rest heq ih => exact ih h.of_cons
  | case4 m m' rest hne ih =>
    rw [List.pairwise_cons] at h
    refine .cons (fun e he => ?_) (ih h.2)
    -- the next name is greater, and what follows it is not less than it
    have hlt : compare m.1 m'.1 = .lt := by
      refine (Ordering.isLE_iff_eq_lt_or_eq_eq.1 (h.1 m' (by simp))).resolve_right fun heq => ?_
      exact hne (Std.LawfulEqCmp.eq_of_compare heq)
    rcases List.mem_cons.1 ((keepLast_sublist (m' :: rest)).subset he) with rfl | hrest
    · exact hlt
    · exact Std.TransCmp.lt_of_lt_of_isLE hlt (List.rel_of_pairwise_cons h.2 hrest)

theorem ascending_sortMembers (ms : List (String × Json)) : Ascending (Json.sortMembers ms) := by
  refine ascending_keepLast (List.pairwise_mergeSort ?_ ?_ ms)
  · exact fun a b c hab hbc => Std.TransCmp.isLE_trans hab hbc
  · intro a b
    rw [Bool.or_eq_true, ← Std.OrientedCmp.isGE_iff_isLE]
    cases compare b.1 a.1 <;> decide

theorem mem_of_mem_sortMembers {m : String × Json} (h : m ∈ Json.sortMembers ms) : m ∈ ms :=
  List.mem_mergeSort.1 ((keepLast_sublist _).subset h)

mutual

theorem ascending_of_mem_visited : ∀ {tree : Json},
    .object ms ∈ visited tree.canonical → Ascending ms
  | .array xs, h => by
    rw [Json.canonical, visited, mem_visitedItems] at h
    obtain ⟨x, hx, hmem⟩ := h
    exact ascending_of_mem_items hx hmem
  | .object ns, h => by
    rw [Json.canonical, mem_visited_object] at h
    obtain ⟨-, heq | ⟨m, hm, hmem⟩⟩ := h
    · cases heq
      exact ascending_sortMembers _
    · exact ascending_of_mem_members (mem_of_mem_sortMembers hm) hmem
  | .null, h | .bool _, h | .integer _, h | .decimal _, h | .string _, h | .unreadable, h => by
    simp [Json.canonical, visited] at h

theorem ascending_of_mem_items : ∀ {xs : List Json} {x : Json}, x ∈ Json.canonicalItems xs →
    .object ms ∈ visited x → Ascending ms
  | [], x, hx, _ => by simp [Json.canonicalItems] at hx
  | y :: ys, x, hx, hmem => by
    rw [Json.canonicalItems, List.mem_cons] at hx
    rcases hx with rfl | hx
    · exact ascending_of_mem_visited hmem
    · exact ascending_of_mem_items hx hmem

theorem ascending_of_mem_members : ∀ {ns : List (String × Json)} {m : String × Json},
    m ∈ Json.canonicalMembers ns → .object ms ∈ visited m.2 → Ascending ms
  | [], m, hm, _ => by simp [Json.canonicalMembers] at hm
  | (k, v) :: ns, m, hm, hmem => by
    rw [Json.canonicalMembers, List.mem_cons] at hm
    rcases hm with rfl | hm
    · exact ascending_of_mem_visited hmem
    · exact ascending_of_mem_members hm hmem

end

/-! ### Where objects stand -/

mutual

/-- All objects of a tree, those of inline assembly too, each before what is inside it. With each
goes the name of the member that it is or, in an array, of the member that the array is. -/
def placed (name : String) : Json → List (String × Json)
  | .array xs => placedItems name xs
  | .object ms => (name, .object ms) :: placedMembers ms
  | _ => []

def placedItems (name : String) : List Json → List (String × Json)
  | [] => []
  | x :: xs => placed name x ++ placedItems name xs

def placedMembers : List (String × Json) → List (String × Json)
  | [] => []
  | (k, v) :: ms => placed k v ++ placedMembers ms

end

theorem placed_sublist_items (h : x ∈ xs) : (placed name x).Sublist (placedItems name xs) := by
  induction xs with
  | nil => simp at h
  | cons y xs ih =>
    rw [placedItems]
    rcases List.mem_cons.1 h with rfl | h
    · exact List.sublist_append_left _ _
    · exact (ih h).trans (List.sublist_append_right _ _)

theorem placed_sublist_members (h : (name, x) ∈ ms) :
    (placed name x).Sublist (placedMembers ms) := by
  induction ms with
  | nil => simp at h
  | cons m ms ih =>
    rw [placedMembers]
    rcases List.mem_cons.1 h with rfl | h
    · exact List.sublist_append_left _ _
    · exact (ih h).trans (List.sublist_append_right _ _)

mutual

/-- The visited nodes are among the objects, in the same order. -/
theorem visited_sublist (name : String) : ∀ tree : Json,
    (visited tree).Sublist ((placed name tree).map (·.2))
  | .array xs => by
    rw [visited, placed]
    exact visitedItems_sublist name xs
  | .object ms => by
    rw [visited, placed, List.map_cons]
    split_ifs
    · exact List.nil_sublist _
    · exact (visitedMembers_sublist ms).cons_cons _
  | .null | .bool _ | .integer _ | .decimal _ | .string _ | .unreadable => by
    rw [visited]
    · exact List.nil_sublist _
    all_goals simp

theorem visitedItems_sublist (name : String) : ∀ xs : List Json,
    (visitedItems xs).Sublist ((placedItems name xs).map (·.2))
  | [] => .slnil
  | x :: xs => by
    rw [visitedItems, placedItems, List.map_append]
    exact (visited_sublist name x).append (visitedItems_sublist name xs)

theorem visitedMembers_sublist : ∀ ms : List (String × Json),
    (visitedMembers ms).Sublist ((placedMembers ms).map (·.2))
  | [] => .slnil
  | (k, v) :: ms => by
    rw [visitedMembers, placedMembers, List.map_append]
    exact (visited_sublist k v).append (visitedMembers_sublist ms)

end

mutual

/-- What stands in an object of a tree stands in the tree, in the same order. -/
theorem placed_sublist_of_mem : ∀ {name : String} {tree : Json}, (key, node) ∈ placed name tree →
    (placed key node).Sublist (placed name tree)
  | name, .array xs, h => by
    rw [placed] at h ⊢
    exact placed_sublist_of_mem_items h
  | name, .object ms, h => by
    rw [placed, List.mem_cons] at h
    rcases h with heq | h
    · cases heq
      exact .refl _
    · rw [placed]
      exact (placed_sublist_of_mem_members h).cons _
  | _, .null, h | _, .bool _, h | _, .integer _, h | _, .decimal _, h | _, .string _, h
  | _, .unreadable, h => by simp [placed] at h

theorem placed_sublist_of_mem_items : ∀ {name : String} {xs : List Json},
    (key, node) ∈ placedItems name xs → (placed key node).Sublist (placedItems name xs)
  | name, [], h => by simp [placedItems] at h
  | name, x :: xs, h => by
    rw [placedItems, List.mem_append] at h
    rw [placedItems]
    rcases h with h | h
    · exact (placed_sublist_of_mem h).trans (List.sublist_append_left _ _)
    · exact (placed_sublist_of_mem_items h).trans (List.sublist_append_right _ _)

theorem placed_sublist_of_mem_members : ∀ {ms : List (String × Json)},
    (key, node) ∈ placedMembers ms → (placed key node).Sublist (placedMembers ms)
  | [], h => by simp [placedMembers] at h
  | (k, v) :: ms, h => by
    rw [placedMembers, List.mem_append] at h
    rw [placedMembers]
    rcases h with h | h
    · exact (placed_sublist_of_mem h).trans (List.sublist_append_left _ _)
    · exact (placed_sublist_of_mem_members h).trans (List.sublist_append_right _ _)

end

theorem exists_object (h : id? node = some n) : ∃ ms, node = .object ms := by
  cases node with
  | object ms => exact ⟨ms, rfl⟩
  | _ => simp [id?, Json.get, Json.member?, Json.asNat?] at h

/-- A member of an object of the tree stands there under its name. -/
theorem placed_member (h : node.get key = .object ms) :
    ∃ ns, node = .object ns ∧ (placed key (.object ms)).Sublist (placedMembers ns) := by
  cases node with
  | object ns =>
    obtain ⟨v, hv, hobj⟩ : ∃ v, Json.memberIn key ns = some v ∧ v = .object ms := by
      cases hm : Json.memberIn key ns <;> simp_all [Json.get, Json.member?]
    subst hobj
    exact ⟨ns, rfl, placed_sublist_members (Json.mem_of_memberIn hv)⟩
  | _ => simp [Json.get, Json.member?] at h

/-- The items of a member. -/
def items (key : String) (node : Json) : List Json := (node.get key).asArray?.getD []

/-- An item of a member stands in the tree under the name of the member. -/
theorem placed_item (h : x ∈ items key node) (hid : id? x = some n) :
    ∃ ns, node = .object ns ∧ (key, x) ∈ placedMembers ns := by
  obtain ⟨ms, rfl⟩ := exists_object hid
  cases node with
  | object ns =>
    obtain ⟨xs, hv, hx⟩ : ∃ xs, Json.memberIn key ns = some (.array xs) ∧ .object ms ∈ xs := by
      cases hm : Json.memberIn key ns with
      | none => simp [items, Json.get, Json.member?, hm, Json.asArray?] at h
      | some v => cases v <;> simp_all [items, Json.get, Json.member?, Json.asArray?]
    refine ⟨ns, rfl, (placed_sublist_members (Json.mem_of_memberIn hv)).subset ?_⟩
    rw [placed]
    refine (placed_sublist_items hx).subset ?_
    simp [placed]
  | _ => simp [items, Json.get, Json.member?, Json.asArray?] at h

/-! ### Unique ids -/

/-- No two objects of a tree have the same id. -/
def UniqueIds (tree : Json) : Prop := ((placed "" tree).filterMap fun e => id? e.2).Nodup

instance (tree : Json) : Decidable (UniqueIds tree) :=
  inferInstanceAs (Decidable ((placed "" tree).filterMap fun e => id? e.2).Nodup)

theorem exists_placed_sublist (h : node ∈ visited tree) :
    ∃ key, (placed key node).Sublist (placed "" tree) := by
  obtain ⟨⟨key, _⟩, hmem, rfl⟩ := List.mem_map.1 ((visited_sublist "" tree).subset h)
  exact ⟨key, placed_sublist_of_mem hmem⟩

/-- A readable item of a parameter list stands inside its function. -/
theorem placed_parameter {list : String} (h : y ∈ items "parameters" (node.get list))
    (hid : id? y = some n) : ∃ ns, node = .object ns ∧ ("parameters", y) ∈ placedMembers ns := by
  obtain ⟨ms, hlist, hmem⟩ := placed_item h hid
  obtain ⟨ns, rfl, hsub⟩ := placed_member hlist
  rw [placed] at hsub
  exact ⟨ns, rfl, hsub.subset (List.mem_cons_of_mem _ hmem)⟩

/-- A list without repetitions has two elements in one order only. -/
theorem not_sublist_swap {l : List Nat} {a b : Nat} (h : l.Nodup) (hab : [a, b].Sublist l) :
    ¬ [b, a].Sublist l := by
  induction l with
  | nil => simp at hab
  | cons c l ih =>
    rw [List.nodup_cons] at h
    grind [List.cons_sublist_cons']

namespace UniqueIds

variable {key' list : String} {m : Nat}

/-- Objects of one id stand under one name. -/
theorem name_eq (h : UniqueIds tree) (hx : (key, x) ∈ placed "" tree)
    (hy : (key', y) ∈ placed "" tree) (hidx : id? x = some n) (hidy : id? y = some n) :
    key = key' := by
  rw [UniqueIds, List.Nodup, List.pairwise_filterMap] at h
  refine List.Pairwise.forall_of_forall_of_flip
    (R := fun e e' => id? e.2 = some n → id? e'.2 = some n → e.1 = e'.1) (fun _ _ _ _ => rfl)
    (h.imp fun hne he he' => ?_) (h.imp fun hne he' he => ?_) hx hy hidx hidy
  all_goals exact (hne n he n he' rfl).elim

/-- A variable that a statement declares is no parameter of a function. -/
theorem ne_declaration {f : Json} (h : UniqueIds tree) (hnode : node ∈ visited tree)
    (hx : x ∈ items "declarations" node) (hf : f ∈ visited tree)
    (hy : y ∈ items "parameters" (f.get list)) (hidy : id? y = some n) : id? x ≠ some n := by
  intro hidx
  obtain ⟨ms, rfl, hmem⟩ := placed_item hx hidx
  obtain ⟨ns, rfl, hmem'⟩ := placed_parameter hy hidy
  obtain ⟨_, hsub⟩ := exists_placed_sublist hnode
  obtain ⟨_, hsub'⟩ := exists_placed_sublist hf
  rw [placed] at hsub hsub'
  have hname := h.name_eq (hsub.subset (List.mem_cons_of_mem _ hmem))
    (hsub'.subset (List.mem_cons_of_mem _ hmem')) hidx hidy
  simp at hname

/-- A node that is visited before a function is no parameter of it. -/
theorem not_before {f : Json} (h : UniqueIds tree) (hbefore : [x, f].Sublist (visited tree))
    (hidf : id? f = some m) (hy : y ∈ items "parameters" (f.get list)) (hidy : id? y = some n) :
    id? x ≠ some n := by
  intro hidx
  have hf : f ∈ visited tree := hbefore.subset (by simp)
  rw [UniqueIds, ← Function.comp_def id?, ← List.filterMap_map] at h
  have hfirst : [n, m].Sublist (((placed "" tree).map (·.2)).filterMap id?) := by
    simpa [hidx, hidf] using (hbefore.trans (visited_sublist "" tree)).filterMap id?
  obtain ⟨ns, rfl, hmem⟩ := placed_parameter hy hidy
  obtain ⟨_, hsub⟩ := exists_placed_sublist hf
  have hinside : [.object ns, y].Sublist ((placed "" tree).map (·.2)) := by
    refine List.Sublist.trans ?_ (hsub.map (·.2))
    rw [placed, List.map_cons]
    exact (List.singleton_sublist.2 (List.mem_map_of_mem (f := (·.2)) hmem)).cons_cons _
  have hlast : [m, n].Sublist (((placed "" tree).map (·.2)).filterMap id?) := by
    simpa [hidf, hidy] using hinside.filterMap id?
  exact not_sublist_swap h hfirst hlast

end UniqueIds

end TraceTree.SyntaxNode
