import Mathlib.Data.List.Induction
import TraceTree.Proofs.Declaration
import TraceTree.Proofs.Declaration.Visited

/-!
What the index of declarations holds, told from the visited nodes alone. Main statement: under an
id stands the function of the last node that defines one with it, at a range stand the variables
that nodes declare there, in their order and each id once, without state variables and without the
parameters of functions met before; so no parameter is a local where ids are unique
(`Declarations.ofTree_indexes`).
-/
namespace TraceTree

namespace SyntaxNode

/-! ### What a node declares -/

/-- The function that a node defines. -/
def definition? (node : Json) : Option FunctionDefinition :=
  if type? node = some "FunctionDefinition" then FunctionDefinition.ofNode? node else none

/-- The variable that a node declares inside of a function. -/
def localVariable? (node : Json) : Option VariableDeclaration :=
  if Json.readBool (node.get "stateVariable") = some true then none
  else VariableDeclaration.ofNode? node

/-- The declarations of variables that come into being with a node at a range: a declaration at its
own, the declarations of a statement at the range of its initial value. -/
def declarationsAt (range : SourceRange) (node : Json) : List Json :=
  if type? node = some "VariableDeclaration" ∧ src? node = some range then [node]
  else if type? node = some "VariableDeclarationStatement" ∧
      src? (node.get "initialValue") = some range then items "declarations" node
  else []

/-- The ids of all parameters of the functions that nodes define. -/
def parameterIds (nodes : List Json) : List Nat :=
  (nodes.filterMap definition?).flatMap (·.parameterIds)

/-- The variables that a node declares at a range, without those of the ids `parameters`. -/
def localsOf (range : SourceRange) (parameters : List Nat) (node : Json) :
    List VariableDeclaration :=
  ((declarationsAt range node).filterMap localVariable?).filter fun v => v.id ∉ parameters

/-- The variables that nodes declare at a range, in order. The parameters of a function are none
from its node on. -/
def localsIn (range : SourceRange) (nodes : List Json) : List VariableDeclaration :=
  nodes.zipIdx.flatMap fun e => localsOf range (parameterIds (nodes.take e.2)) e.1

variable {node tree : Json} {nodes : List Json} {range : SourceRange} {f : FunctionDefinition}
  {p v : VariableDeclaration}

theorem id?_src?_of_ofNode? (h : VariableDeclaration.ofNode? node = some v) :
    id? node = some v.id ∧ src? node = some v.src := by
  simp only [VariableDeclaration.ofNode?, Option.bind_eq_bind, Option.pure_def,
    Option.bind_eq_some_iff, Option.some.injEq] at h
  obtain ⟨_, hid, _, hsrc, rfl⟩ := h
  exact ⟨hid, hsrc⟩

theorem parameterIds_concat (nodes : List Json) (node : Json) :
    parameterIds (nodes ++ [node]) = parameterIds nodes ++ parameterIds [node] := by
  simp [parameterIds]

theorem localsIn_concat (nodes : List Json) (node : Json) :
    localsIn range (nodes ++ [node]) =
      localsIn range nodes ++ localsOf range (parameterIds nodes) node := by
  have htake : ∀ e ∈ nodes.zipIdx, (nodes ++ [node]).take e.2 = nodes.take e.2 := by
    intro e he
    exact List.take_append_of_le_length (Nat.le_of_lt (by simpa using List.snd_lt_of_mem_zipIdx he))
  rw [localsIn, List.zipIdx_append, List.flatMap_append, localsIn]
  congr 1
  · exact List.flatMap_congr fun e he => by rw [htake e he]
  · simp

theorem ofNode?_of_localVariable? (h : localVariable? node = some v) :
    id? node = some v.id ∧ src? node = some v.src := by
  rw [localVariable?] at h
  split_ifs at h
  exact id?_src?_of_ofNode? h

/-! ### Parameters -/

theorem of_definition? (h : definition? node = some f) :
    id? node = some f.id ∧ f.parameters = FunctionDefinition.parametersOf "parameters" node ∧
      f.returnParameters = FunctionDefinition.parametersOf "returnParameters" node := by
  rw [definition?] at h
  split_ifs at h
  simp only [FunctionDefinition.ofNode?, Option.bind_eq_bind, Option.pure_def,
    Option.bind_eq_some_iff, Option.some.injEq] at h
  obtain ⟨_, hid, _, -, rfl⟩ := h
  exact ⟨hid, rfl, rfl⟩

theorem exists_item_of_parameter (h : definition? node = some f)
    (hp : p ∈ f.parameters ++ f.returnParameters) :
    ∃ list y, y ∈ items "parameters" (node.get list) ∧ id? y = some p.id := by
  obtain ⟨-, hparameters, hreturns⟩ := of_definition? h
  rw [hparameters, hreturns, List.mem_append] at hp
  obtain ⟨list, hlist⟩ : ∃ list, p ∈ FunctionDefinition.parametersOf list node :=
    hp.elim (⟨_, ·⟩) (⟨_, ·⟩)
  obtain ⟨y, hy, hread⟩ := List.mem_filterMap.1 hlist
  exact ⟨list, y, hy, (id?_src?_of_ofNode? hread).1⟩

theorem mem_parameterIds (hnode : node ∈ nodes) (h : definition? node = some f)
    (hp : p ∈ f.parameters ++ f.returnParameters) : p.id ∈ parameterIds nodes :=
  List.mem_flatMap.2
    ⟨f, List.mem_filterMap.2 ⟨node, hnode, h⟩, List.mem_map.2 ⟨p, hp, rfl⟩⟩

/-- A variable among the locals has its node among those that are visited, or in a statement. It is
no parameter of the functions before. -/
theorem exists_of_mem_localsIn (h : v ∈ localsIn range nodes) :
    ∃ before node after, nodes = before ++ node :: after ∧ v.id ∉ parameterIds before ∧
      ∃ x, id? x = some v.id ∧
        (type? node = some "VariableDeclaration" ∧ x = node ∨ x ∈ items "declarations" node) := by
  obtain ⟨⟨node, k⟩, hk, hv⟩ := List.mem_flatMap.1 h
  rw [localsOf, List.mem_filter, List.mem_filterMap, decide_eq_true_eq] at hv
  obtain ⟨⟨x, hx, hread⟩, hnot⟩ := hv
  obtain ⟨hlt, hnode⟩ := List.mem_zipIdx' hk
  refine ⟨nodes.take k, node, nodes.drop (k + 1), ?_, hnot, x,
    (ofNode?_of_localVariable? hread).1, ?_⟩
  · rw [hnode, List.getElem_cons_drop, List.take_append_drop]
  · rw [declarationsAt] at hx
    split_ifs at hx with hown hstatement
    · exact .inl ⟨hown.1, List.mem_singleton.1 hx⟩
    · exact .inr hx
    · simp at hx

/-- Where ids are unique a parameter is no local: its own node comes after the function that takes
it out, and no statement declares it. -/
theorem UniqueIds.ne_parameter (h : UniqueIds tree) (hnode : node ∈ visited tree)
    (hf : definition? node = some f) (hp : p ∈ f.parameters ++ f.returnParameters)
    (hv : v ∈ localsIn range (visited tree)) : v.id ≠ p.id := by
  intro hid
  obtain ⟨list, y, hy, hidy⟩ := exists_item_of_parameter hf hp
  obtain ⟨before, place, after, hsplit, hnot, x, hidx, ⟨htype, rfl⟩ | hx⟩ :=
    exists_of_mem_localsIn hv
  · rw [hid] at hidx hnot
    have hmem := hnode
    rw [hsplit, List.mem_append, List.mem_cons] at hmem
    -- a function met before its parameter's node takes the id out, and none can be met after it
    rcases hmem with hbefore | rfl | hafter
    · exact hnot (mem_parameterIds hbefore hf hp)
    · rw [definition?, htype] at hf
      simp at hf
    · refine h.not_before ?_ (of_definition? hf).1 hy hidy hidx
      rw [hsplit]
      exact ((List.singleton_sublist.2 hafter).cons_cons x).trans (List.sublist_append_right _ _)
  · have hplace : place ∈ visited tree := by simp [hsplit]
    rw [hid] at hidx
    exact h.ne_declaration hplace hx hnode hy hidy hidx

end SyntaxNode

namespace Declarations

open SyntaxNode

/-! ### The first of each id -/

/-- Puts a variable at the end, unless one of its id is there. -/
def addNew (there : List VariableDeclaration) (v : VariableDeclaration) :
    List VariableDeclaration :=
  if there.any (·.id == v.id) then there else there ++ [v]

/-- The variables of a list, of those with one id the first. -/
def firstOfEach (vs : List VariableDeclaration) : List VariableDeclaration :=
  vs.eraseDupsBy fun v w => v.id == w.id

theorem firstOfEach_eq_foldl (vs : List VariableDeclaration) :
    firstOfEach vs = vs.foldl addNew [] := by
  have hloop : ∀ there : List VariableDeclaration,
      List.eraseDupsBy.loop (fun v w => v.id == w.id) vs there = vs.foldl addNew there.reverse := by
    induction vs with
    | nil => intro there; rfl
    | cons v vs ih =>
      intro there
      have hany : there.reverse.any (·.id == v.id) = there.any fun w => v.id == w.id := by
        rw [List.any_reverse]
        exact List.any_congr rfl fun w => Bool.beq_comm
      rw [List.eraseDupsBy.loop, List.foldl_cons, addNew, hany]
      cases there.any fun w => v.id == w.id with
      | true => exact ih there
      | false => rw [ih (v :: there), List.reverse_cons]; rfl
  exact hloop []

theorem mem_of_mem_firstOfEach {v : VariableDeclaration} {vs : List VariableDeclaration}
    (h : v ∈ firstOfEach vs) : v ∈ vs := by
  rw [firstOfEach_eq_foldl] at h
  induction vs using List.reverseRecOn with
  | nil => exact h
  | append_singleton vs w ih =>
    rw [List.foldl_concat, addNew] at h
    split_ifs at h
    · exact List.mem_append_left _ (ih h)
    · exact (List.mem_append.1 h).elim (fun h => List.mem_append_left _ (ih h))
        (List.mem_append_right _)

namespace Survey

variable {s : Survey} {node : Json} {nodes : List Json} {range r : SourceRange} {id : Nat}

/-! ### One visit -/

theorem localsAt_addAt (v : VariableDeclaration) :
    (s.addAt range v).index.localsAt r =
      if range = r then addNew (s.index.localsAt r) v else s.index.localsAt r := by
  have hadd : s.addAt range v =
      if (s.index.localsAt range).any (·.id == v.id) then s
      else { s with index := { s.index with
        locals := s.index.locals.insert range (s.index.localsAt range ++ [v]) } } := rfl
  rw [hadd]
  by_cases hany : (s.index.localsAt range).any (·.id == v.id)
  · rw [if_pos hany]
    split_ifs with hr
    · rw [← hr, addNew, if_pos hany]
    · rfl
  · rw [if_neg hany, Declarations.localsAt, SortedMap.find?_insert]
    split_ifs with hr' hr hr
    · rw [← hr, addNew, if_neg hany]
      rfl
    · exact (hr hr'.symm).elim
    · exact (hr' hr.symm).elim
    · rfl

theorem localsAt_addLocal (at? : Option SourceRange) :
    (addLocal at? s node).index.localsAt r =
      ((localVariable? node).toList.filter fun v =>
        at?.getD v.src = r ∧ v.id ∉ s.parameters).foldl addNew (s.index.localsAt r) := by
  rw [addLocal, localVariable?]
  split_ifs with hstate
  · rfl
  · cases VariableDeclaration.ofNode? node with
    | none => rfl
    | some v =>
      by_cases hp : v.id ∈ s.parameters
      · simp [hp]
      · by_cases hr : at?.getD v.src = r <;> simp [hp, hr, localsAt_addAt]

theorem parameters_addLocal (at? : Option SourceRange) :
    (addLocal at? s node).parameters = s.parameters := by
  obtain ⟨_, hadd⟩ := exists_locals_addLocal at? s node
  rw [hadd]

theorem localsAt_addLocals (nodes : List Json) (s : Survey) :
    (nodes.foldl (addLocal (some range)) s).index.localsAt r =
      if range = r then
        ((nodes.filterMap localVariable?).filter fun v => v.id ∉ s.parameters).foldl addNew
          (s.index.localsAt r)
      else s.index.localsAt r := by
  induction nodes generalizing s with
  | nil => simp
  | cons node nodes ih =>
    rw [List.foldl_cons, ih, parameters_addLocal, localsAt_addLocal]
    by_cases hr : range = r
    · cases hv : localVariable? node with
      | none => simp [hr, hv]
      | some v => by_cases hp : v.id ∈ s.parameters <;> simp [hr, hv, hp]
    · simp [hr]

theorem localsAt_visit :
    (s.visit node).index.localsAt r =
      (localsOf r s.parameters node).foldl addNew (s.index.localsAt r) := by
  rw [visit]
  split
  · rename_i htype
    have hnone : declarationsAt r node = [] := by simp [declarationsAt, htype]
    rw [localsOf, hnone]
    split <;> rfl
  · rename_i htype
    rw [localsAt_addLocal, localsOf, declarationsAt]
    cases hv : localVariable? node with
    | none => split_ifs <;> simp_all
    | some v =>
      have hsrc := (ofNode?_of_localVariable? hv).2
      by_cases hr : v.src = r <;> simp [htype, hsrc, hr, hv, List.filter_cons]
  · rename_i htype
    have hown : type? node ≠ some "VariableDeclaration" := by simp [htype]
    rw [localsOf, declarationsAt, if_neg fun h => hown h.1]
    cases hinit : src? (node.get "initialValue") with
    | none => simp
    | some range =>
      dsimp only
      rw [localsAt_addLocals]
      by_cases hr : range = r
      · simp only [hr, htype, and_self, if_true, items]
      · simp [hr]
  · rename_i hfun hown hstatement
    have hnone : declarationsAt r node = [] := by
      rw [declarationsAt, if_neg fun h => hown h.1, if_neg fun h => hstatement h.1]
    rw [localsOf, hnone]
    rfl

theorem parameters_visit : (s.visit node).parameters = s.parameters ++ parameterIds [node] := by
  by_cases hfun : type? node = some "FunctionDefinition"
  · have hdef : definition? node = FunctionDefinition.ofNode? node := if_pos hfun
    rw [visit, hfun, parameterIds, List.filterMap_cons, hdef]
    cases FunctionDefinition.ofNode? node <;> simp [addFunction]
  · have hnone : definition? node = none := if_neg hfun
    obtain ⟨_, hvisit⟩ := exists_locals_visit (s := s) hfun
    simp [hvisit, parameterIds, hnone]

theorem function?_visit :
    (s.visit node).index.function? id =
      ((definition? node).filter (·.id == id)).or (s.index.function? id) := by
  by_cases hfun : type? node = some "FunctionDefinition"
  · have hdef : definition? node = FunctionDefinition.ofNode? node := if_pos hfun
    rw [visit, hfun, hdef]
    cases FunctionDefinition.ofNode? node with
    | none => rfl
    | some f =>
      simp only [addFunction, function?, SortedMap.find?_insert]
      by_cases hid : id = f.id
      · rw [if_pos hid, Option.filter_some_pos (by simp [hid])]
        rfl
      · rw [if_neg hid, Option.filter_some_neg (by simpa using Ne.symm hid)]
        rfl
  · have hnone : definition? node = none := if_neg hfun
    obtain ⟨_, hvisit⟩ := exists_locals_visit (s := s) hfun
    rw [hnone, hvisit]
    rfl

/-! ### All visits -/

theorem parameters_visits (nodes : List Json) :
    (nodes.foldl visit {}).parameters = parameterIds nodes := by
  induction nodes using List.reverseRecOn with
  | nil => rfl
  | append_singleton nodes node ih =>
    rw [List.foldl_concat, parameters_visit, ih, parameterIds_concat]

theorem localsAt_visits (nodes : List Json) :
    (nodes.foldl visit {}).index.localsAt r = (localsIn r nodes).foldl addNew [] := by
  induction nodes using List.reverseRecOn with
  | nil => rfl
  | append_singleton nodes node ih =>
    rw [List.foldl_concat, localsAt_visit, parameters_visits, ih, localsIn_concat,
      List.foldl_append]

theorem function?_visits (nodes : List Json) :
    (nodes.foldl visit {}).index.function? id =
      ((nodes.filterMap definition?).filter fun f => f.id == id).getLast? := by
  induction nodes using List.reverseRecOn with
  | nil => rfl
  | append_singleton nodes node ih =>
    rw [List.foldl_concat, function?_visit, ih, List.filterMap_append, List.filter_append,
      List.getLast?_append]
    congr 1
    cases hdef : definition? node with
    | none => simp [hdef]
    | some f => by_cases hid : f.id = id <;> simp [hdef, hid, Option.filter]

end Survey

/-! ### The index of a tree -/

/-- A variable without a type text. -/
def untyped (id : Nat) (name : String) (src : SourceRange) : VariableDeclaration :=
  ⟨id, name, src, "", none⟩

/-- The node of a variable. -/
def variableNode (v : VariableDeclaration) : Json :=
  .object [("id", .nat v.id), ("name", .string v.name), ("nodeType", .string "VariableDeclaration"),
    ("src", .string (String.ofList v.src.render))]

/-- Inline assembly around a declaration of `carry`. -/
def assemblyNode : Json :=
  .object [("AST", .array [variableNode (untyped 31 "carry" ⟨0, 140, 9⟩)]), ("id", .nat 30),
    ("nodeType", .string "InlineAssembly")]

/-- A function with a parameter `a`, in which a statement declares `sum` and assembly declares
`carry`. -/
def addition : Json :=
  .object [
    ("body", .object [("statements", .array [.object [
      ("declarations", .array [variableNode (untyped 21 "sum" ⟨0, 110, 11⟩), .null]),
      ("id", .nat 20),
      ("initialValue", .object [("src", .string "124:5:0")]),
      ("nodeType", .string "VariableDeclarationStatement")], assemblyNode])]),
    ("id", .nat 10), ("name", .string "add"), ("nodeType", .string "FunctionDefinition"),
    ("parameters", .object [("parameters", .array [variableNode (untyped 11 "a" ⟨0, 53, 9⟩)])]),
    ("src", .string "40:200:0")]

end Declarations

end TraceTree
