import Mathlib.Data.List.Nodup
import TraceTree.Proofs.CallTree.VariableIndex
import TraceTree.Proofs.Text

/-!
The names of parameters. A parameter without a name is called by its place behind a `$`, and another
one may be declared with just that name. Main statement: the names of all parameters are distinct,
and a scope keeps the variable of each, exactly when there is no such pair
(`FunctionDefinition.registerParameters_clashFrom`).
-/
namespace TraceTree

/-! ### One name -/

namespace VariableDeclaration

/-- What a parameter without a name is called at a place. -/
def placeName (place : Nat) : String := "$" ++ toString place

variable {v w : VariableDeclaration} {j k : Nat}

theorem placeName_inj : placeName j = placeName k ↔ j = k := by
  refine ⟨fun h => ?_, congrArg placeName⟩
  have hchars : Text.digits j = Text.digits k := by
    have h := congrArg String.toList h
    simp only [placeName, String.toList_append, Nat.toString_eq_ofList_toDigits,
      String.toList_ofList] at h
    exact List.append_cancel_left h
  exact Option.some.inj ((Text.digits?_digits j).symm.trans (hchars ▸ Text.digits?_digits k))

theorem placeName_ne_empty (place : Nat) : placeName place ≠ "" := by
  intro h
  have h := congrArg String.toList h
  simp [placeName] at h

theorem parameterName_unnamed (h : v.name = "") (place : Nat) :
    v.parameterName place = placeName place := by
  rw [parameterName, if_pos (String.isEmpty_iff.2 h), placeName]

theorem parameterName_named (h : v.name ≠ "") (place : Nat) : v.parameterName place = v.name := by
  rw [parameterName, if_neg (mt String.isEmpty_iff.1 h)]

/-- Two parameters go by one name exactly if one of them has none and the other is declared with
what the first is called at its place. -/
theorem parameterName_eq_iff (hne : j ≠ k) (hdeclared : v.name ≠ "" → v.name ≠ w.name) :
    v.parameterName j = w.parameterName k ↔
      v.name = "" ∧ w.name = placeName j ∨ w.name = "" ∧ v.name = placeName k := by
  by_cases hv : v.name = "" <;> by_cases hw : w.name = ""
  · rw [parameterName_unnamed hv, parameterName_unnamed hw, placeName_inj, hv, hw]
    simp [hne, (placeName_ne_empty _).symm]
  · rw [parameterName_unnamed hv, parameterName_named hw]
    simp only [hv, hw, true_and, false_and, or_false]
    exact eq_comm
  · rw [parameterName_named hv, parameterName_unnamed hw]
    simp [hv, hw]
  · rw [parameterName_named hv, parameterName_named hw]
    simp [hv, hw, hdeclared hv]

end VariableDeclaration

/-! ### All names -/

namespace FunctionDefinition

open VariableDeclaration (placeName)

variable {f : FunctionDefinition} {r : VariableRecord} {scope : ScopeId}
  {start stackLength step : Nat}

/-- The inputs and after them the outputs. -/
def allParameters (f : FunctionDefinition) : List VariableDeclaration :=
  f.parameters ++ f.returnParameters

/-- No two parameters are declared with the same name. -/
def DeclaredDistinct (f : FunctionDefinition) : Prop :=
  f.allParameters.Pairwise fun v w => v.name ≠ "" → v.name ≠ w.name

instance (f : FunctionDefinition) : Decidable f.DeclaredDistinct :=
  inferInstanceAs (Decidable (f.allParameters.Pairwise _))

/-- Among the parameters from a place on one has no name, and another is declared with what that one
is called. -/
def ClashFrom (f : FunctionDefinition) (start : Nat) : Prop :=
  ∃ j k v w, start ≤ j ∧ start ≤ k ∧ f.allParameters[j]? = some v ∧ v.name = "" ∧
    f.allParameters[k]? = some w ∧ w.name = placeName j

theorem names_eq (f : FunctionDefinition) :
    f.inputNames ++ f.outputNames = f.allParameters.mapIdx fun i v => v.parameterName i := by
  rw [allParameters, List.mapIdx_append]
  simp only [inputNames, outputNames, Nat.add_comm]

theorem getElem?_drop_names (f : FunctionDefinition) (start i : Nat) :
    ((f.inputNames ++ f.outputNames).drop start)[i]? =
      (f.allParameters[start + i]?).map fun v => v.parameterName (start + i) := by
  rw [names_eq, List.getElem?_drop, List.getElem?_mapIdx]

/-- Names from a place on are distinct as long as no two parameters there clash. -/
theorem nodup_drop_names (h : f.DeclaredDistinct) (start : Nat) :
    ((f.inputNames ++ f.outputNames).drop start).Nodup ↔ ¬ f.ClashFrom start := by
  constructor
  · rintro hnodup ⟨j, k, v, w, hj, hk, hv, hunnamed, hw, hnamed⟩
    obtain ⟨j, rfl⟩ := Nat.exists_eq_add_of_le hj
    obtain ⟨k, rfl⟩ := Nat.exists_eq_add_of_le hk
    have hne : w.name ≠ "" := hnamed ▸ VariableDeclaration.placeName_ne_empty _
    have hname : ((f.inputNames ++ f.outputNames).drop start)[j]? =
        some (placeName (start + j)) := by
      rw [getElem?_drop_names, hv, Option.map_some,
        VariableDeclaration.parameterName_unnamed hunnamed]
    have hsame : ((f.inputNames ++ f.outputNames).drop start)[j]? =
        ((f.inputNames ++ f.outputNames).drop start)[k]? := by
      rw [hname, getElem?_drop_names, hw, Option.map_some,
        VariableDeclaration.parameterName_named hne, hnamed]
    -- Of distinct names one name has one place, but one of the two has a name of its own.
    have hlt := (List.getElem?_eq_some_iff.1 hname).1
    rw [(List.getElem?_inj hlt hnodup).1 hsame, hw, Option.some.injEq] at hv
    exact hne (hv ▸ hunnamed)
  · intro hclash
    refine List.nodup_iff_getElem?_ne_getElem?.2 fun i j hij hj hsame => hclash ?_
    rw [List.getElem?_eq_getElem hj] at hsame
    obtain ⟨v, hv, hname⟩ := Option.map_eq_some_iff.1
      ((getElem?_drop_names f start i).symm.trans hsame)
    obtain ⟨w, hw, hname'⟩ := Option.map_eq_some_iff.1
      ((getElem?_drop_names f start j).symm.trans (List.getElem?_eq_getElem hj))
    have hdeclared : v.name ≠ "" → v.name ≠ w.name := by
      obtain ⟨hi, rfl⟩ := List.getElem?_eq_some_iff.1 hv
      obtain ⟨hj, rfl⟩ := List.getElem?_eq_some_iff.1 hw
      exact List.pairwise_iff_getElem.1 h _ _ hi hj (by omega)
    rcases (VariableDeclaration.parameterName_eq_iff (by omega) hdeclared).1
      (hname.trans hname'.symm) with ⟨hunnamed, hnamed⟩ | ⟨hunnamed, hnamed⟩
    · exact ⟨_, _, v, w, Nat.le_add_right .., Nat.le_add_right .., hv, hunnamed, hw, hnamed⟩
    · exact ⟨_, _, w, v, Nat.le_add_right .., Nat.le_add_right .., hw, hunnamed, hv, hnamed⟩

/-! ### Records -/

/-- Where on the stack the parameter at a place lies. -/
def depthAt (f : FunctionDefinition) (stackLength place : Nat) : Nat :=
  if place < f.parameters.length then stackLength - f.parameters.length + place
  else stackLength + (place - f.parameters.length) + 1

theorem depthAt_output (f : FunctionDefinition) (stackLength i : Nat) :
    f.depthAt stackLength (i + f.parameters.length) = stackLength + i + 1 := by
  rw [depthAt, if_neg (by omega), Nat.add_sub_cancel]

/-- The place of the first parameter that has a record. -/
def firstRecorded (f : FunctionDefinition) (stackLength : Nat) : Nat :=
  if stackLength < f.parameters.length then f.parameters.length else 0

/-- Parameters with records lie on the stack in their order. -/
theorem depthAt_lt {i j : Nat} (f : FunctionDefinition) (hi : f.firstRecorded stackLength ≤ i)
    (h : i < j) : f.depthAt stackLength i < f.depthAt stackLength j := by
  rw [firstRecorded] at hi
  rw [depthAt, depthAt]
  split_ifs at * <;> omega

/-- The parameters have their records in order, the inputs only on a stack that is deep enough. -/
theorem records_registerParameters (f : FunctionDefinition) (stackLength step : Nat)
    (scope : ScopeId) : (f.registerParameters stackLength step scope).records =
      (f.allParameters.mapIdx fun i v => v.parameterRecord (v.parameterName i)
        (f.depthAt stackLength i) step scope).drop (f.firstRecorded stackLength) := by
  have houtputs : f.outputRecords stackLength step scope = f.returnParameters.mapIdx fun i v =>
      v.parameterRecord (v.parameterName (i + f.parameters.length))
        (f.depthAt stackLength (i + f.parameters.length)) step scope :=
    List.ext_getElem (by simp [outputRecords]) fun i _ _ => by
      simp [outputRecords, depthAt_output, Nat.add_comm]
  rw [registerParameters, allParameters, List.mapIdx_append, ← houtputs, firstRecorded]
  split
  · rename_i hlt
    rw [inputRecords_of_lt step scope hlt, List.drop_left' List.length_mapIdx, List.nil_append]
  · rename_i hge
    have hinputs : f.inputRecords stackLength step scope = f.parameters.mapIdx fun i v =>
        v.parameterRecord (v.parameterName i) (f.depthAt stackLength i) step scope :=
      List.ext_getElem (by simp [inputRecords, hge]) fun i _ hi => by
        rw [List.length_mapIdx] at hi
        simp [inputRecords, depthAt, hge, hi]
    rw [hinputs, List.drop_zero]

theorem names_registerParameters (f : FunctionDefinition) (stackLength step : Nat)
    (scope : ScopeId) : (f.registerParameters stackLength step scope).records.map (·.name) =
      (f.inputNames ++ f.outputNames).drop (f.firstRecorded stackLength) := by
  rw [records_registerParameters, names_eq, List.map_drop]
  refine congrArg (List.drop _) (List.ext_getElem (by simp) fun i _ _ => ?_)
  simp [VariableDeclaration.parameterRecord]

theorem astIds_registerParameters (f : FunctionDefinition) (stackLength step : Nat)
    (scope : ScopeId) : (f.registerParameters stackLength step scope).records.map (·.astId) =
      ((f.allParameters.drop (f.firstRecorded stackLength)).map (·.id)).map some := by
  rw [records_registerParameters, List.map_drop, List.map_drop, List.map_drop]
  refine congrArg (List.drop _) (List.ext_getElem (by simp) fun i _ _ => ?_)
  simp [VariableDeclaration.parameterRecord]

/-- The parameters of a function are declared in its scope when that opens. -/
theorem of_mem_registerParameters (h : r ∈ (f.registerParameters stackLength step scope).records) :
    r.scope = scope ∧ r.declaredAt = step ∧ r.isParameter := by
  rw [records_registerParameters] at h
  obtain ⟨i, hi, rfl⟩ := List.mem_mapIdx.1 (List.mem_of_mem_drop h)
  exact ⟨rfl, rfl, rfl⟩

/-- No two parameters lie at one place on the stack. -/
theorem nodup_registerParameters (f : FunctionDefinition) (stackLength step : Nat)
    (scope : ScopeId) : (f.registerParameters stackLength step scope).records.Nodup := by
  rw [records_registerParameters]
  refine List.pairwise_iff_getElem.2 fun i j _ _ hij heq => ?_
  have hdepth := congrArg VariableRecord.stackDepth heq
  simp only [List.getElem_drop, List.getElem_mapIdx, VariableDeclaration.parameterRecord]
    at hdepth
  exact Nat.ne_of_lt (f.depthAt_lt (Nat.le_add_right _ i) (by omega)) hdepth

/-- Parameters that are declared with different names, if with any, have different names as long as
none without a name goes by one that another is declared with. A scope that has no variables gets a
variable for each name, the last that is registered under it. So it keeps the variables of all
parameters that have records, each found under its name, exactly if those parameters do not clash;
and each is found by its declaration exactly if besides these have ids of their own. -/
theorem registerParameters_clashFrom (f : FunctionDefinition) (stackLength step : Nat)
    (scope : ScopeId) (h : f.DeclaredDistinct) :
    let r := f.registerParameters stackLength step scope
    let start := f.firstRecorded stackLength
    ((r.inputs ++ r.outputs).Nodup ↔ ¬ f.ClashFrom 0) ∧
    ∀ t s, CallTree.scope? t scope = some s → s.locals = ∅ →
      let t' := t.addVariables r.records
      (∀ name, t'.local? scope name = CallTree.lastNamed? r.records name) ∧
      ((∀ v ∈ r.records, t'.local? scope v.name = some v) ↔ ¬ f.ClashFrom start) ∧
      ((∀ v ∈ r.records, v.astId.bind t'.variableById? = some v) ↔
        ((f.allParameters.drop start).map (·.id)).Nodup ∧ ¬ f.ClashFrom start) := by
  intro r start
  refine ⟨nodup_drop_names h 0, fun t s hs hempty => ?_⟩
  have hsome : (t.scope? scope).isSome := Option.isSome_of_eq_some hs
  have hscope : ∀ v ∈ r.records, v.scope = scope := fun v hv => (of_mem_registerParameters hv).1
  have hdeclared : ∀ v ∈ r.records, v.astId.isSome := by
    intro v hv
    have hid := List.mem_map_of_mem (f := VariableRecord.astId) hv
    rw [astIds_registerParameters] at hid
    obtain ⟨i, -, hi⟩ := List.mem_map.1 hid
    exact hi ▸ rfl
  have hnodup := f.nodup_registerParameters stackLength step scope
  have hnames : (r.records.map (·.name)).Nodup ↔ ¬ f.ClashFrom start := by
    rw [names_registerParameters]
    exact nodup_drop_names h start
  have hids : (r.records.map (·.astId)).Nodup ↔
      ((f.allParameters.drop start).map (·.id)).Nodup := by
    rw [astIds_registerParameters]
    exact List.nodup_map_iff fun _ _ => Option.some.inj
  refine ⟨fun name => ?_, ?_, ?_⟩
  · rw [CallTree.local?_addVariables hsome hscope, CallTree.local?_of_scope? hs, hempty]
    exact Option.or_none
  · rw [CallTree.forall_local?_addVariables_iff hsome hscope hnodup, hnames]
  · rw [CallTree.forall_variableById?_addVariables_iff hsome hscope hnodup hdeclared, hnames, hids]

/-- A function of two inputs with ids and names of their own. -/
def ofInputs (first second : String) : FunctionDefinition :=
  let input := fun id name =>
    { id, name, src := .nonExistent, typeString := "bool", storageLocation := none }
  { id := 1, name := "f", kind := .function, src := .nonExistent,
    parameters := [input 2 first, input 3 second], returnParameters := [] }

/-- The name `$1` is taken from the second input, which has no name, when the first is declared with
it; then the first is lost. Behind an input without a name it is free. -/
theorem registerParameters_clashFrom_taken :
    let lost := ((ofInputs "$1" "").registerParameters 2 0 .root).records
    let kept := ((ofInputs "" "$1").registerParameters 2 0 .root).records
    let opened : CallTree := ({ stepCount := 1 } : CallTree).openScope
      { id := .root, kind := .root, code := default, firstStep := 0 }
    (opened.addVariables lost).local? .root "$1" = lost[1]? ∧
    ¬ (∀ v ∈ lost, v.astId.bind (opened.addVariables lost).variableById? = some v) ∧
    ∀ v ∈ kept, v.astId.bind (opened.addVariables kept).variableById? = some v := by
  intro lost kept opened
  obtain ⟨-, hlost⟩ := registerParameters_clashFrom (ofInputs "$1" "") 2 0 .root
    (by decide)
  obtain ⟨hnames, hkept⟩ := registerParameters_clashFrom (ofInputs "" "$1") 2 0 .root
    (by decide)
  obtain ⟨hlast, -, hlost⟩ := hlost opened _ rfl rfl
  obtain ⟨-, -, hkept⟩ := hkept opened _ rfl rfl
  refine ⟨(hlast "$1").trans (by decide +kernel), fun hall => (hlost.1 hall).2 ?_,
    hkept.2 ⟨by decide, hnames.1 (by decide)⟩⟩
  exact ⟨1, 0, _, _, Nat.zero_le 1, Nat.le_refl 0, rfl, rfl, rfl, by decide⟩

end FunctionDefinition

end TraceTree
