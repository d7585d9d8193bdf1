import TraceTree.CallTree.Codec
import TraceTree.Proofs.ScopeId
import TraceTree.Proofs.VariableType

/-!
Call trees as data. A record `Fits` when each number in it is one of its field's width: 32 bits for
files and the ordinals of scope ids, 64 bits for all others. Main statement: a call tree whose
numbers fit reads back from what is written of it, with the members of its objects in any order
(`CallTree.ofJson?_of_reordered`). Written ids do not stand in the order of the ids: `1.10` comes
before `1.2`.
-/
namespace TraceTree

open Json (Reads)
open Text (bound32 bound64)

/-! ### Places in code -/

/-- An id is written as a text and reads back when its ordinals are of 32 bits. -/
theorem ScopeId.reads_toJson {id : ScopeId} (h : id.Fits) : Reads ScopeId.ofJson? id.toJson id := by
  intro j hj
  rw [hj.of_string]
  exact ofString?_toString h

@[simp] theorem ScopeId.namesDistinct_toJson (id : ScopeId) : id.toJson.namesDistinct := rfl

/-- An address always reads back, since its type knows that it has twenty bytes. -/
theorem Address.reads_toJson (a : Address) : Reads Address.ofJson? a.toJson a := by
  intro j hj
  rw [hj.of_string]
  show (Text.bytesOfHex? (String.ofList (Text.hex a.bytes)).toList).bind ofBytes? = some a
  rw [String.toList_ofList, Text.bytesOfHex?_hex, Option.bind_some, ofBytes?, dif_pos a.length_eq]

@[simp] theorem Address.namesDistinct_toJson (a : Address) : a.toJson.namesDistinct := rfl

theorem CodeAddress.reads_toJson (c : CodeAddress) : Reads CodeAddress.ofJson? c.toJson c :=
  .record rfl (by decide) fun fs hfs => by
    rw [hfs.required rfl c.address.reads_toJson, hfs.required rfl (Json.reads_bool c.isCreation)]
    rfl

@[simp] theorem CodeAddress.namesDistinct_toJson (c : CodeAddress) : c.toJson.namesDistinct := by
  simp [toJson]

namespace SourceRange

/-- File numbers are of 32 bits and offsets of 64. -/
def Fits (r : SourceRange) : Prop := r.file < bound32 ∧ r.start < bound64 ∧ r.length < bound64

instance (r : SourceRange) : Decidable r.Fits := inferInstanceAs (Decidable (_ ∧ _))

theorem reads_toJson {r : SourceRange} (h : r.Fits) : Reads SourceRange.ofJson? r.toJson r :=
  .record rfl (by decide) fun fs hfs => by
    obtain ⟨hfile, hstart, hlength⟩ := h
    rw [hfs.required rfl (Json.reads_nat32 hfile), hfs.required rfl (Json.reads_nat64 hstart),
      hfs.required rfl (Json.reads_nat64 hlength)]
    rfl

@[simp] theorem namesDistinct_toJson (r : SourceRange) : r.toJson.namesDistinct := by
  simp [toJson]

end SourceRange

theorem JumpKind.reads_toJson (k : JumpKind) : Reads JumpKind.ofJson? k.toJson k :=
  Json.reads_tag (by cases k <;> rfl)

@[simp] theorem JumpKind.namesDistinct_toJson (k : JumpKind) : k.toJson.namesDistinct := rfl

namespace SourceLocation

/-- As for ranges, if there is a file. -/
def Fits (l : SourceLocation) : Prop :=
  (∀ n ∈ l.file, n < bound32) ∧ l.start < bound64 ∧ l.length < bound64

instance (l : SourceLocation) : Decidable l.Fits := inferInstanceAs (Decidable (_ ∧ _))

theorem reads_toJson {l : SourceLocation} (h : l.Fits) :
    Reads SourceLocation.ofJson? l.toJson l :=
  .record rfl (by decide) fun fs hfs => by
    obtain ⟨hfile, hstart, hlength⟩ := h
    rw [hfs.optional rfl (.option rfl fun n hn => Json.reads_nat32 (hfile n hn)),
      hfs.required rfl (Json.reads_nat64 hstart), hfs.required rfl (Json.reads_nat64 hlength),
      hfs.required rfl l.jump.reads_toJson]
    rfl

@[simp] theorem namesDistinct_toJson (l : SourceLocation) : l.toJson.namesDistinct := by
  simp [toJson, Json.namesDistinct_option Json.namesDistinct_nat]

end SourceLocation

namespace LineColumn

/-- The line and the column are numbers of 64 bits. -/
def Fits (p : LineColumn) : Prop := p.line < bound64 ∧ p.column < bound64

instance (p : LineColumn) : Decidable p.Fits := inferInstanceAs (Decidable (_ ∧ _))

theorem reads_toJson {p : LineColumn} (h : p.Fits) : Reads LineColumn.ofJson? p.toJson p :=
  .record rfl (by decide) fun fs hfs => by
    rw [hfs.required rfl (Json.reads_nat64 h.1), hfs.required rfl (Json.reads_nat64 h.2)]
    rfl

@[simp] theorem namesDistinct_toJson (p : LineColumn) : p.toJson.namesDistinct := by
  simp [toJson]

end LineColumn

namespace LineColumnRange

/-- Both ends are of their width. -/
def Fits (r : LineColumnRange) : Prop := r.start.Fits ∧ r.stop.Fits

instance (r : LineColumnRange) : Decidable r.Fits := inferInstanceAs (Decidable (_ ∧ _))

theorem reads_toJson {r : LineColumnRange} (h : r.Fits) :
    Reads LineColumnRange.ofJson? r.toJson r :=
  .record rfl (by decide) fun fs hfs => by
    rw [hfs.required rfl (LineColumn.reads_toJson h.1),
      hfs.required rfl (LineColumn.reads_toJson h.2)]
    rfl

@[simp] theorem namesDistinct_toJson (r : LineColumnRange) : r.toJson.namesDistinct := by
  simp [toJson]

end LineColumnRange

/-! ### Parts of trees -/

namespace VariableRecord

/-- Every number of the record and of its type is of its width. -/
def Fits (r : VariableRecord) : Prop :=
  (∀ n ∈ r.astId, n < bound64) ∧ r.type.fits ∧ r.stackDepth < bound64 ∧ r.sourceRange.Fits ∧
    r.declaredAt < bound64 ∧ r.scope.Fits

instance (r : VariableRecord) : Decidable r.Fits := inferInstanceAs (Decidable (_ ∧ _))

theorem reads_toJson {r : VariableRecord} (h : r.Fits) : Reads VariableRecord.ofJson? r.toJson r :=
  .record rfl (by decide) fun fs hfs => by
    obtain ⟨hast, htype, hdepth, hrange, hdeclared, hscope⟩ := h
    rw [hfs.optional rfl (.option rfl fun n hn => Json.reads_nat64 (hast n hn)),
      hfs.required rfl (Json.reads_string r.name),
      hfs.required rfl (VariableType.reads_toJson r.type htype),
      hfs.required rfl (Json.reads_nat64 hdepth),
      hfs.required rfl (SourceRange.reads_toJson hrange),
      hfs.required rfl (Json.reads_bool r.isParameter),
      hfs.required rfl (Json.reads_nat64 hdeclared),
      hfs.required rfl (ScopeId.reads_toJson hscope)]
    rfl

@[simp] theorem namesDistinct_toJson (r : VariableRecord) : r.toJson.namesDistinct := by
  simp [toJson, Json.namesDistinct_option Json.namesDistinct_nat]

end VariableRecord

theorem ScopeKind.reads_toJson (k : ScopeKind) : Reads ScopeKind.ofJson? k.toJson k :=
  Json.reads_tag (by cases k <;> rfl)

@[simp] theorem ScopeKind.namesDistinct_toJson (k : ScopeKind) : k.toJson.namesDistinct := rfl

namespace Scope

/-- Steps and gas are numbers of 64 bits, and the variables fit. -/
def Fits (s : Scope) : Prop :=
  s.id.Fits ∧ s.firstStep < bound64 ∧ (∀ n ∈ s.lastStep, n < bound64) ∧ s.gasCost < bound64 ∧
    ∀ e ∈ s.locals.entries, e.2.Fits

instance (s : Scope) : Decidable s.Fits := inferInstanceAs (Decidable (_ ∧ _))

theorem reads_toJson {s : Scope} (h : s.Fits) : Reads Scope.ofJson? s.toJson s :=
  .record rfl (by decide) fun fs hfs => by
    obtain ⟨hid, hfirst, hlast, hgas, hlocals⟩ := h
    rw [hfs.required rfl (ScopeId.reads_toJson hid), hfs.required rfl s.kind.reads_toJson,
      hfs.required rfl s.code.reads_toJson, hfs.required rfl (Json.reads_nat64 hfirst),
      hfs.optional rfl (.option rfl fun n hn => Json.reads_nat64 (hlast n hn)),
      hfs.required rfl (Json.reads_nat64 hgas),
      hfs.required rfl (.ofMap (fun _ _ => rfl) fun e he =>
        VariableRecord.reads_toJson (hlocals e he))]
    rfl

@[simp] theorem namesDistinct_toJson (s : Scope) : s.toJson.namesDistinct := by
  have hlocals : (Json.ofMap (fun name => name) VariableRecord.toJson s.locals).namesDistinct :=
    Json.namesDistinct_ofMap some (fun _ _ => rfl) fun e _ =>
      e.2.namesDistinct_toJson
  simp [toJson, hlocals, Json.namesDistinct_option Json.namesDistinct_nat]

end Scope

namespace FunctionActivation

/-- The function's id and the step are numbers of 64 bits. -/
def Fits (a : FunctionActivation) : Prop :=
  a.functionId < bound64 ∧ a.scope.Fits ∧ a.entryStep < bound64

instance (a : FunctionActivation) : Decidable a.Fits := inferInstanceAs (Decidable (_ ∧ _))

theorem reads_toJson {a : FunctionActivation} (h : a.Fits) :
    Reads FunctionActivation.ofJson? a.toJson a :=
  .record rfl (by decide) fun fs hfs => by
    obtain ⟨hfunction, hscope, hentry⟩ := h
    rw [hfs.required rfl (Json.reads_nat64 hfunction), hfs.required rfl (Json.reads_string a.name),
      hfs.required rfl (.list fun x _ => Json.reads_string x),
      hfs.required rfl (.list fun x _ => Json.reads_string x),
      hfs.required rfl (ScopeId.reads_toJson hscope), hfs.required rfl (Json.reads_nat64 hentry),
      hfs.required rfl (Json.reads_bool a.isConstructor)]
    rfl

@[simp] theorem namesDistinct_toJson (a : FunctionActivation) : a.toJson.namesDistinct := by
  simp [toJson, Json.namesDistinct_list Json.namesDistinct_string]

end FunctionActivation

namespace LineGas

/-- The gas and the steps are numbers of 64 bits. -/
def Fits (g : LineGas) : Prop := g.gasCost < bound64 ∧ ∀ step ∈ g.steps.toList, step < bound64

instance (g : LineGas) : Decidable g.Fits := inferInstanceAs (Decidable (_ ∧ _))

theorem reads_toJson {g : LineGas} (h : g.Fits) : Reads LineGas.ofJson? g.toJson g :=
  .record rfl (by decide) fun fs hfs => by
    rw [hfs.required rfl (Json.reads_nat64 h.1),
      hfs.required rfl (.list fun step hstep => Json.reads_nat64 (h.2 step hstep))]
    rfl

@[simp] theorem namesDistinct_toJson (g : LineGas) : g.toJson.namesDistinct := by
  simp [toJson, Json.namesDistinct_list Json.namesDistinct_nat]

end LineGas

namespace StepLocation

/-- Each of the three places fits that is there. -/
def Fits (l : StepLocation) : Prop := l.raw.Fits ∧ l.valid.Fits ∧ ∀ r ∈ l.lineColumn, r.Fits

instance (l : StepLocation) : Decidable l.Fits := inferInstanceAs (Decidable (_ ∧ _))

theorem reads_toJson {l : StepLocation} (h : l.Fits) : Reads StepLocation.ofJson? l.toJson l :=
  .record rfl (by decide) fun fs hfs => by
    obtain ⟨hraw, hvalid, hline⟩ := h
    rw [hfs.required rfl l.code.reads_toJson, hfs.required rfl (Json.reads_byte l.opcode),
      hfs.required rfl (SourceLocation.reads_toJson hraw),
      hfs.required rfl (SourceLocation.reads_toJson hvalid),
      hfs.optional rfl (.option rfl fun r hr => LineColumnRange.reads_toJson (hline r hr))]
    rfl

@[simp] theorem namesDistinct_toJson (l : StepLocation) : l.toJson.namesDistinct := by
  simp [toJson, Json.namesDistinct_option LineColumnRange.namesDistinct_toJson]

end StepLocation

/-! ### Trees -/

namespace CallTree

/-- Every number in the tree is one of its field's width. -/
def Fits (t : CallTree) : Prop :=
  (∀ e ∈ t.scopes.entries, e.1.Fits ∧ e.2.Fits) ∧
    (∀ e ∈ t.scopeStarts.entries, e.1 < bound64 ∧ e.2.Fits) ∧
    (∀ e ∈ t.activations.entries, e.1.Fits ∧ e.2.Fits) ∧
    (∀ e ∈ t.variableIndex.entries, e.1 < bound64 ∧ e.2.1.Fits) ∧
    (∀ e ∈ t.gasPerLine.entries, e.1 < bound32 ∧ ∀ l ∈ e.2.entries, l.1 < bound64 ∧ l.2.Fits) ∧
    (∀ step ∈ t.reducedTrace.toList, step < bound64) ∧
    (∀ l ∈ t.locations.toList, l.Fits) ∧ t.stepCount < bound64

instance (t : CallTree) : Decidable t.Fits := inferInstanceAs (Decidable (_ ∧ _))

/-- Numbers that are names of members read back, too. -/
theorem readNatKey_natKey {bound n : Nat} (h : n < bound) :
    Json.readNatKey bound (natKey n) = some n := Json.readNatKey_digits h

theorem reads_lines {lines : SortedMap Nat LineGas}
    (h : ∀ l ∈ lines.entries, l.1 < bound64 ∧ l.2.Fits) :
    Reads (Json.readMap (Json.readNatKey bound64) LineGas.ofJson?)
      (Json.ofMap natKey LineGas.toJson lines) lines :=
  .ofMap (fun l hl => readNatKey_natKey (h l hl).1) fun l hl => LineGas.reads_toJson (h l hl).2

/-- A tree reads back from its members in any order, each by the lemma of its record. -/
theorem reads_toJson {t : CallTree} (h : t.Fits) : Reads CallTree.ofJson? t.toJson t :=
  .record rfl (by decide) fun fs hfs => by
    obtain ⟨hscopes, hstarts, hactivations, hindex, hgas, hreduced, hlocations, hcount⟩ := h
    rw [hfs.required rfl (.ofMap (fun e he => ScopeId.ofString?_toString (hscopes e he).1)
        fun e he => Scope.reads_toJson (hscopes e he).2),
      hfs.required rfl (.ofMap (fun e he => readNatKey_natKey (hstarts e he).1)
        fun e he => ScopeId.reads_toJson (hstarts e he).2),
      hfs.required rfl (.ofMap (fun e he => ScopeId.ofString?_toString (hactivations e he).1)
        fun e he => FunctionActivation.reads_toJson (hactivations e he).2),
      hfs.required rfl (.ofMap (fun e he => readNatKey_natKey (hindex e he).1)
        fun e he => .pair (ScopeId.reads_toJson (hindex e he).2) (Json.reads_string e.2.2)),
      hfs.required rfl (.ofMap (fun e he => readNatKey_natKey (hgas e he).1)
        fun e he => reads_lines (hgas e he).2),
      hfs.required rfl (.list fun step hstep => Json.reads_nat64 (hreduced step hstep)),
      hfs.required rfl (.list fun l hl => StepLocation.reads_toJson (hlocations l hl)),
      hfs.required rfl (Json.reads_nat64 hcount)]
    rfl

/-- No two members of an object in a written tree share a name, so their order is open. -/
theorem namesDistinct_toJson {t : CallTree} (h : t.Fits) : t.toJson.namesDistinct := by
  obtain ⟨hscopes, hstarts, hactivations, hindex, hgas, -⟩ := h
  rw [toJson, Json.namesDistinct_object]
  refine ⟨by simp, ?_⟩
  simp only [List.forall_mem_cons]
  refine ⟨?scopes, ?starts, ?activations, ?index, ?gas, ?reduced, ?locations, ?count, nofun⟩
  case scopes =>
    exact Json.namesDistinct_ofMap _ (fun e he => ScopeId.ofString?_toString (hscopes e he).1)
      fun e _ => e.2.namesDistinct_toJson
  case starts =>
    exact Json.namesDistinct_ofMap _ (fun e he => readNatKey_natKey (hstarts e he).1)
      fun e _ => e.2.namesDistinct_toJson
  case activations =>
    exact Json.namesDistinct_ofMap _ (fun e he => ScopeId.ofString?_toString (hactivations e he).1)
      fun e _ => e.2.namesDistinct_toJson
  case index =>
    exact Json.namesDistinct_ofMap _ (fun e he => readNatKey_natKey (hindex e he).1)
      fun e _ => by simp
  case gas =>
    exact Json.namesDistinct_ofMap _ (fun e he => readNatKey_natKey (hgas e he).1) fun e he =>
      Json.namesDistinct_ofMap _ (fun l hl => readNatKey_natKey ((hgas e he).2 l hl).1)
        fun l _ => l.2.namesDistinct_toJson
  case reduced => exact Json.namesDistinct_list Json.namesDistinct_nat
  case locations => exact Json.namesDistinct_list StepLocation.namesDistinct_toJson
  case count => exact Json.namesDistinct_nat t.stepCount

/-- A call tree whose numbers fit reads back from what is written of it, in whatever order the
members of objects come. One such order is that of their names. -/
theorem ofJson?_of_reordered (t : CallTree) (h : t.Fits) :
    t.toJson.Reordered t.toJson.canonical ∧
      ∀ j, t.toJson.Reordered j → CallTree.ofJson? j = some t :=
  ⟨Json.reordered_canonical (namesDistinct_toJson h), reads_toJson h⟩

/-- A tree with the scopes `1`, `1.2` and `1.10`, and a variable of a nested type. -/
def spread : CallTree :=
  let scope (id : ScopeId) (firstStep : Nat) : Scope :=
    { id, kind := .internalFunction, code := default, firstStep, lastStep := some 5 }
  let base : VariableType := .mk "uint256" .memory (.elementary "uint256")
  let record : VariableRecord :=
    { astId := some 7, name := "xs", type := .mk "uint256[3] memory" .memory (.array base (some 3))
      stackDepth := 2, sourceRange := ⟨1, 10, 20⟩, isParameter := false, declaredAt := 4
      scope := ScopeId.root.child 10 }
  ((((({ stepCount := 6 } : CallTree).openScope (scope .root 0)).openScope
    (scope (ScopeId.root.child 2) 1)).openScope (scope (ScopeId.root.child 10) 3)).addVariable
      record).addLineGas 1 12 4 100

/-- In the order of their names the scopes do not come in that of their ids. -/
theorem ofJson?_of_reordered_spread : spread.Fits ∧ ∃ root second tenth others,
    spread.toJson =
      .object (("scopes", .object [("1", root), ("1.2", second), ("1.10", tenth)]) :: others) ∧
    CallTree.ofJson? (.object
      (("scopes", .object [("1", root), ("1.10", tenth), ("1.2", second)]) :: others)) =
        some spread ∧
    CallTree.ofJson? spread.toJson.canonical = some spread := by
  have hfits : spread.Fits := by decide +kernel
  obtain ⟨hcanonical, hread⟩ := ofJson?_of_reordered spread hfits
  refine ⟨hfits, _, _, _, _, rfl, hread _ ?_, hread _ hcanonical⟩
  exact Json.reordered_cons _ (Json.reordered_of_perm (.cons _ (.swap _ _ _)))

end CallTree

end TraceTree
