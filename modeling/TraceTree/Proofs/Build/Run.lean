import TraceTree.Proofs.Build.Step
import TraceTree.Proofs.ScopeId

/-!
Well-bracketed runs. A call frame runs plain steps, functions with their bodies and message calls
with the frames of their callees; a function in which its frame or the trace ends has no return
step. Main statements: the brackets of a run stand in the order of their ids (`pairwise_brackets`),
all below later children of the scope that the run is in (`mem_brackets`).
-/
namespace TraceTree.Build

/-! ### Runs -/

/-- What a call frame does from one of its steps on, or what a function's body does. -/
inductive Run where
  | done
  | plain (rest : Run)
  /-- A step that enters the function, its body, and the step that returns from it. -/
  | function (id : Nat) (body rest : Run)
  /-- A function in which the frame or the trace ends. -/
  | unfinished (id : Nat) (body : Run)
  /-- A step that calls, and the frame of the callee. -/
  | call (callee rest : Run)
  deriving DecidableEq

/-- A scope as a run shows it, with the function that it activates. -/
structure Bracket where
  id : ScopeId
  kind : ScopeKind
  function : Option Nat
  firstStep : Nat
  lastStep : Option Nat
  deriving DecidableEq

namespace Run

/-- How many steps a run takes. -/
def length : Run → Nat
  | done => 0
  | plain rest => rest.length + 1
  | function _ body rest => body.length + rest.length + 2
  | unfinished _ body => body.length + 1
  | call callee rest => callee.length + rest.length + 1

/-- How many scopes are open inside of one another at most. -/
def nesting : Run → Nat
  | done => 0
  | plain rest => rest.nesting
  | function _ body rest => max (body.nesting + 1) rest.nesting
  | unfinished _ body => body.nesting + 1
  | call callee rest => max (callee.nesting + 1) rest.nesting

/-- How many scopes open right in the scope of the run. -/
def children : Run → Nat
  | done => 0
  | plain rest => rest.children
  | function _ _ rest => rest.children + 1
  | unfinished _ _ => 1
  | call _ rest => rest.children + 1

/-- Whether the run can go on in its frame, because no function is left open at its end. -/
def returns : Run → Bool
  | done => true
  | plain rest => rest.returns
  | function _ _ rest => rest.returns
  | unfinished _ _ => false
  | call _ rest => rest.returns

/-- The scopes of a run that starts at the step `i` in the scope `parent`, after `n` children of
that; each stands right before those inside it. -/
def brackets (parent : ScopeId) (n i : Nat) : Run → List Bracket
  | done => []
  | plain rest => rest.brackets parent n (i + 1)
  | function f body rest =>
    { id := parent.child (n + 1), kind := .internalFunction, function := some f, firstStep := i,
      lastStep := some (i + 1 + body.length) } ::
      (body.brackets (parent.child (n + 1)) 0 (i + 1) ++
        rest.brackets parent (n + 1) (i + 1 + body.length + 1))
  | unfinished f body =>
    { id := parent.child (n + 1), kind := .internalFunction, function := some f, firstStep := i,
      lastStep := some (i + body.length) } ::
      body.brackets (parent.child (n + 1)) 0 (i + 1)
  | call callee rest =>
    { id := parent.child (n + 1), kind := .externalCall, function := none, firstStep := i + 1,
      lastStep := some (i + callee.length) } ::
      (callee.brackets (parent.child (n + 1)) 0 (i + 1) ++
        rest.brackets parent (n + 1) (i + 1 + callee.length))

end Run

/-! ### Sites -/

/-- The step lies in no text of a constructor that could open. -/
def Site.Quiet (site : Site) : Prop :=
  ¬ (site.code.isCreation ∧ site.isValid ∧ site.constructor?.isSome)

/-- The step is not an entry: its place in the code belongs to no function, or to `within` but not
as its entry point. -/
def Site.StaysIn (site : Site) (within : Option Nat) : Prop :=
  ∀ row, site.bytecode.userFunctionAt? site.current.pc = some row →
    row.entryPoint ≠ site.current.pc ∧ ∃ f, within = some f ∧ row.id = some f

/-- The step is at the entry point of the function. -/
def Site.Enters (site : Site) (f : Nat) : Prop :=
  ∃ row, site.bytecode.userFunctionAt? site.current.pc = some row ∧ row.id = some f ∧
    row.entryPoint = site.current.pc

theorem Sources.IsSite.spec {src : Sources} {i : Nat} {site : Site} (h : src.IsSite i site) :
    site.step = i ∧ src.context.trace.steps[i]? = some site.current ∧
      site.next = src.context.trace.steps[i + 1]? ∧ src.codeAt i = .ok site.code ∧
      src.artifactAt i site.code.address = .ok site.artifact := by
  obtain ⟨current, hcurrent, hsite⟩ := h
  obtain ⟨hstep, rfl, hnext, hcode, hartifact, -⟩ := siteAt_eq_ok hsite
  exact ⟨hstep, hcurrent, hnext, hcode, hartifact⟩

theorem Sources.IsSite.not_goesDeeper {src : Sources} {i depth : Nat} {site : Site}
    (h : src.IsSite i site) (hdepth : site.current.depth = depth)
    (hle : ∀ next, src.context.trace.steps[i + 1]? = some next → next.depth ≤ depth) :
    ¬ site.goesDeeper := by
  rw [Site.goesDeeper, h.spec.2.2.1]
  cases hnext : src.context.trace.steps[i + 1]? with
  | none => simp
  | some next =>
    have := hle next hnext
    simp only [Option.any_some, decide_eq_true_eq]
    omega

/-! ### Traces that are runs -/

/-- A step of the call depth that neither enters nor returns. -/
abbrev PlainAt (src : Sources) (depth : Nat) (within : Option Nat) (i : Nat) : Prop :=
  ∃ site, src.IsSite i site ∧ site.current.depth = depth ∧ site.raw.jump ≠ .out ∧
    site.StaysIn within

/-- A message call. -/
abbrev CallAt (src : Sources) (depth : Nat) (within : Option Nat) (i : Nat) : Prop :=
  ∃ site, src.IsSite i site ∧ site.current.depth = depth ∧ site.raw.jump ≠ .out ∧
    site.StaysIn within ∧ site.current.opcode.isCall

/-- The entry of a function that is no constructor. -/
abbrev EntryAt (src : Sources) (depth f i : Nat) : Prop :=
  ∃ site, src.IsSite i site ∧ site.current.depth = depth ∧ site.raw.jump ≠ .out ∧
    site.Enters f ∧ ¬ site.current.opcode.opensFrame ∧
    ∃ g, site.artifact.functionDefinition? f = some g ∧ ¬ g.isConstructor

/-- A return from a function. -/
abbrev ReturnAt (src : Sources) (depth i : Nat) : Prop :=
  ∃ site, src.IsSite i site ∧ site.current.depth = depth ∧ site.raw.jump = .out

/-- The steps from `i` on are the run, in a call frame of that depth and right in the body of the
function `within`, or in the frame itself when there is none. A function that returns leaves no
function open in its body, and after a callee comes a step of its caller, if any step comes. -/
def Run.At (src : Sources) : Run → Nat → Option Nat → Nat → Prop
  | .done, _, _, _ => True
  | .plain rest, depth, within, i => PlainAt src depth within i ∧ rest.At src depth within (i + 1)
  | .function f body rest, depth, within, i =>
    EntryAt src depth f i ∧ body.At src depth (some f) (i + 1) ∧ body.returns ∧
      ReturnAt src depth (i + 1 + body.length) ∧
      rest.At src depth within (i + 1 + body.length + 1)
  | .unfinished f body, depth, _, i => EntryAt src depth f i ∧ body.At src depth (some f) (i + 1)
  | .call callee rest, depth, within, i =>
    CallAt src depth within i ∧ callee ≠ .done ∧ callee.At src (depth + 1) none (i + 1) ∧
      (∀ next, src.context.trace.steps[i + 1 + callee.length]? = some next → next.depth = depth) ∧
      rest.At src depth within (i + 1 + callee.length)

/-- No step lies in the text of a constructor that could open, and the stack is known everywhere. -/
structure Calm (src : Sources) : Prop where
  quiet : ∀ i site, src.IsSite i site → site.Quiet
  stackKnown : ∀ i, i < src.context.trace.length → ∃ n, src.stackLengthAt i = .ok n

/-! ### Runs can be checked -/

theorem exists_some_iff {α : Type} {o : Option α} {P : α → Prop} [DecidablePred P] :
    (∃ a, o = some a ∧ P a) ↔ o.any fun a => decide (P a) := by
  cases o with
  | none => simp
  | some a => simp

theorem forall_some_iff {α : Type} {o : Option α} {P : α → Prop} [DecidablePred P] :
    (∀ a, o = some a → P a) ↔ o.all fun a => decide (P a) := by
  cases o with
  | none => simp
  | some a => simp

instance decidableExistsSome {α : Type} {o : Option α} {P : α → Prop} [DecidablePred P] :
    Decidable (∃ a, o = some a ∧ P a) :=
  decidable_of_iff _ exists_some_iff.symm

instance decidableForallSome {α : Type} {o : Option α} {P : α → Prop} [DecidablePred P] :
    Decidable (∀ a, o = some a → P a) :=
  decidable_of_iff _ forall_some_iff.symm

/-- The site of a step, when there is one. -/
def Sources.site? (src : Sources) (i : Nat) : Option Site :=
  src.context.trace.steps[i]?.bind fun current =>
    (src.siteAt i current src.context.trace.steps[i + 1]?).toOption

theorem site?_eq_some_iff {src : Sources} {i : Nat} {site : Site} :
    src.site? i = some site ↔ src.IsSite i site := by
  rw [Sources.site?, Option.bind_eq_some_iff]
  refine exists_congr fun current => and_congr_right fun _ => ?_
  cases src.siteAt i current src.context.trace.steps[i + 1]? with
  | error e => simp [Except.toOption]
  | ok s => simp [Except.toOption]

instance {src : Sources} {i : Nat} {P : Site → Prop} [DecidablePred P] :
    Decidable (∃ site, src.IsSite i site ∧ P site) :=
  decidable_of_iff (∃ site, src.site? i = some site ∧ P site)
    (exists_congr fun _ => and_congr_left fun _ => site?_eq_some_iff)

instance (site : Site) (within : Option Nat) : Decidable (site.StaysIn within) :=
  inferInstanceAs (Decidable (∀ row, site.bytecode.userFunctionAt? site.current.pc = some row →
    row.entryPoint ≠ site.current.pc ∧ ∃ f, within = some f ∧ row.id = some f))

instance (site : Site) (f : Nat) : Decidable (site.Enters f) :=
  inferInstanceAs (Decidable (∃ row, site.bytecode.userFunctionAt? site.current.pc = some row ∧
    row.id = some f ∧ row.entryPoint = site.current.pc))

instance (site : Site) : Decidable site.Quiet :=
  inferInstanceAs (Decidable (¬ (site.code.isCreation ∧ site.isValid ∧ site.constructor?.isSome)))

instance Run.decidableAt (src : Sources) : (run : Run) → (depth : Nat) → (within : Option Nat) →
    (i : Nat) → Decidable (run.At src depth within i)
  | .done, _, _, _ => isTrue trivial
  | .plain rest, depth, within, i =>
    haveI := decidableAt src rest depth within (i + 1)
    inferInstanceAs (Decidable (_ ∧ _))
  | .function f body rest, depth, within, i =>
    haveI := decidableAt src body depth (some f) (i + 1)
    haveI := decidableAt src rest depth within (i + 1 + body.length + 1)
    inferInstanceAs (Decidable (_ ∧ _ ∧ _ ∧ _ ∧ _))
  | .unfinished f body, depth, _, i =>
    haveI := decidableAt src body depth (some f) (i + 1)
    inferInstanceAs (Decidable (_ ∧ _))
  | .call callee rest, depth, within, i =>
    haveI := decidableAt src callee (depth + 1) none (i + 1)
    haveI := decidableAt src rest depth within (i + 1 + callee.length)
    inferInstanceAs (Decidable (_ ∧ _ ∧ _ ∧ _ ∧ _))

instance (src : Sources) : Decidable (Calm src) :=
  decidable_of_iff (∀ i, i < src.context.trace.length →
      (∀ site, src.site? i = some site → site.Quiet) ∧ (src.stackLengthAt i).toOption.isSome) <| by
    constructor
    · intro h
      refine ⟨?_, ?_⟩
      · intro i site hsite
        have hi := (List.getElem?_eq_some_iff.1 hsite.spec.2.1).1
        exact (h i hi).1 site (site?_eq_some_iff.2 hsite)
      · intro i hi
        have hsome := (h i hi).2
        cases hstack : src.stackLengthAt i with
        | error e =>
          rw [hstack] at hsome
          cases hsome
        | ok n => exact ⟨n, rfl⟩
    · intro h i hi
      refine ⟨fun site hsite => h.quiet i site (site?_eq_some_iff.1 hsite), ?_⟩
      obtain ⟨n, hn⟩ := h.stackKnown i hi
      rw [hn]
      rfl

namespace Run

/-! ### Where runs start -/

section

variable {src : Sources} {run : Run} {depth i : Nat} {within : Option Nat}

/-- A run starts with a step of its frame. -/
theorem At.head (h : run.At src depth within i) (hne : run ≠ .done) :
    ∃ site, src.IsSite i site ∧ site.current.depth = depth := by
  cases run with
  | done => exact absurd rfl hne
  | plain rest =>
    obtain ⟨⟨site, hsite, hdepth, -⟩, -⟩ := h
    exact ⟨site, hsite, hdepth⟩
  | function f body rest =>
    obtain ⟨⟨site, hsite, hdepth, -⟩, -⟩ := h
    exact ⟨site, hsite, hdepth⟩
  | unfinished f body =>
    obtain ⟨⟨site, hsite, hdepth, -⟩, -⟩ := h
    exact ⟨site, hsite, hdepth⟩
  | call callee rest =>
    obtain ⟨⟨site, hsite, hdepth, -⟩, -⟩ := h
    exact ⟨site, hsite, hdepth⟩

/-- Where a run may start no call leads deeper, when none does where it ends. -/
theorem At.depth_le (h : run.At src depth within i)
    (hend : ∀ next, src.context.trace.steps[i + run.length]? = some next → next.depth ≤ depth) :
    ∀ next, src.context.trace.steps[i]? = some next → next.depth ≤ depth := by
  intro next hnext
  by_cases hdone : run = .done
  · subst hdone
    exact hend next hnext
  · obtain ⟨site, hsite, hdepth⟩ := h.head hdone
    rw [hsite.spec.2.1] at hnext
    cases hnext
    exact hdepth.le

end

/-! ### Order of the brackets -/

variable {parent : ScopeId} {n i : Nat} {b : Bracket}

/-- The brackets of a run lie below later children of its scope. -/
theorem mem_brackets {run : Run} (hb : b ∈ run.brackets parent n i) :
    ∃ m, n < m ∧ (parent.child m).contains b.id := by
  induction run generalizing parent n i with
  | done => cases hb
  | plain rest ih => exact ih hb
  | function f body rest ihBody ihRest =>
    rcases List.mem_cons.1 hb with rfl | hb
    · exact ⟨n + 1, Nat.lt_succ_self n, ScopeId.contains_refl _⟩
    · rcases List.mem_append.1 hb with hb | hb
      · obtain ⟨m, -, hm⟩ := ihBody hb
        exact ⟨n + 1, Nat.lt_succ_self n, ScopeId.contains_trans (ScopeId.contains_child _ m) hm⟩
      · obtain ⟨m, hlt, hm⟩ := ihRest hb
        exact ⟨m, by omega, hm⟩
  | unfinished f body ihBody =>
    rcases List.mem_cons.1 hb with rfl | hb
    · exact ⟨n + 1, Nat.lt_succ_self n, ScopeId.contains_refl _⟩
    · obtain ⟨m, -, hm⟩ := ihBody hb
      exact ⟨n + 1, Nat.lt_succ_self n, ScopeId.contains_trans (ScopeId.contains_child _ m) hm⟩
  | call callee rest ihCallee ihRest =>
    rcases List.mem_cons.1 hb with rfl | hb
    · exact ⟨n + 1, Nat.lt_succ_self n, ScopeId.contains_refl _⟩
    · rcases List.mem_append.1 hb with hb | hb
      · obtain ⟨m, -, hm⟩ := ihCallee hb
        exact ⟨n + 1, Nat.lt_succ_self n, ScopeId.contains_trans (ScopeId.contains_child _ m) hm⟩
      · obtain ⟨m, hlt, hm⟩ := ihRest hb
        exact ⟨m, by omega, hm⟩

theorem contains_of_mem_brackets {run : Run} (hb : b ∈ run.brackets parent n i) :
    parent.contains b.id := by
  obtain ⟨m, -, hm⟩ := mem_brackets hb
  exact ScopeId.contains_trans (ScopeId.contains_child _ m) hm

theorem ne_of_mem_brackets {run : Run} (hb : b ∈ run.brackets parent n i) : b.id ≠ parent := by
  obtain ⟨m, -, hm⟩ := mem_brackets hb
  rintro rfl
  exact ScopeId.not_child_contains _ _ hm

/-- A scope with what lies in it, and what comes after it, are in order when both parts are. -/
theorem pairwise_item (item : Bracket) (inner rest : Run) (j k : Nat)
    (hid : item.id = parent.child (n + 1))
    (hinner : (inner.brackets (parent.child (n + 1)) 0 j).Pairwise
      fun a b => compare a.id b.id = .lt)
    (hrest : (rest.brackets parent (n + 1) k).Pairwise fun a b => compare a.id b.id = .lt) :
    (item :: (inner.brackets (parent.child (n + 1)) 0 j ++ rest.brackets parent (n + 1) k)).Pairwise
      fun a b => compare a.id b.id = .lt := by
  refine .cons ?_ (List.pairwise_append.2 ⟨hinner, hrest, ?_⟩)
  · intro b hb
    rw [hid]
    rcases List.mem_append.1 hb with hb | hb
    · exact ScopeId.compare_of_contains (contains_of_mem_brackets hb) (ne_of_mem_brackets hb).symm
    · obtain ⟨m, hlt, hm⟩ := mem_brackets hb
      exact ScopeId.compare_of_siblings hlt (ScopeId.contains_refl _) hm
  · intro a ha b hb
    obtain ⟨m, hlt, hm⟩ := mem_brackets hb
    exact ScopeId.compare_of_siblings hlt (contains_of_mem_brackets ha) hm

theorem pairwise_brackets (run : Run) (parent : ScopeId) (n i : Nat) :
    (run.brackets parent n i).Pairwise fun a b => compare a.id b.id = .lt := by
  induction run generalizing parent n i with
  | done => exact .nil
  | plain rest ih => exact ih parent n (i + 1)
  | function f body rest ihBody ihRest =>
    exact pairwise_item _ body rest _ _ rfl (ihBody _ _ _) (ihRest _ _ _)
  | unfinished f body ihBody =>
    have h := pairwise_item { id := parent.child (n + 1), kind := .internalFunction,
                              function := some f, firstStep := i,
                              lastStep := some (i + body.length) } body done (i + 1) 0 rfl
      (ihBody _ _ _) .nil
    rwa [brackets, List.append_nil] at h
  | call callee rest ihCallee ihRest =>
    exact pairwise_item _ callee rest _ _ rfl (ihCallee _ _ _) (ihRest _ _ _)

end Run

end TraceTree.Build
