import TraceTree.Proofs.Build.Annotations
import TraceTree.Proofs.Build.Journal
import TraceTree.Proofs.CallTree.VariableIndex

/-!
The variables of a finished tree against its journal. As long as no two parameters of a function and
no two variables of one range share a name, a variable is registered under a name that is free in
its scope, so it stays there and the index never leads from one variable to another. Main statement:
the records of a scope are its own and were made where it is innermost, or as it opened, and the
index answers with the last record of a declaration in the journal that the pass of the
reconstruction has beside it (`build_variableIndex`, with `run_eq_ok_iff_journal`).
-/
namespace TraceTree

open CallTree (IsBody Recorded lastRecord?)

/-! ### Names -/

/-- No two parameters of a function share a name, and no two variables that come into being at one
range do, unless they have none. -/
structure Artifact.NamesDistinct (a : Artifact) : Prop where
  parameters : ∀ f ∈ a.functions, (f.inputNames ++ f.outputNames).Nodup
  locals : ∀ range, (a.localsAt range).Pairwise fun v w => v.name ≠ "" → v.name ≠ w.name

/-- Names can be checked source by source. -/
theorem Artifact.NamesDistinct.of_sources {a : Artifact}
    (hparameters : ∀ f ∈ a.functions, (f.inputNames ++ f.outputNames).Nodup)
    (hlocals : ∀ s ∈ a.sources.values, ∀ vs ∈ s.declarations.value.locals.values,
      vs.Pairwise fun v w => v.name ≠ "" → v.name ≠ w.name) : a.NamesDistinct where
  parameters := hparameters
  locals range := by
    rw [Artifact.localsAt]
    split
    · rename_i s hs
      rw [Declarations.localsAt]
      cases hvs : s.declarations.value.locals.find? range with
      | none => exact .nil
      | some vs =>
        exact hlocals s (SortedMap.mem_values_iff.2 ⟨_, hs⟩) vs (SortedMap.mem_values_iff.2 ⟨_, hvs⟩)
    · exact .nil

/-- Variables of one range whose names differ have records whose names do. -/
theorem VariableDeclaration.pairwise_localRecords {declarations : List VariableDeclaration}
    (h : declarations.Pairwise fun v w => v.name ≠ "" → v.name ≠ w.name)
    (isKnown : String → Bool) (stackLength step : Nat) (scope : ScopeId) :
    (localRecords declarations isKnown stackLength step scope).Pairwise
      fun a b => a.name ≠ b.name := by
  rw [localRecords, List.pairwise_map, List.pairwise_filter]
  refine h.imp fun {v w} hne hv _ => ?_
  rw [Bool.and_eq_true, Bool.not_eq_true', ← Bool.not_eq_true, String.isEmpty_iff] at hv
  exact hne hv.1

/-! ### Where a variable comes into being -/

/-- The place of a record among the scopes: its scope takes the step at which it was made, which for
a parameter is the first one; for another variable no scope around that step is further inside. -/
structure Placed (r : VariableRecord) (k : Skeleton) : Prop where
  covered : ∃ o, k.scopes r.scope = some o ∧ o.contains r.declaredAt ∧
    (r.isParameter → o.firstStep = r.declaredAt)
  innermost : ¬ r.isParameter → ∀ {id o}, k.scopes id = some o → o.contains r.declaredAt →
    id.contains r.scope

/-- Whatever opens and closes later leaves a record at its place. -/
theorem Placed.grows {r : VariableRecord} {k k' : Skeleton} {now gone : Nat} (h : Placed r k)
    (hgrows : k.Grows now gone k') (hgone : r.declaredAt ≤ gone)
    (hnow : ¬ r.isParameter → r.declaredAt < now) : Placed r k' where
  covered := by
    obtain ⟨o, ho, hcov, hfirst⟩ := h.covered
    obtain ⟨o', ho', -, -, -, hsame, -⟩ := hgrows.exists_kept ho
    exact ⟨o', ho', (hgrows.contains_eq ho ho' hgone).trans hcov, fun hp => hsame.trans (hfirst hp)⟩
  innermost hlocal id o' ho' hcov := by
    cases hk : k.scopes id with
    | some o =>
      exact h.innermost hlocal hk ((hgrows.contains_eq hk ho' hgone).symm.trans hcov)
    | none =>
      have hfresh := (hgrows.fresh hk ho').1
      have hlt := hnow hlocal
      simp only [Outline.contains, Bool.and_eq_true, decide_eq_true_eq] at hcov
      omega

/-- Records in the order in which they were made, each at its place: all before the step `last`, and
those of no parameters before the step `now`. -/
structure PlacedRecords (now last : Nat) (records : List VariableRecord) (k : Skeleton) : Prop where
  placed : ∀ r ∈ records, Placed r k
  made : ∀ r ∈ records, r.declaredAt < last ∧ (¬ r.isParameter → r.declaredAt < now)
  ordered : records.Pairwise fun a b => a.declaredAt ≤ b.declaredAt

namespace PlacedRecords

variable {now last now' last' gone step : Nat} {records more : List VariableRecord}
  {k k' : Skeleton}

theorem mono (h : PlacedRecords now last records k) (hnow : now ≤ now') (hlast : last ≤ last') :
    PlacedRecords now' last' records k :=
  ⟨h.placed, fun r hr => ⟨(h.made r hr).1.trans_le hlast,
    fun hp => ((h.made r hr).2 hp).trans_le hnow⟩, h.ordered⟩

theorem grows (h : PlacedRecords now last records k) (hgrows : k.Grows now gone k')
    (hlast : last ≤ gone + 1) : PlacedRecords now last records k' where
  placed r hr :=
    (h.placed r hr).grows hgrows (Nat.le_of_lt_succ ((h.made r hr).1.trans_le hlast)) (h.made r hr).2
  made := h.made
  ordered := h.ordered

/-- Records that are made at the last step so far come last. -/
theorem append (h : PlacedRecords now (step + 1) records k) (hplaced : ∀ r ∈ more, Placed r k)
    (hmade : ∀ r ∈ more, r.declaredAt = step ∧ (¬ r.isParameter → step < now)) :
    PlacedRecords now (step + 1) (records ++ more) k where
  placed r hr := (List.mem_append.1 hr).elim (h.placed r) (hplaced r)
  made r hr := by
    rcases List.mem_append.1 hr with hr | hr
    · exact h.made r hr
    · obtain ⟨hstep, hnow⟩ := hmade r hr
      rw [hstep]
      exact ⟨Nat.lt_succ_self step, hnow⟩
  ordered := by
    refine List.pairwise_append.2 ⟨h.ordered, ?_, ?_⟩
    · refine List.pairwise_of_forall_mem_list fun a ha b hb => ?_
      rw [(hmade a ha).1, (hmade b hb).1]
    · intro a ha b hb
      rw [(hmade b hb).1]
      exact Nat.le_of_lt_succ (h.made a ha).1

end PlacedRecords

namespace Build

variable {src : Sources} {site : Site} {p q : Pass} {log : List Event}

namespace Pass

/-- Opening a function adds its scope and leaves the others alone. -/
theorem grows_openFunction {f : FunctionDefinition} {kind : ScopeKind}
    (hvalid : Valid src site.step p) (hkind : IsBody kind)
    (h : p.openFunction src site f kind = .ok q) :
    p.tree.skeleton.Grows site.step site.step q.tree.skeleton ∧
      ∃ o, q.tree.skeleton.scopes p.layout.nextId = some o ∧ o.firstStep = site.step ∧
        o.lastStep = none := by
  obtain ⟨a, -, hscope, -, -, hlayout⟩ := layout_openFunction h
  obtain ⟨around, hframes⟩ := p.layout_frames
  have hfresh := hvalid.sound.numbered.fresh hframes
  have hgrows : p.layout.tree.Grows site.step site.step
      (p.layout.openScope site.step kind site.code (some f.id)).tree :=
    grows_openScope hfresh (le_refl _) fun hframe => absurd hframe (not_isFrame_of_isBody hkind)
  have htree : q.tree.skeleton =
      ((p.layout.openScope site.step kind site.code (some f.id)).addActivation a).tree :=
    congrArg Layout.tree hlayout
  have hopened : (p.layout.openScope site.step kind site.code (some f.id)).tree.scopes
      p.layout.nextId = some { id := p.layout.nextId, kind, code := site.code,
                               firstStep := site.step, lastStep := none } := by
    rw [scopes_openScope, if_pos rfl]
  rw [htree]
  refine ⟨⟨hgrows.kept, hgrows.fresh, ?_⟩, _, hopened, rfl, rfl⟩
  intro id hid
  show (p.layout.tree.activations.insert a.scope a).find? id = _
  rw [SortedMap.find?_insert, if_neg]
  · rfl
  · rintro rfl
    rw [hscope, show p.tree.skeleton.scopes _ = _ from hfresh] at hid
    cases hid

/-- The variables of the scopes that are there are the same after a scope has opened. -/
theorem local?_openScope {step firstStep : Nat} {kind : ScopeKind} {code : CodeAddress}
    {function : Option Nat} {i : Nat} (hvalid : Valid src i p)
    (h : p.openScope src step firstStep kind code function = .ok q) (id : ScopeId) (name : String) :
    q.tree.local? id name = p.tree.local? id name := by
  have hfresh := scope?_nextId hvalid
  rw [nextId_layout] at hfresh
  rw [openScope] at h
  split at h
  · cases h
  · cases h
    rw [CallTree.local?, CallTree.local?]
    show ((p.tree.scopes.insert _ _).find? id |>.map _).bind _ = _
    rw [SortedMap.find?_insert]
    split
    · rename_i hid
      rw [hid, hfresh]
      rfl
    · rfl

theorem index_openScope {step firstStep : Nat} {kind : ScopeKind} {code : CodeAddress}
    {function : Option Nat} (h : p.openScope src step firstStep kind code function = .ok q) :
    q.tree.variableIndex = p.tree.variableIndex := by
  rw [openScope] at h
  split at h
  · cases h
  · cases h
    rfl

theorem local?_closeAll (t : CallTree) (scopes : List OpenScope) (lastStep : Nat) (id : ScopeId)
    (name : String) : (closeAll t scopes lastStep).local? id name = t.local? id name := by
  induction scopes generalizing t with
  | nil => rfl
  | cons s scopes ih =>
    rw [closeAll, List.foldl_cons, ← closeAll, ih, CallTree.local?, CallTree.local?]
    show ((t.scopes.adjust s.id _).find? id |>.map _).bind _ = _
    rw [SortedMap.map_find?_adjust]
    · rfl
    · exact fun _ => rfl

theorem index_closeAll (t : CallTree) (scopes : List OpenScope) (lastStep : Nat) :
    (closeAll t scopes lastStep).variableIndex = t.variableIndex := by
  induction scopes generalizing t with
  | nil => rfl
  | cons s scopes ih => exact ih _

theorem local?_closeFunction (p : Pass) (lastStep : Nat) (id : ScopeId) (name : String) :
    (p.closeFunction lastStep).tree.local? id name = p.tree.local? id name := by
  rw [closeFunction]
  split
  · rfl
  · rename_i inner outer _
    dsimp only
    split
    · exact local?_closeAll p.tree [inner] lastStep id name
    · exact local?_closeAll p.tree [inner] lastStep id name

theorem index_closeFunction (p : Pass) (lastStep : Nat) :
    (p.closeFunction lastStep).tree.variableIndex = p.tree.variableIndex := by
  rw [closeFunction]
  split
  · rfl
  · dsimp only
    split <;> rfl

/-- The innermost open scope is one of the tree. -/
theorem exists_outline {i : Nat} (hvalid : Valid src i p) :
    ∃ o, p.tree.skeleton.scopes p.scope = some o ∧ o.lastStep = none := by
  obtain ⟨around, hframes⟩ := p.layout_frames
  exact hvalid.sound.linked.framedTop hframes

end Pass

/-! ### Carrying the records over a step -/

theorem Recorded.keepsVariables {records : List VariableRecord} (hkeeps : p.KeepsVariables q)
    (h : Recorded records p.tree) : Recorded records q.tree :=
  h.congr (fun id name => by rw [CallTree.local?, CallTree.local?, hkeeps.locals id]) hkeeps.index

theorem Recorded.openScope {records : List VariableRecord} {step firstStep i : Nat}
    {kind : ScopeKind} {code : CodeAddress} {function : Option Nat} (hvalid : Valid src i p)
    (hopen : p.openScope src step firstStep kind code function = .ok q)
    (h : Recorded records p.tree) : Recorded records q.tree :=
  h.congr (Pass.local?_openScope hvalid hopen) (Pass.index_openScope hopen)

/-- The parameters of a function find no variable of their names in its scope. -/
theorem Recorded.openFunction {records : List VariableRecord} {f : FunctionDefinition}
    {kind : ScopeKind} {n : Nat} (hnames : site.artifact.NamesDistinct)
    (hvalid : Valid src site.step p) (hf : f ∈ site.artifact.functions)
    (hopen : p.openFunction src site f kind = .ok q) (hn : src.stackLengthAt site.step = .ok n)
    (h : Recorded records p.tree) :
    Recorded (records ++ (f.registerParameters n site.step p.layout.nextId).records) q.tree := by
  obtain ⟨r, hr, hopen⟩ := bind_eq_ok.1 hopen
  obtain ⟨m, hm, hopen⟩ := bind_eq_ok.1 hopen
  rw [hn] at hm
  cases hm
  cases hopen
  have hscope : r.scope = p.layout.nextId := Pass.scope_openScope hr
  rw [← hscope]
  refine ((Recorded.openScope hvalid hr h).addVariables ?_ ?_ ?_).congr (fun _ _ => rfl) rfl
  · intro record hrecord
    have hsome : (r.layout.tree.scopes p.layout.nextId).isSome := by
      rw [Pass.layout_openScope hr, isSome_openScope]
      exact .inl rfl
    rw [(FunctionDefinition.of_mem_registerParameters hrecord).1, hscope]
    exact Option.isSome_map.symm.trans hsome
  · intro record hrecord
    rw [(FunctionDefinition.of_mem_registerParameters hrecord).1, Pass.local?_openScope hvalid hr,
      hscope, CallTree.local?_eq_none (Pass.scope?_nextId hvalid)]
  · have hdistinct : ((f.registerParameters n site.step r.scope).records.map (·.name)).Nodup := by
      rw [FunctionDefinition.names_registerParameters]
      exact (hnames.parameters f hf).sublist (List.drop_sublist _ _)
    refine (List.pairwise_map.1 hdistinct).imp ?_
    intro a b hne _
    exact hne

/-- Locals whose names are taken in the innermost scope are not registered. -/
theorem Recorded.declareLocals {records : List VariableRecord} {range : SourceRange} {n i : Nat}
    (hnames : site.artifact.NamesDistinct) (hvalid : Valid src i p) (h : Recorded records p.tree) :
    Recorded (records ++ Journal.localsIn p site range n)
      (p.tree.addVariables (Journal.localsIn p site range n)) := by
  refine h.addVariables ?_ ?_ ?_
  · intro record hrecord
    obtain ⟨o, ho, -⟩ := Pass.exists_outline hvalid
    obtain ⟨s, hs, -⟩ := CallTree.exists_scope?_of_outline rfl ho
    rw [(VariableDeclaration.of_mem_localRecords hrecord).1, hs]
    rfl
  · intro record hrecord
    obtain ⟨hscope, -, -, hfree⟩ := VariableDeclaration.of_mem_localRecords hrecord
    rw [hscope, ← Option.not_isSome_iff_eq_none, ← CallTree.hasLocal_iff]
    exact hfree
  · refine (VariableDeclaration.pairwise_localRecords (hnames.locals range) _ _ _ _).imp ?_
    intro a b hne _
    exact hne

/-- Every step registers its variables under names that are free. -/
theorem recorded_rules (hnames : site.artifact.NamesDistinct) :
    Journal.Rules src site (fun p log => Recorded (registeredIn log) p.tree)
      (fun p log => Recorded (registeredIn log) p.tree) where
  keeps hkeeps h := Recorded.keepsVariables hkeeps h
  function hvalid _ hf hopen hn h := by
    rw [registeredIn_append, Journal.registeredIn_entryEvents]
    exact Recorded.openFunction hnames hvalid hf hopen hn h
  call hvalid hopen h := by
    obtain ⟨callee, -, hopen⟩ := bind_eq_ok.1 hopen
    rw [registeredIn_append, registeredIn_opens, registeredIn_nil, List.append_nil]
    exact Recorded.openScope hvalid hopen h
  comesBack _ h := h.congr (Pass.local?_closeAll _ _ _) (Pass.index_closeAll _ _ _)
  returns _ _ h := h.congr (Pass.local?_closeFunction _ _) (Pass.index_closeFunction _ _)
  locals hvalid h := by
    rw [registeredIn_append, registeredIn_registers]
    exact Recorded.declareLocals hnames hvalid h
  stay h := h

namespace PlacedRecords

variable {records : List VariableRecord}

/-- The parameters of a function are made as its scope opens. -/
theorem openFunction {f : FunctionDefinition} {kind : ScopeKind} {n : Nat}
    (hvalid : Valid src site.step p) (hkind : IsBody kind)
    (hopen : p.openFunction src site f kind = .ok q)
    (h : PlacedRecords site.step (site.step + 1) records p.tree.skeleton) :
    PlacedRecords site.step (site.step + 1)
      (records ++ (f.registerParameters n site.step p.layout.nextId).records)
      q.tree.skeleton := by
  obtain ⟨hgrows, o, ho, hfirst, hlast⟩ := Pass.grows_openFunction hvalid hkind hopen
  refine (h.grows hgrows (le_refl _)).append ?_ ?_
  · intro r hr
    obtain ⟨hscope, hstep, hparam⟩ := FunctionDefinition.of_mem_registerParameters hr
    refine ⟨⟨o, hscope ▸ ho, ?_, fun _ => hfirst.trans hstep.symm⟩, fun hlocal => ?_⟩
    · simp [Outline.contains, hfirst, hlast, hstep]
    · exact absurd hparam hlocal
  · intro r hr
    obtain ⟨-, hstep, hparam⟩ := FunctionDefinition.of_mem_registerParameters hr
    exact ⟨hstep, fun hlocal => absurd hparam hlocal⟩

theorem openCall {kind : CodeAddress → ScopeKind} (hvalid : Valid src site.step p)
    (hopen : p.openCall src site kind = .ok q)
    (h : PlacedRecords site.step (site.step + 1) records p.tree.skeleton) :
    PlacedRecords (site.step + 1) (site.step + 1) records q.tree.skeleton := by
  obtain ⟨callee, -, hlayout⟩ := Pass.layout_openCall hopen
  obtain ⟨around, hframes⟩ := p.layout_frames
  have htree : q.tree.skeleton = _ := congrArg Layout.tree hlayout
  rw [htree]
  exact (h.grows (grows_openScope (hvalid.sound.numbered.fresh hframes) (Nat.le_succ _)
    fun _ => Nat.lt_succ_self _) (le_refl _)).mono (Nat.le_succ _) (le_refl _)

theorem close (n : Nat) (hvalid : Valid src site.step p)
    (hlayout : q.layout = p.layout.close site.step n)
    (h : PlacedRecords site.step (site.step + 1) records p.tree.skeleton) :
    PlacedRecords (site.step + 1) (site.step + 1) records q.tree.skeleton := by
  have htree : q.tree.skeleton = _ := congrArg Layout.tree hlayout
  rw [htree]
  exact (h.grows (grows_close hvalid.sound.linked (le_refl _) n) (le_refl _)).mono (Nat.le_succ _)
    (le_refl _)

/-- Locals are made in the innermost scope: what has ended did so before the step, so whatever takes
the step is open. -/
theorem declareLocals {range : SourceRange} {n : Nat} (hvalid : Valid src site.step p)
    (h : PlacedRecords site.step (site.step + 1) records p.tree.skeleton) :
    PlacedRecords (site.step + 1) (site.step + 1) (records ++ Journal.localsIn p site range n)
      p.tree.skeleton := by
  obtain ⟨o, ho, hopen⟩ := Pass.exists_outline hvalid
  refine (h.mono (Nat.le_succ _) (le_refl _)).append ?_ ?_
  · intro r hr
    obtain ⟨hscope, hstep, hlocal, -⟩ := VariableDeclaration.of_mem_localRecords hr
    refine ⟨⟨o, hscope ▸ ho, ?_, fun hparam => absurd hparam hlocal⟩, ?_⟩
    · rw [hstep]
      simp [Outline.contains, hopen, (hvalid.sound.nested.early ho).1]
    · intro _ id o' ho' hcov
      obtain ⟨around, hframes⟩ := p.layout_frames
      rw [hscope]
      refine hvalid.sound.linked.contains_top hframes ho' ?_
      cases hl : o'.lastStep with
      | none => rfl
      | some l =>
        have hlt := (hvalid.sound.nested.ended ho' hl).2
        rw [hstep] at hcov
        simp only [Outline.contains, hl, Option.all_some, Bool.and_eq_true, decide_eq_true_eq]
          at hcov
        omega
  · intro r hr
    obtain ⟨-, hstep, -, -⟩ := VariableDeclaration.of_mem_localRecords hr
    exact ⟨hstep, fun _ => Nat.lt_succ_self _⟩

end PlacedRecords

/-- Every step puts its records where they belong. -/
theorem placedRecords_rules {i : Nat} (hi : site.step = i) :
    Journal.Rules src site (fun p log => PlacedRecords i (i + 1) (registeredIn log) p.tree.skeleton)
      (fun p log => PlacedRecords (i + 1) (i + 1) (registeredIn log) p.tree.skeleton) where
  keeps {p q log} hkeeps h := by
    have htree : q.tree.skeleton = p.tree.skeleton := congrArg Layout.tree hkeeps.layout
    rw [htree]
    exact h
  function hvalid hkind _ hopen _ h := by
    subst hi
    rw [registeredIn_append, Journal.registeredIn_entryEvents]
    exact PlacedRecords.openFunction hvalid hkind hopen h
  call hvalid hopen h := by
    subst hi
    rw [registeredIn_append, registeredIn_opens, registeredIn_nil, List.append_nil]
    exact PlacedRecords.openCall hvalid hopen h
  comesBack hvalid h := by
    subst hi
    exact PlacedRecords.close _ hvalid (Pass.layout_closeCall _ _) h
  returns hvalid htop h := by
    subst hi
    exact PlacedRecords.close 1 hvalid (Pass.layout_closeFunction (hvalid.nested_ne_nil htop) _) h
  locals hvalid h := by
    subst hi
    rw [registeredIn_append, registeredIn_registers, CallTree.skeleton_addVariables]
    exact PlacedRecords.declareLocals hvalid h
  stay h := h.mono (Nat.le_succ _) (le_refl _)

/-! ### The finished tree -/

theorem local?_start (root : CodeAddress) (steps : Nat) (id : ScopeId) (name : String) :
    (Pass.start root steps).tree.local? id name = none := by
  rw [CallTree.local?]
  show ((SortedMap.insert _ _ _).find? id |>.map _).bind _ = _
  rw [SortedMap.find?_insert]
  split <;> rfl

theorem recorded_start (root : CodeAddress) (steps : Nat) :
    Recorded [] (Pass.start root steps).tree where
  found {id name r} := by
    rw [local?_start]
    simp
  index _ := rfl

theorem placedRecords_nil (now last : Nat) (k : Skeleton) : PlacedRecords now last [] k :=
  ⟨by simp, by simp, .nil⟩

/-- A finished tree has the variables of its journal, each at its place. -/
theorem exists_recorded {tree : CallTree} (h : src.build = .ready tree)
    (hnames : ∀ address artifact, src.resolver address = .ok (some artifact) →
      artifact.NamesDistinct) :
    ∃ log, src.journal = .ok log ∧ Recorded (registeredIn log) tree ∧
      PlacedRecords src.context.trace.length src.context.trace.length (registeredIn log)
        tree.skeleton := by
  obtain ⟨log, q, hlog, hvalid, ⟨hrecorded, hplaced⟩, rfl⟩ := journal_induction h
    (P := fun i p log => Recorded (registeredIn log) p.tree ∧
      PlacedRecords i i (registeredIn log) p.tree.skeleton)
    (fun _ => ⟨recorded_start _ _, placedRecords_nil _ _ _⟩)
    (by
      rintro i site p q told log hsite hvalid ⟨hrecorded, hplaced⟩ hstep
      have hdistinct := hnames _ _ hsite.resolved
      exact ⟨(recorded_rules hdistinct).step hsite hvalid hstep hrecorded,
        (placedRecords_rules hsite.spec.1).step hsite hvalid hstep
          (hplaced.mono (le_refl i) (Nat.le_succ i))⟩)
  refine ⟨log, hlog, hrecorded.congr (Pass.local?_closeAll _ _ _) (Pass.index_closeAll _ _ _), ?_⟩
  have hcount : q.tree.stepCount = src.context.trace.length := hvalid.sound.stepCount
  rw [← q.layout_finish.2, hcount]
  exact hplaced.grows (grows_close hvalid.sound.linked (le_refl _) _)
    (Nat.le_succ_of_pred_le (le_refl _))

/-- A record that is placed in the finished tree lies in its scope, and is a parameter of that or
found at the step at which it was made. -/
theorem Placed.scope {tree : CallTree} {r : VariableRecord} {s : Scope} (wf : tree.WellFormed)
    (h : Placed r tree.skeleton) (hs : tree.scope? r.scope = some s)
    (hmade : r.declaredAt < tree.stepCount) :
    s.firstStep ≤ r.declaredAt ∧ (∃ l, s.lastStep = some l ∧ r.declaredAt ≤ l) ∧
      (r.isParameter → r.declaredAt = s.firstStep) ∧
      (¬ r.isParameter → tree.scopeAt? r.declaredAt = some s) := by
  obtain ⟨o, ho, hcov, hfirst⟩ := h.covered
  rw [CallTree.outline_of_scope? rfl hs] at ho
  cases ho
  replace hcov : s.contains r.declaredAt := hcov
  obtain ⟨l, hl, hiff⟩ := wf.contains_iff hs
  obtain ⟨hle, hend⟩ := (hiff _).1 hcov
  refine ⟨hle, ⟨l, hl, hend⟩, fun hparam => (hfirst hparam).symm, fun hlocal => ?_⟩
  have hkey := wf.keyed hs
  have hinnermost : tree.Innermost r.declaredAt s := by
    refine ⟨hkey.symm ▸ hs, hcov, ?_⟩
    intro c d hd hin
    rw [hkey]
    exact h.innermost hlocal (CallTree.outline_of_scope? rfl hd) hin
  obtain ⟨d, hd, hin⟩ := wf.scopeAt?_innermost hmade
  rw [hd, hin.unique hinnermost]

/-- Variables are what the journal has of them. Where no two parameters of a function share a name
and no two variables of one range do, each record of a scope stands under its own name, was made in
that scope, as it opened if it is a parameter and else at a step at which it is innermost; every
variable that was registered is still there; and the index answers for a declaration exactly if one
was registered, with the last record of it, than which none in the tree is later. -/
theorem build_variableIndex (src : Sources) (tree : CallTree) (h : src.build = .ready tree)
    (hnames : ∀ address artifact, src.resolver address = .ok (some artifact) →
      artifact.NamesDistinct) :
    (∀ id s name r, tree.scope? id = some s → s.locals.find? name = some r →
      r.name = name ∧ r.scope = id ∧ s.firstStep ≤ r.declaredAt ∧
        (∃ l, s.lastStep = some l ∧ r.declaredAt ≤ l) ∧
        (r.isParameter → r.declaredAt = s.firstStep) ∧
        (¬ r.isParameter → tree.scopeAt? r.declaredAt = some s)) ∧
    ∃ log, src.journal = .ok log ∧
      (∀ r, r ∈ registeredIn log ↔
        ∃ s, tree.scope? r.scope = some s ∧ s.locals.find? r.name = some r) ∧
      ∀ i, tree.variableById? i = lastRecord? (registeredIn log) i ∧
        ((tree.variableById? i).isSome ↔ ∃ r ∈ registeredIn log, r.astId = some i) ∧
        ∀ r, tree.variableById? i = some r → r.astId = some i ∧
          ∀ r' ∈ registeredIn log, r'.astId = some i → r'.declaredAt ≤ r.declaredAt := by
  obtain ⟨wf, -, hcount⟩ := wellFormed_of_build h
  obtain ⟨log, hlog, hrecorded, hplaced⟩ := exists_recorded h hnames
  refine ⟨?_, log, hlog, ?_, ?_⟩
  · intro id s name r hs hr
    rw [← CallTree.local?_of_scope? hs, hrecorded.found] at hr
    obtain ⟨hmem, rfl, rfl⟩ := hr
    exact ⟨rfl, rfl, Placed.scope wf (hplaced.placed r hmem) hs
      (hcount.symm ▸ (hplaced.made r hmem).1)⟩
  · intro r
    constructor
    · intro hmem
      have hr := hrecorded.found.2 ⟨hmem, rfl, rfl⟩
      obtain ⟨o, ho, -⟩ := (hplaced.placed r hmem).covered
      obtain ⟨s, hs, -⟩ := CallTree.exists_scope?_of_outline rfl ho
      exact ⟨s, hs, (CallTree.local?_of_scope? hs _).symm.trans hr⟩
    · rintro ⟨s, hs, hr⟩
      rw [← CallTree.local?_of_scope? hs, hrecorded.found] at hr
      exact hr.1
  · intro i
    rw [hrecorded.variableById?_eq]
    refine ⟨rfl, CallTree.isSome_lastRecord?, fun r hr => ⟨(CallTree.lastRecord?_eq_some hr).2, ?_⟩⟩
    intro r' hmem hid
    exact CallTree.declaredAt_le_lastRecord? hplaced.ordered hr hmem hid

/-- The variable `x` comes into being in the outermost scope and once more in the function that is
open two steps later; the index answers with the second. -/
theorem build_variableIndex_annotated : ∃ tree log, annotatedSources.build = .ready tree ∧
    annotatedArtifact.NamesDistinct ∧ annotatedSources.journal = .ok log ∧
    (registeredIn log).map (fun r => (r.name, r.scope.path, r.declaredAt)) =
      [("x", [1], 0), ("x", [1, 1, 1], 2)] ∧
    tree.variableById? 3 = (registeredIn log)[1]? ∧
    ∀ id s r, tree.scope? id = some s → s.locals.find? "x" = some r →
      r.scope = id ∧ (¬ r.isParameter → tree.scopeAt? r.declaredAt = some s) := by
  have hready : annotatedSources.build.isReady := by decide +kernel
  obtain ⟨tree, h⟩ := Outcome.exists_of_isReady hready
  have hnames : annotatedArtifact.NamesDistinct :=
    .of_sources (by decide +kernel) (by decide +kernel)
  obtain ⟨hplaces, log, hlog, -, hindex⟩ := build_variableIndex annotatedSources tree h (by
    intro address artifact hfound
    cases hfound
    exact hnames)
  have hrecords : annotatedSources.journal.toOption.map (fun log =>
      ((registeredIn log).map fun r => (r.name, r.scope.path, r.declaredAt),
        lastRecord? (registeredIn log) 3 == (registeredIn log)[1]?)) =
      some ([("x", [1], 0), ("x", [1, 1, 1], 2)], true) := by decide +kernel
  rw [hlog, Except.toOption, Option.map_some, Option.some.injEq, Prod.mk.injEq, beq_iff_eq]
    at hrecords
  refine ⟨tree, log, h, hnames, hlog, hrecords.1, (hindex 3).1.trans hrecords.2, ?_⟩
  intro id s r hs hr
  obtain ⟨-, hscope, -, -, -, hlocal⟩ := hplaces id s "x" r hs hr
  exact ⟨hscope, hlocal⟩

end Build

end TraceTree
