import TraceTree.Proofs.Build.History
import TraceTree.Proofs.Variable

/-!
Variables over the steps of a pass. No step changes a variable that is recorded: parameters come
into a scope that opens, and declarations whose names are taken are left out. Main statement: of the
variables of a scope a later pass has those that an earlier one had, and others that are declared
later (`History.extendsLocals`), so the variables up to a step are known with that step
(`ExtendsLocals.filter_values`).
-/
namespace TraceTree

/-! ### Records that are made -/

/-- Local variables are declared under names that are not known. -/
theorem VariableDeclaration.of_mem_localRecords {declarations : List VariableDeclaration}
    {isKnown : String → Bool} {stackLength step : Nat} {scope : ScopeId} {r : VariableRecord}
    (h : r ∈ localRecords declarations isKnown stackLength step scope) :
    r.scope = scope ∧ r.declaredAt = step ∧ ¬ r.isParameter ∧ ¬ isKnown r.name := by
  obtain ⟨v, hv, rfl⟩ := List.mem_map.1 h
  rw [List.mem_filter, Bool.and_eq_true] at hv
  refine ⟨rfl, rfl, Bool.false_ne_true, ?_⟩
  show ¬ isKnown v.name
  simpa using hv.2.2

/-! ### Variables of one scope -/

/-- The variables that are there stay as they are, and new ones are declared at `now` or later. -/
structure ExtendsLocals (now : Nat) (m m' : SortedMap String VariableRecord) : Prop where
  kept : ∀ {name r}, m.find? name = some r → m'.find? name = some r
  fresh : ∀ {name r}, m.find? name = none → m'.find? name = some r → now ≤ r.declaredAt

namespace ExtendsLocals

variable {now n step : Nat} {m m' m'' : SortedMap String VariableRecord} {r : VariableRecord}

theorem refl (m : SortedMap String VariableRecord) : ExtendsLocals now m m where
  kept h := h
  fresh hnone h := by
    rw [hnone] at h
    cases h

theorem trans (h : ExtendsLocals now m m') (h' : ExtendsLocals now m' m'') :
    ExtendsLocals now m m'' where
  kept hr := h'.kept (h.kept hr)
  fresh {name r} hnone hr := by
    cases hm : m'.find? name with
    | none => exact h'.fresh hm hr
    | some r' =>
      rw [h'.kept hm] at hr
      cases hr
      exact h.fresh hnone hm

theorem mono (h : ExtendsLocals now m m') (hle : n ≤ now) : ExtendsLocals n m m' :=
  ⟨h.kept, fun hnone hr => hle.trans (h.fresh hnone hr)⟩

/-- A variable whose name was free comes new, over others that did. -/
theorem insert (h : ExtendsLocals now m m') (hfree : m.find? r.name = none)
    (hnow : now ≤ r.declaredAt) : ExtendsLocals now m (m'.insert r.name r) where
  kept {name r'} hr := by
    rw [SortedMap.find?_insert, if_neg]
    · exact h.kept hr
    · rintro rfl
      rw [hfree] at hr
      cases hr
  fresh {name r'} hnone hr := by
    rw [SortedMap.find?_insert] at hr
    split at hr
    · cases hr
      exact hnow
    · exact h.fresh hnone hr

/-- The variables up to a step before `now` are the same. -/
theorem filter_values (h : ExtendsLocals now m m') (hstep : step < now) :
    (m'.values.filter fun r => r.declaredAt ≤ step) =
      m.values.filter fun r => r.declaredAt ≤ step := by
  rw [SortedMap.values, SortedMap.values, List.filter_map, List.filter_map]
  refine congrArg (List.map _)
    (SortedMap.ascending_ext (m'.ascending.filter _) (m.ascending.filter _) fun e => ?_)
  rw [List.mem_filter, List.mem_filter, ← SortedMap.find?_eq_some_iff (v := e.2),
    ← SortedMap.find?_eq_some_iff (v := e.2)]
  refine and_congr_left fun hle => ?_
  rw [Function.comp_apply, decide_eq_true_eq] at hle
  constructor
  · intro he
    cases hm : m.find? e.1 with
    | none =>
      have := h.fresh hm he
      omega
    | some r => rw [← h.kept hm, he]
  · exact fun he => h.kept he

end ExtendsLocals

/-! ### Variables of all scopes -/

namespace CallTree

/-- The scopes that are there stay, and their variables are extended. -/
def ExtendsLocals (now : Nat) (t t' : CallTree) : Prop :=
  ∀ id s, t.scope? id = some s →
    ∃ s', t'.scope? id = some s' ∧ TraceTree.ExtendsLocals now s.locals s'.locals

namespace ExtendsLocals

variable {now n : Nat} {t t' t'' : CallTree}

theorem of_scopes (h : t'.scopes = t.scopes) : t.ExtendsLocals now t' := by
  intro id s hs
  exact ⟨s, by rw [scope?, h]; exact hs, .refl _⟩

theorem refl (t : CallTree) : t.ExtendsLocals now t := of_scopes rfl

theorem trans (h : t.ExtendsLocals now t') (h' : t'.ExtendsLocals now t'') :
    t.ExtendsLocals now t'' := by
  intro id s hs
  obtain ⟨s', hs', hext⟩ := h id s hs
  obtain ⟨s'', hs'', hext'⟩ := h' id s' hs'
  exact ⟨s'', hs'', hext.trans hext'⟩

theorem mono (h : t.ExtendsLocals now t') (hle : n ≤ now) : t.ExtendsLocals n t' := by
  intro id s hs
  obtain ⟨s', hs', hext⟩ := h id s hs
  exact ⟨s', hs', hext.mono hle⟩

/-- A change of one scope that leaves its variables alone. -/
theorem adjust {id : ScopeId} {f : Scope → Scope} (hf : ∀ s, (f s).locals = s.locals)
    (h : t'.scopes = t.scopes.adjust id f) : t.ExtendsLocals now t' := by
  intro a s hs
  rw [scope?, h, SortedMap.find?_adjust]
  rw [scope?] at hs
  split
  · exact ⟨f s, by rw [hs]; rfl, hf s ▸ .refl _⟩
  · exact ⟨s, hs, .refl _⟩

theorem closeScope (t : CallTree) (id : ScopeId) (lastStep : Nat) :
    t.ExtendsLocals now (t.closeScope id lastStep) :=
  adjust (f := fun s => { s with lastStep := some lastStep }) (fun _ => rfl) rfl

theorem creditGas (t : CallTree) (id : ScopeId) (gas : Nat) :
    t.ExtendsLocals now (t.creditGas id gas) :=
  adjust (f := fun s => { s with gasCost := Gas.add s.gasCost gas }) (fun _ => rfl) rfl

theorem openScope {s : Scope} (hfresh : t.scope? s.id = none) :
    t.ExtendsLocals now (t.openScope s) := by
  intro id r hr
  refine ⟨r, ?_, .refl _⟩
  show (t.scopes.insert s.id s).find? id = some r
  rw [SortedMap.find?_insert, if_neg]
  · exact hr
  · rintro rfl
    rw [hfresh] at hr
    cases hr

theorem addVariable {r : VariableRecord} (h : t.ExtendsLocals now t')
    (hfree : ∀ s, t.scope? r.scope = some s → s.locals.find? r.name = none)
    (hnow : now ≤ r.declaredAt) : t.ExtendsLocals now (t'.addVariable r) := by
  rw [CallTree.addVariable]
  split
  · intro id s hs
    obtain ⟨s', hs', hext⟩ := h id s hs
    rw [scope?] at hs' ⊢
    dsimp only
    rw [SortedMap.find?_adjust]
    split
    · rename_i hid
      exact ⟨s'.addLocal r, by rw [hs']; rfl, hext.insert (hfree s (hid ▸ hs)) hnow⟩
    · exact ⟨s', hs', hext⟩
  · exact h

theorem addVariables {records : List VariableRecord} (h : t.ExtendsLocals now t')
    (hfree : ∀ r ∈ records, ∀ s, t.scope? r.scope = some s → s.locals.find? r.name = none)
    (hnow : ∀ r ∈ records, now ≤ r.declaredAt) :
    t.ExtendsLocals now (t'.addVariables records) := by
  rw [CallTree.addVariables]
  induction records generalizing t' with
  | nil => exact h
  | cons r records ih =>
    rw [List.forall_mem_cons] at hfree hnow
    exact ih (h.addVariable hfree.1 hnow.1) hfree.2 hnow.2

theorem closeAll (t : CallTree) (scopes : List Build.OpenScope) (lastStep : Nat) :
    t.ExtendsLocals now (Build.Pass.closeAll t scopes lastStep) := by
  induction scopes generalizing t with
  | nil => exact refl t
  | cons s scopes ih => exact (closeScope t s.id lastStep).trans (ih _)

end ExtendsLocals

end CallTree

namespace Build

/-! ### Variables over a step -/

namespace Pass

variable {p q : Pass} {src : Sources} {site : Site} {now i : Nat}

/-- The variables of the later pass extend those of the earlier. -/
def ExtendsLocals (now : Nat) (p q : Pass) : Prop := p.tree.ExtendsLocals now q.tree

theorem extendsLocals_credit (p : Pass) (gas : Nat) : p.ExtendsLocals now (p.credit gas) :=
  CallTree.ExtendsLocals.creditGas _ _ _

theorem extendsLocals_noteValid (p : Pass) (site : Site) :
    p.ExtendsLocals now (p.noteValid site) := by
  rw [noteValid]
  split
  · exact .of_scopes rfl
  · exact .refl _

theorem scopes_chargeLine (t : CallTree) (src : Sources) (site : Site) (l : StepLocation) :
    (chargeLine t src site l).scopes = t.scopes := by
  rw [chargeLine]
  split <;> rfl

theorem extendsLocals_observe (p : Pass) (src : Sources) (site : Site) :
    p.ExtendsLocals now (p.observe src site) := by
  rw [observe]
  refine CallTree.ExtendsLocals.trans ?_ (extendsLocals_noteValid _ site)
  exact .of_scopes (scopes_chargeLine _ _ _ _)

theorem extendsLocals_track (p : Pass) (site : Site) : p.ExtendsLocals now (p.track site) := by
  rw [track]
  split
  · exact .refl _
  · refine .of_scopes ?_
    show (p.tree.addBreakpoint site.step).scopes = p.tree.scopes
    rw [CallTree.addBreakpoint]
    split <;> rfl

theorem extendsLocals_await (p : Pass) (site : Site) : p.ExtendsLocals now (p.await site) := by
  rw [await]
  split
  · split
    · exact .of_scopes rfl
    · exact .refl _
  · exact .refl _

theorem extendsLocals_takeAwaited (p : Pass) (site : Site) :
    p.ExtendsLocals now (p.takeAwaited site).1 := by
  rw [takeAwaited]
  split
  · exact .refl _
  · split
    · exact .refl _
    · dsimp only
      split
      · exact .of_scopes rfl
      · exact .of_scopes rfl

/-- Before a scope opens nothing stands under its id. -/
theorem scope?_nextId (hvalid : Valid src i p) : p.tree.scope? p.layout.nextId = none := by
  obtain ⟨around, hframes⟩ := p.layout_frames
  have hfresh := hvalid.sound.numbered.fresh hframes
  cases hs : p.tree.scope? p.layout.nextId with
  | none => rfl
  | some s =>
    rw [show p.layout.tree.scopes _ = _ from CallTree.outline_of_scope? rfl hs] at hfresh
    cases hfresh

theorem extendsLocals_openScope {step firstStep : Nat} {kind : ScopeKind} {code : CodeAddress}
    {function : Option Nat} (hvalid : Valid src i p)
    (h : p.openScope src step firstStep kind code function = .ok q) : p.ExtendsLocals now q := by
  have hfresh := scope?_nextId hvalid
  rw [nextId_layout] at hfresh
  rw [openScope] at h
  split at h
  · cases h
  · cases h
    exact .openScope hfresh

theorem extendsLocals_openFunction {f : FunctionDefinition} {kind : ScopeKind}
    (hvalid : Valid src site.step p) (h : p.openFunction src site f kind = .ok q) :
    p.ExtendsLocals site.step q := by
  obtain ⟨r, hopen, h⟩ := bind_eq_ok.1 h
  obtain ⟨n, -, h⟩ := bind_eq_ok.1 h
  cases h
  have hscope := scope_openScope hopen
  have hrecords : p.tree.ExtendsLocals site.step
      (r.tree.addVariables (f.registerParameters n site.step r.scope).records) := by
    refine CallTree.ExtendsLocals.addVariables (extendsLocals_openScope hvalid hopen) ?_ ?_
    · intro record hrecord s hs
      rw [(FunctionDefinition.of_mem_registerParameters hrecord).1, hscope,
        scope?_nextId hvalid] at hs
      cases hs
    · intro record hrecord
      rw [(FunctionDefinition.of_mem_registerParameters hrecord).2.1]
  exact hrecords.trans (.of_scopes rfl)

theorem extendsLocals_openCall {kind : CodeAddress → ScopeKind} (hvalid : Valid src i p)
    (h : p.openCall src site kind = .ok q) : p.ExtendsLocals now q := by
  obtain ⟨callee, -, h⟩ := bind_eq_ok.1 h
  exact extendsLocals_openScope hvalid h

theorem extendsLocals_closeFunction (p : Pass) (lastStep : Nat) :
    p.ExtendsLocals now (p.closeFunction lastStep) := by
  rw [closeFunction]
  split
  · exact .refl _
  · dsimp only
    split
    · exact CallTree.ExtendsLocals.closeScope _ _ _
    · exact CallTree.ExtendsLocals.closeScope _ _ _

/-- Declarations whose names are taken are left out. -/
theorem extendsLocals_declareLocals (h : p.declareLocals src site = .ok q) :
    p.ExtendsLocals site.step q := by
  rw [declareLocals] at h
  split at h
  · cases h
    exact .refl _
  · obtain ⟨n, -, h⟩ := bind_eq_ok.1 h
    cases h
    refine CallTree.ExtendsLocals.addVariables (.refl _) ?_ ?_
    · intro record hrecord s hs
      obtain ⟨hscope, -, -, hknown⟩ := VariableDeclaration.of_mem_localRecords hrecord
      rw [hscope] at hs
      rw [CallTree.hasLocal, show p.tree.scopes.find? p.scope = some s from hs, Option.any_some,
        SortedMap.contains, Option.not_isSome_iff_eq_none] at hknown
      exact hknown
    · intro record hrecord
      rw [(VariableDeclaration.of_mem_localRecords hrecord).2.1]

theorem extendsLocals_leaves {opened : Bool} (hvalid : Valid src i p)
    (h : p.Leaves src site opened q) : p.ExtendsLocals site.step q := by
  cases h with
  | comesBack => exact CallTree.ExtendsLocals.closeAll _ _ _
  | goesDeeper _ _ hopen => exact extendsLocals_openCall hvalid hopen
  | opened => exact .refl _
  | returns => exact extendsLocals_closeFunction p _
  | declares _ _ _ _ hlocals =>
    rcases hlocals with rfl | hlocals
    · exact .refl _
    · exact extendsLocals_declareLocals hlocals

theorem extendsLocals_advance {entry : Option Nat} {gas : Nat} (hsite : src.IsSite i site)
    (hvalid : Valid src i p) (h : p.advance src site entry gas = .ok q) :
    p.ExtendsLocals i q := by
  have rules := valid_rules hsite
  obtain ⟨rfl, -⟩ := hsite.spec
  have hcredit : ∀ {r : Pass}, Valid src site.step r → Valid src site.step (r.credit gas) :=
    fun hr => hr.of_layout (layout_credit _ _)
  rcases advance_cases h with ⟨-, -, hopen⟩ | ⟨-, r, opened, henter, hleaves⟩
  · exact (extendsLocals_credit p gas).trans (extendsLocals_openCall (hcredit hvalid) hopen)
  · have hentered : Valid src site.step r ∧ p.ExtendsLocals site.step r := by
      rcases enter_cases henter with ⟨rfl, -⟩ | ⟨f, -, -, -, hopen⟩
      · exact ⟨hvalid, .refl _⟩
      · exact ⟨rules.enter hopen hvalid, extendsLocals_openFunction hvalid hopen⟩
    exact (hentered.2.trans (extendsLocals_credit r gas)).trans
      (extendsLocals_leaves (hcredit hentered.1) hleaves)

/-- A step leaves the variables that were recorded alone. -/
theorem extendsLocals_step (hsite : src.IsSite i site) (hvalid : Valid src i p)
    (h : p.step src site = .ok q) : p.ExtendsLocals i q := by
  have rules := valid_rules hsite
  have harrive : p.ExtendsLocals i (p.arrive src site) :=
    ((extendsLocals_observe p src site).trans (extendsLocals_track _ site)).trans
      (extendsLocals_await _ site)
  have htake : (p.arrive src site).ExtendsLocals i ((p.arrive src site).takeAwaited site).1 :=
    extendsLocals_takeAwaited _ site
  have hreached : Valid src i ((p.arrive src site).takeAwaited site).1 :=
    hvalid.of_layout ((alike_arrive p src site).trans (alike_takeAwaited _ site)).layout
  rcases step_cases h with ⟨r, hr, hadv⟩ | ⟨r, f, s, hr, hs, hadv⟩
  · rw [hr] at htake hreached
    exact (harrive.trans htake).trans (extendsLocals_advance hsite hreached hadv)
  · rw [hr] at htake hreached
    have hopen : r.ExtendsLocals i s := by
      obtain ⟨rfl, -⟩ := hsite.spec
      exact extendsLocals_openFunction hreached hs
    have hinside : s.ExtendsLocals i (((s.credit site.gas).noteValid site).track site) :=
      (CallTree.ExtendsLocals.trans (extendsLocals_credit s site.gas)
        (extendsLocals_noteValid _ site)).trans (extendsLocals_track _ site)
    have hvalid' : Valid src i (((s.credit site.gas).noteValid site).track site) :=
      (rules.construct hs hreached).of_layout
        ((alike_noteValid _ site).trans (alike_track _ site)).layout
    exact (((harrive.trans htake).trans hopen).trans hinside).trans
      (extendsLocals_advance hsite hvalid' hadv)

end Pass

/-! ### Variables over all steps -/

namespace History

variable {src : Sources} {tree : CallTree} {pass : Nat → Pass} {i j : Nat}

theorem extendsLocals (hist : History src tree pass) (hij : i ≤ j)
    (hj : j ≤ src.context.trace.length) : (pass i).ExtendsLocals i (pass j) := by
  induction j, hij using Nat.le_induction with
  | base => exact .refl _
  | succ j hij ih =>
    obtain ⟨st⟩ := hist.stage hj
    have hvalid : Valid src j (pass j) := ⟨st.ordered.sound, st.ordered.activated⟩
    exact (ih (Nat.le_of_succ_le hj)).trans
      ((Pass.extendsLocals_step st.isSite hvalid st.steps).mono hij)

/-- The finished tree has the variables that were recorded before a step, and others that are
declared from then on. -/
theorem extendsLocals_tree (hist : History src tree pass) (hi : i ≤ src.context.trace.length) :
    (pass i).tree.ExtendsLocals i tree := by
  rw [← hist.finish]
  exact (hist.extendsLocals hi (le_refl _)).trans (CallTree.ExtendsLocals.closeAll _ _ _)

end History

end Build

end TraceTree
