import Mathlib.Algebra.BigOperators.ModEq
import TraceTree.Proofs.Build.WellFormed

/-!
Which scope pays for a step. A step is charged to the scope that is innermost around it, with one
exception: a step at which a constructor opens is charged to the constructor, also when a function
opens inside the constructor at the same step. Main statement: the gas of a scope is the sum over
the steps that it pays for, and that it is the sum over the steps whose innermost scope it is comes
down to such steps being free (`build_gasCost`).
-/
namespace TraceTree.Build

/-- The step is the first of a constructor, which has that id. -/
def Constructs (k : Layout) (id : ScopeId) (step : Nat) : Prop :=
  ∃ o, k.tree.scopes id = some o ∧ o.kind = .constructor ∧ o.firstStep = step

/-- The first `n` steps are charged, each to the scope that `payer` gives: the innermost one around
the step, or a constructor that opens there. -/
structure Charged (cost : Nat → Nat) (n : Nat) (payer : Nat → ScopeId) (k : Layout)
    (gas : ScopeId → Option Nat) : Prop where
  sums : ∀ {id o}, k.tree.scopes id = some o →
    gas id = some ((∑ t ∈ Finset.range n, if payer t = id then cost t else 0) % Text.bound64)
  covers : ∀ {t}, t < n → ∃ o, k.tree.scopes (payer t) = some o ∧ o.contains t
  innermost : ∀ {t id o}, t < n → k.tree.scopes id = some o → o.contains t →
    id.contains (payer t) ∨ (payer t).contains id ∧ Constructs k (payer t) t

/-- A constructor pays for the step at which it opens. -/
def ConstructorsPay (n : Nat) (payer : Nat → ScopeId) (k : Layout) : Prop :=
  ∀ id t, Constructs k id t → t < n ∧ payer t = id

/-! ### Opening -/

section Opening

variable {cost : Nat → Nat} {n x : Nat} {payer : Nat → ScopeId} {k : Layout}
  {gas : ScopeId → Option Nat} {kind : ScopeKind} {code : CodeAddress} {function : Option Nat}

theorem Constructs.openScope {id : ScopeId} {t : Nat} (h : Constructs k id t)
    (hfresh : k.tree.scopes k.nextId = none) :
    Constructs (k.openScope x kind code function) id t := by
  obtain ⟨o, ho, hconstructor⟩ := h
  exact ⟨o, scopes_openScope_of_some hfresh ho, hconstructor⟩

/-- A scope opens without gas. Where it lies around a charged step, a constructor around it pays. -/
theorem Charged.openScope (h : Charged cost n payer k gas)
    (hfresh : k.tree.scopes k.nextId = none)
    (hinner : ∀ t, t < n → x ≤ t → (payer t).contains k.nextId ∧ Constructs k (payer t) t) :
    Charged cost n payer (k.openScope x kind code function)
      (fun id => if id = k.nextId then some 0 else gas id) where
  sums {id o} ho := by
    rcases of_openScope ho with ⟨rfl, -⟩ | ⟨hid, ho⟩
    · rw [if_pos rfl, Finset.sum_eq_zero, Nat.zero_mod]
      intro t ht
      rw [if_neg]
      intro hpayer
      obtain ⟨q, hq, -⟩ := h.covers (Finset.mem_range.1 ht)
      rw [hpayer, hfresh] at hq
      cases hq
    · rw [if_neg hid]
      exact h.sums ho
  covers {t} ht := by
    obtain ⟨o, ho, hcov⟩ := h.covers ht
    exact ⟨o, scopes_openScope_of_some hfresh ho, hcov⟩
  innermost {t id o} ht ho hcov := by
    rcases of_openScope ho with ⟨rfl, rfl⟩ | ⟨-, ho⟩
    · have hx : x ≤ t := by
        rw [Outline.contains, Bool.and_eq_true, decide_eq_true_eq] at hcov
        exact hcov.1
      obtain ⟨hin, hconstructs⟩ := hinner t ht hx
      exact .inr ⟨hin, hconstructs.openScope hfresh⟩
    · rcases h.innermost ht ho hcov with h | ⟨hin, hconstructs⟩
      · exact .inl h
      · exact .inr ⟨hin, hconstructs.openScope hfresh⟩

theorem ConstructorsPay.openScope (h : ConstructorsPay n payer k) (hkind : kind ≠ .constructor) :
    ConstructorsPay n payer (k.openScope x kind code function) := by
  rintro id t ⟨o, ho, hconstructor, hfirst⟩
  rcases of_openScope ho with ⟨-, rfl⟩ | ⟨-, ho⟩
  · exact absurd hconstructor hkind
  · exact h id t ⟨o, ho, hconstructor, hfirst⟩

theorem Charged.addActivation (h : Charged cost n payer k gas) (a : FunctionActivation) :
    Charged cost n payer (k.addActivation a) gas :=
  ⟨h.sums, h.covers, h.innermost⟩

theorem ConstructorsPay.addActivation (h : ConstructorsPay n payer k) (a : FunctionActivation) :
    ConstructorsPay n payer (k.addActivation a) := h

/-- The innermost scope pays for the step that is charged next. -/
theorem Charged.charge {src : Sources} {top : Frame} {around : List Frame}
    (h : Charged cost n payer k gas) (hsound : Sound src n n k)
    (hframes : k.frames = top :: around) :
    Charged cost (n + 1) (Function.update payer n top.id) k
      (fun id => if id = top.id then (gas id).map (Gas.add · (cost n)) else gas id) := by
  have hold : ∀ t, t < n → Function.update payer n top.id t = payer t :=
    fun t ht => Function.update_of_ne (Nat.ne_of_lt ht) _ _
  have hopen : ∀ {id o}, k.tree.scopes id = some o → o.contains n → id.contains top.id := by
    intro id o ho hcov
    -- What has ended did so before the step, so a scope around it is still open.
    have hnone : o.lastStep = none := by
      cases hl : o.lastStep with
      | none => rfl
      | some l =>
        have hlt := (hsound.nested.ended ho hl).2
        rw [Outline.contains, hl, Option.all_some, Bool.and_eq_true, decide_eq_true_eq,
          decide_eq_true_eq] at hcov
        omega
    exact hsound.linked.contains_top hframes ho hnone
  refine ⟨?_, ?_, ?_⟩
  · intro id o ho
    have hsum : (∑ t ∈ Finset.range n,
        if Function.update payer n top.id t = id then cost t else 0) =
        ∑ t ∈ Finset.range n, if payer t = id then cost t else 0 :=
      Finset.sum_congr rfl fun t ht => by rw [hold t (Finset.mem_range.1 ht)]
    rw [Finset.sum_range_succ, hsum, Function.update_self, h.sums ho]
    by_cases hid : id = top.id
    · rw [if_pos hid, if_pos hid.symm, Option.map_some, Gas.add_mod_left]
    · rw [if_neg hid, if_neg (Ne.symm hid), Nat.add_zero]
  · intro t ht
    rcases Nat.lt_succ_iff_lt_or_eq.1 ht with ht | rfl
    · rw [hold t ht]
      exact h.covers ht
    · rw [Function.update_self]
      obtain ⟨o, ho, hnone⟩ := hsound.linked.framedTop hframes
      refine ⟨o, ho, ?_⟩
      simp [Outline.contains, hnone, (hsound.nested.early ho).1]
  · intro t id o ht ho hcov
    rcases Nat.lt_succ_iff_lt_or_eq.1 ht with ht | rfl
    · rw [hold t ht]
      exact h.innermost ht ho hcov
    · rw [Function.update_self]
      exact .inl (hopen ho hcov)

theorem ConstructorsPay.charge (h : ConstructorsPay n payer k) (id : ScopeId) :
    ConstructorsPay (n + 1) (Function.update payer n id) k := by
  intro other t hconstructs
  obtain ⟨hlt, hpays⟩ := h other t hconstructs
  rw [Function.update_of_ne (Nat.ne_of_lt hlt)]
  exact ⟨hlt.trans (Nat.lt_succ_self n), hpays⟩

end Opening

/-! ### Closing -/

section Closing

variable {cost : Nat → Nat} {n x : Nat} {payer : Nat → ScopeId} {k : Layout} {top : Frame}
  {around : List Frame} {gas : ScopeId → Option Nat}

/-- A scope that closes at a step keeps the steps up to that one. -/
theorem contains_closeTop (link : Linked k) (hframes : k.frames = top :: around) {t : Nat}
    (ht : t ≤ x) {id : ScopeId} {s : Outline} (hs : k.tree.scopes id = some s) :
    ∃ o, (k.closeTop x).tree.scopes id = some o ∧ o.contains t = s.contains t := by
  rw [scopes_closeTop hframes]
  split
  · rename_i hid
    subst hid
    obtain ⟨o, ho, hnone⟩ := link.framedTop hframes
    rw [hs] at ho
    cases ho
    refine ⟨s.closeAt x, by rw [hs]; rfl, ?_⟩
    rw [Outline.contains, Outline.contains, Outline.closeAt, hnone]
    simp [ht]
  · exact ⟨s, hs, rfl⟩

theorem constructs_closeTop (hframes : k.frames = top :: around) {id : ScopeId} {t : Nat} :
    Constructs (k.closeTop x) id t ↔ Constructs k id t := by
  constructor
  · rintro ⟨o, ho, hconstructor, hfirst⟩
    obtain ⟨s, hs, -, hkind, -, heq⟩ := exists_of_closeTop hframes ho
    exact ⟨s, hs, hkind.trans hconstructor, heq.trans hfirst⟩
  · rintro ⟨s, hs, hconstructor, hfirst⟩
    obtain ⟨o, ho, -, hkind, -, heq⟩ := exists_closeTop (x := x) hframes hs
    exact ⟨o, ho, hkind.symm.trans hconstructor, heq.symm.trans hfirst⟩

theorem Charged.closeTop (h : Charged cost n payer k gas) (link : Linked k)
    (hframes : k.frames = top :: around) (hx : n ≤ x + 1) :
    Charged cost n payer (k.closeTop x) gas where
  sums ho := by
    obtain ⟨s, hs, -⟩ := exists_of_closeTop hframes ho
    exact h.sums hs
  covers {t} ht := by
    obtain ⟨s, hs, hcov⟩ := h.covers ht
    obtain ⟨o, ho, hsame⟩ := contains_closeTop (x := x) link hframes (show t ≤ x by omega) hs
    exact ⟨o, ho, hsame.trans hcov⟩
  innermost {t id o} ht ho hcov := by
    obtain ⟨s, hs, -⟩ := exists_of_closeTop hframes ho
    obtain ⟨r, hr, hsame⟩ := contains_closeTop (x := x) link hframes (show t ≤ x by omega) hs
    rw [ho] at hr
    cases hr
    rw [constructs_closeTop hframes]
    exact h.innermost ht hs (hsame.symm.trans hcov)

theorem Charged.close (h : Charged cost n payer k gas) (link : Linked k) (hx : n ≤ x + 1)
    (m : Nat) : Charged cost n payer (k.close x m) gas := by
  have hboth : Linked (k.close x m) ∧ Charged cost n payer (k.close x m) gas := by
    refine close_induction (P := fun k => Linked k ∧ Charged cost n payer k gas) ?_ ⟨link, h⟩ m
    rintro k top around hframes ⟨link, h⟩
    exact ⟨link.closeTop hframes, h.closeTop link hframes hx⟩
  exact hboth.2

theorem ConstructorsPay.close (h : ConstructorsPay n payer k) (m : Nat) :
    ConstructorsPay n payer (k.close x m) := by
  refine close_induction ?_ h m
  intro k top around hframes h id t hconstructs
  exact h id t ((constructs_closeTop hframes).1 hconstructs)

end Closing

/-! ### Steps -/

/-- The first `n` steps are charged, and constructors pay for the steps at which they open. -/
def Attributed (src : Sources) (n : Nat) (p : Pass) : Prop :=
  ∃ payer, Charged src.context.trace.costAt n payer p.layout p.tree.gasOf? ∧
    ConstructorsPay n payer p.layout

/-- The step `i` is charged to a constructor that opened there and is innermost. -/
def AtConstructor (src : Sources) (i : Nat) (p : Pass) : Prop :=
  ∃ payer top around, p.layout.frames = top :: around ∧
    Charged src.context.trace.costAt (i + 1) payer p.layout p.tree.gasOf? ∧
    ConstructorsPay (i + 1) payer p.layout ∧ payer i = top.id ∧ Constructs p.layout top.id i

theorem gas_eq_costAt {src : Sources} {i : Nat} {site : Site} (hsite : src.IsSite i site) :
    site.gas = src.context.trace.costAt i := by
  obtain ⟨current, hcurrent, hsite⟩ := hsite
  obtain ⟨-, hcur, hnext, -⟩ := siteAt_eq_ok hsite
  obtain ⟨hi, hget⟩ := List.getElem?_eq_some_iff.1 hcurrent
  rw [Site.gas, hcur, hnext, Trace.costAt, List.drop_eq_getElem_cons hi, hget]
  dsimp only
  rw [List.head?_drop]

section Steps

variable {src : Sources} {site : Site} {n i : Nat} {p q : Pass}

/-- What was charged are amounts of 64 bits, and alike passes agree on these. -/
theorem Charged.of_alike {cost : Nat → Nat} {payer : Nat → ScopeId}
    (h : Charged cost n payer p.layout p.tree.gasOf?) (ha : p.Alike q) :
    Charged cost n payer q.layout q.tree.gasOf? := by
  rw [ha.layout]
  exact ⟨fun ho => ha.gas (Nat.mod_lt _ (by decide)) (h.sums ho), h.covers, h.innermost⟩

theorem Attributed.of_alike (h : Attributed src n p) (ha : p.Alike q) : Attributed src n q := by
  obtain ⟨payer, hcharged, hpay⟩ := h
  exact ⟨payer, hcharged.of_alike ha, ha.layout.symm ▸ hpay⟩

theorem AtConstructor.of_alike (h : AtConstructor src i p) (ha : p.Alike q) :
    AtConstructor src i q := by
  obtain ⟨payer, top, around, hframes, hcharged, hrest⟩ := h
  have hcharged' := hcharged.of_alike ha
  rw [AtConstructor, ha.layout] at *
  exact ⟨payer, top, around, hframes, hcharged', hrest⟩

/-- The innermost scope pays for a step that is charged. -/
theorem Attributed.credit (h : Attributed src i p) (hvalid : Valid src i p) :
    Attributed src (i + 1) (p.credit (src.context.trace.costAt i)) := by
  obtain ⟨payer, hcharged, hpay⟩ := h
  obtain ⟨around, hframes⟩ := p.layout_frames
  have hgas := funext fun id => Pass.gasOf?_credit p (src.context.trace.costAt i) id
  rw [Attributed, Pass.layout_credit, hgas]
  exact ⟨Function.update payer i p.scope, hcharged.charge hvalid.sound hframes,
    hpay.charge p.scope⟩

/-- Opening a function makes of the layout and the gas what opening its scope does. -/
theorem Charged.openFunction {payer : Nat → ScopeId} {x : Nat} {f : FunctionDefinition}
    {kind : ScopeKind}
    (h : Charged src.context.trace.costAt n payer p.layout p.tree.gasOf?)
    (hvalid : Valid src i p) (hx : site.step = x)
    (hinner : ∀ t, t < n → x ≤ t →
      (payer t).contains p.layout.nextId ∧ Constructs p.layout (payer t) t)
    (hopen : p.openFunction src site f kind = .ok q) :
    Charged src.context.trace.costAt n payer q.layout q.tree.gasOf? := by
  obtain ⟨around, hframes⟩ := p.layout_frames
  obtain ⟨a, -, -, -, -, hlayout⟩ := Pass.layout_openFunction hopen
  have hgas := funext fun id => Pass.gasOf?_openFunction hopen id
  have hfresh := hvalid.sound.numbered.fresh hframes
  rw [hlayout, hgas, hx]
  exact (h.openScope hfresh hinner).addActivation a

/-- A function that opens before the step is charged pays for nothing yet. -/
theorem Attributed.enter (h : Attributed src i p) (hvalid : Valid src i p) (hi : site.step = i)
    {f : FunctionDefinition} (hopen : p.openFunction src site f .internalFunction = .ok q) :
    Attributed src i q := by
  obtain ⟨payer, hcharged, hpay⟩ := h
  obtain ⟨a, -, -, -, -, hlayout⟩ := Pass.layout_openFunction hopen
  refine ⟨payer, hcharged.openFunction hvalid hi (fun t ht hle => by omega) hopen, ?_⟩
  rw [hlayout]
  exact (hpay.openScope (by decide)).addActivation a

/-- A constructor that opens pays for the step at which it does. -/
theorem Attributed.construct (h : Attributed src i p) (hvalid : Valid src i p)
    (hi : site.step = i) {f : FunctionDefinition}
    (hopen : p.openFunction src site f .constructor = .ok q) (hnext : Valid src i q) :
    AtConstructor src i (q.credit (src.context.trace.costAt i)) := by
  obtain ⟨payer, hcharged, hpay⟩ := h
  obtain ⟨a, -, -, -, -, hlayout⟩ := Pass.layout_openFunction hopen
  have hq := hcharged.openFunction hvalid hi (fun t ht hle => by omega) hopen
  have hframes : q.layout.frames =
      { id := p.layout.nextId, kind := .constructor, function := some f.id } ::
        Layout.countChild p.layout.frames := by
    rw [hlayout]
    rfl
  have hgas := funext fun id => Pass.gasOf?_credit q (src.context.trace.costAt i) id
  have hscope : q.scope = p.layout.nextId := Pass.scope_of_frames hframes
  have hconstructs : Constructs q.layout p.layout.nextId i := by
    have hnew := scopes_openScope p.layout site.step .constructor site.code (some f.id)
      p.layout.nextId
    rw [if_pos rfl] at hnew
    rw [hlayout]
    exact ⟨_, hnew, rfl, hi⟩
  rw [AtConstructor, Pass.layout_credit, hgas, hscope]
  refine ⟨_, _, _, hframes, hq.charge hnext.sound hframes, ?_, Function.update_self _ _ _,
    hconstructs⟩
  rintro id t ⟨o, ho, hconstructor, hfirst⟩
  replace ho : (p.layout.openScope site.step .constructor site.code (some f.id)).tree.scopes id =
      some o := by
    rw [hlayout] at ho
    exact ho
  rcases of_openScope ho with ⟨rfl, rfl⟩ | ⟨-, ho⟩
  · cases hfirst
    rw [hi, Function.update_self]
    exact ⟨Nat.lt_succ_self i, rfl⟩
  · exact hpay.charge p.layout.nextId id t ⟨o, ho, hconstructor, hfirst⟩

/-- A function that opens in a constructor at the same step does not pay for it. -/
theorem AtConstructor.enter (h : AtConstructor src i p) (hvalid : Valid src i p)
    (hi : site.step = i) {f : FunctionDefinition}
    (hopen : p.openFunction src site f .internalFunction = .ok q) : Attributed src (i + 1) q := by
  obtain ⟨payer, top, around, hframes, hcharged, hpay, hpayer, hconstructs⟩ := h
  obtain ⟨a, -, -, -, -, hlayout⟩ := Pass.layout_openFunction hopen
  refine ⟨payer, hcharged.openFunction hvalid hi ?_ hopen, ?_⟩
  · intro t ht hle
    obtain rfl : t = i := by omega
    rw [hpayer]
    exact ⟨hvalid.sound.linked.contains_nextId hframes (f := top) (by simp [hframes]), hconstructs⟩
  · rw [hlayout]
    exact (hpay.openScope (by decide)).addActivation a

theorem AtConstructor.attributed (h : AtConstructor src i p) : Attributed src (i + 1) p := by
  obtain ⟨payer, -, -, -, hcharged, hpay, -⟩ := h
  exact ⟨payer, hcharged, hpay⟩

theorem Attributed.openCall (h : Attributed src (i + 1) p) (hvalid : Valid src i p)
    (hi : site.step = i) {kind : CodeAddress → ScopeKind}
    (hkind : ∀ c, kind c = .externalCall ∨ kind c = .creation)
    (hopen : p.openCall src site kind = .ok q) : Attributed src (i + 1) q := by
  obtain ⟨payer, hcharged, hpay⟩ := h
  obtain ⟨around, hframes⟩ := p.layout_frames
  obtain ⟨callee, -, hlayout⟩ := Pass.layout_openCall hopen
  have hgas := funext fun id => Pass.gasOf?_openCall hopen id
  have hconstructor : kind callee ≠ .constructor := by
    rcases hkind callee with h | h <;> rw [h] <;> decide
  rw [Attributed, hlayout, hgas, hi]
  exact ⟨payer, hcharged.openScope (hvalid.sound.numbered.fresh hframes)
    (fun t ht hle => by omega), hpay.openScope hconstructor⟩

theorem Attributed.closeCall (h : Attributed src (i + 1) p) (hvalid : Valid src i p) :
    Attributed src (i + 1) (p.closeCall i) := by
  obtain ⟨payer, hcharged, hpay⟩ := h
  have hgas : (p.closeCall i).tree.gasOf? = p.tree.gasOf? :=
    funext fun id => Pass.gasOf?_closeAll _ _ _ id
  rw [Attributed, Pass.layout_closeCall, hgas]
  exact ⟨payer, hcharged.close hvalid.sound.linked (le_refl _) _, hpay.close _⟩

theorem Attributed.closeFunction (h : Attributed src (i + 1) p) (hvalid : Valid src i p)
    (htop : p.scopes.top.kind = .internalFunction) :
    Attributed src (i + 1) (p.closeFunction i) := by
  obtain ⟨payer, hcharged, hpay⟩ := h
  have hgas : (p.closeFunction i).tree.gasOf? = p.tree.gasOf? :=
    funext fun id => Pass.gasOf?_closeFunction p i id
  rw [Attributed, Pass.layout_closeFunction (hvalid.nested_ne_nil htop), hgas]
  exact ⟨payer, hcharged.close hvalid.sound.linked (le_refl _) 1, hpay.close 1⟩

theorem attributed_rules (hsite : src.IsSite i site) :
    Pass.StepRules src site (fun p => Valid src i p ∧ Attributed src i p)
      (fun p => Valid src i p ∧ AtConstructor src i p)
      (fun p => Valid src i p ∧ Attributed src (i + 1) p)
      (fun p => Valid src (i + 1) p ∧ Attributed src (i + 1) p) := by
  have rules := valid_rules hsite
  have hgas := gas_eq_costAt hsite
  obtain ⟨current, -, hsite⟩ := hsite
  have hi := (siteAt_eq_ok hsite).1
  exact {
    alikeA := fun ha h => ⟨rules.alikeA ha h.1, h.2.of_alike ha⟩
    alikeC := fun ha h => ⟨rules.alikeC ha h.1, h.2.of_alike ha⟩
    alikeB := fun ha h => ⟨rules.alikeB ha h.1, h.2.of_alike ha⟩
    enter := fun hopen h => ⟨rules.enter hopen h.1, h.2.enter h.1 hi hopen⟩
    charge := fun h => ⟨rules.charge h.1, hgas ▸ h.2.credit h.1⟩
    construct := fun hopen h => by
      have hcredit := rules.construct hopen h.1
      have hopened := hcredit.of_layout (Pass.layout_credit _ _).symm
      exact ⟨hcredit, hgas ▸ h.2.construct h.1 hi hopen hopened⟩
    enterAgain := fun hopen h => ⟨rules.enterAgain hopen h.1, h.2.enter h.1 hi hopen⟩
    constructed := fun h => ⟨h.1, h.2.attributed⟩
    call := fun hkind hdeep hopen h =>
      ⟨rules.call hkind hdeep hopen h.1, h.2.openCall h.1 hi hkind hopen⟩
    comesBack := fun h => ⟨rules.comesBack h.1, hi ▸ Attributed.closeCall (hi ▸ h.2) (hi ▸ h.1)⟩
    returns := fun htop h =>
      ⟨rules.returns htop h.1, hi ▸ Attributed.closeFunction (hi ▸ h.2) (hi ▸ h.1) htop⟩
    stay := fun h => ⟨rules.stay h.1, h.2⟩ }

end Steps

/-! ### The finished tree -/

/-- The scope that pays for a step: the constructor that opens there, or else the innermost one. -/
def payingScope? (tree : CallTree) (step : Nat) : Option Scope :=
  (tree.allScopes.find? fun s => s.kind == .constructor && s.firstStep == step).or
    (tree.scopeAt? step)

section Finished

variable {src : Sources} {tree : CallTree}

theorem attributed_start {root : CodeAddress} :
    Attributed src 0 (.start root src.context.trace.length) := by
  refine ⟨fun _ => .root, ⟨?_, ?_, ?_⟩, ?_⟩
  · intro id o ho
    rw [Pass.layout_start] at ho
    rw [Finset.sum_range_zero, (of_start ho).1]
    exact (CallTree.gasOf?_openScope _ _ _).trans (if_pos rfl)
  · intro t ht
    exact absurd ht (Nat.not_lt_zero _)
  · intro t id o ht
    exact absurd ht (Nat.not_lt_zero _)
  · rintro id t ⟨o, ho, hconstructor, -⟩
    rw [Pass.layout_start] at ho
    rw [(of_start ho).2] at hconstructor
    cases hconstructor

theorem exists_charged (h : src.build = .ready tree) : ∃ payer k, k.tree = tree.skeleton ∧
    Charged src.context.trace.costAt src.context.trace.length payer k tree.gasOf? ∧
    ConstructorsPay src.context.trace.length payer k := by
  have hpos : 0 < src.context.trace.length := List.length_pos_iff.2 (build_eq_ready h).1
  obtain ⟨q, ⟨hvalid, payer, hcharged, hpay⟩, rfl⟩ :=
    build_induction (P := fun i p => Valid src i p ∧ Attributed src i p) h
      (fun hne hroot => ⟨valid_start hne hroot, attributed_start⟩)
      (fun hsite hp hstep => (attributed_rules hsite).step hstep hp)
  have hcount : q.tree.stepCount = src.context.trace.length := hvalid.sound.stepCount
  have hgas : q.close.gasOf? = q.tree.gasOf? := funext fun id => Pass.gasOf?_closeAll _ _ _ id
  refine ⟨payer, _, q.layout_finish.2, ?_, hpay.close _⟩
  rw [hgas, hcount]
  exact hcharged.close hvalid.sound.linked (Nat.sub_add_cancel hpos).ge _

/-- What is known of the scopes that pay for the steps of a finished tree. -/
structure Payers (src : Sources) (tree : CallTree) (payer : Nat → ScopeId) : Prop where
  sums : ∀ {id s}, tree.scope? id = some s → s.gasCost =
    (∑ t ∈ Finset.range src.context.trace.length,
      if payer t = id then src.context.trace.costAt t else 0) % Text.bound64
  covers : ∀ {t}, t < src.context.trace.length →
    ∃ s, tree.scope? (payer t) = some s ∧ s.contains t
  innermost : ∀ {t id s}, t < src.context.trace.length → tree.scope? id = some s → s.contains t →
    id.contains (payer t) ∨ (payer t).contains id ∧
      ∃ r, tree.scope? (payer t) = some r ∧ r.kind = .constructor ∧ r.firstStep = t
  constructors : ∀ {id s}, tree.scope? id = some s → s.kind = .constructor →
    payer s.firstStep = id

theorem exists_payers (h : src.build = .ready tree) : ∃ payer, Payers src tree payer := by
  obtain ⟨payer, k, htree, hcharged, hpay⟩ := exists_charged h
  have hfind : ∀ {id s}, tree.scope? id = some s → k.tree.scopes id = some s.outline :=
    CallTree.outline_of_scope? htree
  have hscope : ∀ {id o}, k.tree.scopes id = some o →
      ∃ s, tree.scope? id = some s ∧ s.outline = o := CallTree.exists_scope?_of_outline htree
  refine ⟨payer, ?_, ?_, ?_, ?_⟩
  · intro id s hs
    have hsum := hcharged.sums (hfind hs)
    rw [CallTree.gasOf?, hs] at hsum
    exact Option.some.inj hsum
  · intro t ht
    obtain ⟨o, ho, hcov⟩ := hcharged.covers ht
    obtain ⟨s, hs, rfl⟩ := hscope ho
    exact ⟨s, hs, hcov⟩
  · intro t id s ht hs hcov
    rcases hcharged.innermost ht (hfind hs) hcov with hin | ⟨hin, o, ho, hkind, hfirst⟩
    · exact .inl hin
    · obtain ⟨r, hr, rfl⟩ := hscope ho
      exact .inr ⟨hin, r, hr, hkind, hfirst⟩
  · intro id s hs hkind
    exact (hpay id s.firstStep ⟨s.outline, hfind hs, hkind, rfl⟩).2

namespace Payers

variable {payer : Nat → ScopeId} {t : Nat} {s : Scope}

/-- The scope that pays is innermost, or a constructor that opens at the step; then the innermost
scope is no other constructor. -/
theorem payingScope?_cases (pay : Payers src tree payer) (wf : tree.WellFormed)
    (hcount : tree.stepCount = src.context.trace.length) (ht : t < src.context.trace.length) :
    ∃ s, payingScope? tree t = some s ∧ tree.scope? (payer t) = some s ∧
      (tree.scopeAt? t = some s ∨ s.kind = .constructor ∧ s.firstStep = t ∧
        ∀ d, tree.scopeAt? t = some d → d.kind = .constructor → d = s) := by
  obtain ⟨d, hd, hin⟩ := wf.scopeAt?_innermost (hcount.symm ▸ ht)
  obtain ⟨r, hr, hcov⟩ := pay.covers ht
  rw [payingScope?]
  cases hfind : tree.allScopes.find? fun s => s.kind == .constructor && s.firstStep == t with
  | some s =>
    have hmem := List.mem_of_find?_eq_some hfind
    have hpred := List.find?_some hfind
    simp only [Bool.and_eq_true, beq_iff_eq] at hpred
    obtain ⟨id, hs⟩ := SortedMap.mem_values_iff.1 hmem
    have hpayer : payer t = id := hpred.2 ▸ pay.constructors hs hpred.1
    refine ⟨s, rfl, hpayer ▸ hs, .inr ⟨hpred.1, hpred.2, ?_⟩⟩
    intro d' hd' hkind
    rw [hd] at hd'
    cases hd'
    -- Both open at the step, where one constructor pays.
    have hle := wf.firstStep_le_of_contains hs hin.found
      (hin.deepest hs (hpred.2 ▸ wf.contains_firstStep hs))
    have hfirst : d.firstStep = t := by
      obtain ⟨l, -, hiff⟩ := wf.contains_iff hin.found
      have := (hiff t).1 hin.covers
      omega
    have hid := pay.constructors hin.found hkind
    rw [hfirst, hpayer] at hid
    have hfound := hin.found
    rw [← hid] at hfound
    exact Option.some.inj (hfound.symm.trans hs)
  | none =>
    have hd' : d = r := by
      have hout := hin.deepest hr hcov
      rcases pay.innermost ht hin.found hin.covers with h | ⟨-, q, hq, hkind, hfirst⟩
      · have hid := ScopeId.contains_antisymm h hout
        have hfound := hin.found
        rw [hid, hr] at hfound
        exact (Option.some.inj hfound).symm
      · have hno := List.find?_eq_none.1 hfind q (SortedMap.mem_values_iff.2 ⟨_, hq⟩)
        simp [hkind, hfirst] at hno
    subst hd'
    exact ⟨d, by rw [hd]; rfl, hr, .inl hd⟩

theorem payingScope?_eq_iff (pay : Payers src tree payer) (wf : tree.WellFormed)
    (hcount : tree.stepCount = src.context.trace.length) (ht : t < src.context.trace.length)
    {id : ScopeId} (hs : tree.scope? id = some s) :
    payingScope? tree t = some s ↔ payer t = id := by
  obtain ⟨r, hpays, hr, -⟩ := pay.payingScope?_cases wf hcount ht
  constructor
  · intro h
    rw [hpays] at h
    cases h
    rw [← wf.keyed hr, wf.keyed hs]
  · rintro rfl
    rw [hr] at hs
    cases hs
    exact hpays

theorem gasCost_eq (pay : Payers src tree payer) (wf : tree.WellFormed)
    (hcount : tree.stepCount = src.context.trace.length) {id : ScopeId}
    (hs : tree.scope? id = some s) :
    s.gasCost = (∑ t ∈ Finset.range src.context.trace.length with payingScope? tree t = some s,
      src.context.trace.costAt t) % Text.bound64 := by
  rw [pay.sums hs, Finset.sum_filter]
  congr 1
  refine Finset.sum_congr rfl ?_
  intro t ht
  simp only [pay.payingScope?_eq_iff wf hcount (Finset.mem_range.1 ht) hs]

/-- When the steps at which constructors open but are not innermost are free, it makes no difference
whether the innermost scope pays. -/
theorem sum_innermost (pay : Payers src tree payer) (wf : tree.WellFormed)
    (hcount : tree.stepCount = src.context.trace.length)
    (hfree : ∀ id s, tree.scope? id = some s → s.kind = .constructor →
      tree.scopeAt? s.firstStep = some s ∨
        src.context.trace.costAt s.firstStep % Text.bound64 = 0) (s : Scope) :
    (∑ t ∈ Finset.range src.context.trace.length with payingScope? tree t = some s,
      src.context.trace.costAt t) % Text.bound64 =
    (∑ t ∈ Finset.range src.context.trace.length with tree.scopeAt? t = some s,
      src.context.trace.costAt t) % Text.bound64 := by
  rw [Finset.sum_filter, Finset.sum_filter]
  refine Nat.ModEq.sum fun t ht => ?_
  obtain ⟨r, hpays, hr, hin | ⟨hkind, rfl, -⟩⟩ :=
    pay.payingScope?_cases wf hcount (Finset.mem_range.1 ht)
  · rw [hpays, hin]
  · rcases hfree _ r hr hkind with hin | hzero
    · rw [hpays, hin]
    · rw [Nat.ModEq, apply_ite (· % Text.bound64), apply_ite (· % Text.bound64), hzero,
        Nat.zero_mod, ite_self, ite_self]

/-- Of a scope that is no constructor but innermost where one opens, that step is the first. -/
theorem firstStep_of_constructor (pay : Payers src tree payer) (wf : tree.WellFormed)
    (hcount : tree.stepCount = src.context.trace.length) (ht : t < src.context.trace.length)
    {d : Scope} (hd : tree.scopeAt? t = some d) (hpays : payingScope? tree t ≠ some d) :
    d.firstStep = t := by
  obtain ⟨r, hr, hfound, hin | ⟨hkind, rfl, -⟩⟩ := pay.payingScope?_cases wf hcount ht
  · exact absurd (hr.trans (hin.symm.trans hd)) hpays
  · obtain ⟨d', hd', hin⟩ := wf.scopeAt?_innermost (hcount.symm ▸ ht)
    rw [hd] at hd'
    cases hd'
    -- The constructor is around the innermost scope, so it does not open later than that.
    have hle := wf.firstStep_le_of_contains hfound hin.found
      (hin.deepest hfound (wf.contains_firstStep hfound))
    obtain ⟨l, -, hiff⟩ := wf.contains_iff hin.found
    have := (hiff _).1 hin.covers
    omega

/-- The innermost scope is no constructor either where it does not pay. -/
theorem kind_ne_constructor (pay : Payers src tree payer) (wf : tree.WellFormed)
    (hcount : tree.stepCount = src.context.trace.length) (ht : t < src.context.trace.length)
    {d : Scope} (hd : tree.scopeAt? t = some d) (hpays : payingScope? tree t ≠ some d) :
    d.kind ≠ .constructor := by
  intro hkind
  obtain ⟨r, hr, -, hin | ⟨-, -, hother⟩⟩ := pay.payingScope?_cases wf hcount ht
  · exact hpays (hr.trans (hin.symm.trans hd))
  · exact hpays (hr.trans (congrArg some (hother d hd hkind).symm))

/-- A step at which a constructor opens but is not innermost is missing from the gas of the
innermost scope, and no other step is. -/
theorem sum_innermost_eq_add (pay : Payers src tree payer) (wf : tree.WellFormed)
    (hcount : tree.stepCount = src.context.trace.length) {id : ScopeId} {d : Scope}
    (hs : tree.scope? id = some s) (hkind : s.kind = .constructor)
    (hd : tree.scopeAt? s.firstStep = some d) (hne : d ≠ s) :
    (∑ t ∈ Finset.range src.context.trace.length with tree.scopeAt? t = some d,
      src.context.trace.costAt t) =
    (∑ t ∈ Finset.range src.context.trace.length with payingScope? tree t = some d,
      src.context.trace.costAt t) + src.context.trace.costAt s.firstStep := by
  have hstep : s.firstStep < src.context.trace.length := by
    by_contra hge
    rw [CallTree.scopeAt?_eq_none (by omega)] at hd
    cases hd
  have hpays : payingScope? tree s.firstStep = some s :=
    (pay.payingScope?_eq_iff wf hcount hstep hs).2 (pay.constructors hs hkind)
  have hother : payingScope? tree s.firstStep ≠ some d := fun h =>
    hne (Option.some.inj (h.symm.trans hpays))
  have hfirst := pay.firstStep_of_constructor wf hcount hstep hd hother
  have hbody := pay.kind_ne_constructor wf hcount hstep hd hother
  -- The innermost scope pays where it is innermost, the step apart.
  have hsteps : {t ∈ Finset.range src.context.trace.length | tree.scopeAt? t = some d} =
      insert s.firstStep
        {t ∈ Finset.range src.context.trace.length | payingScope? tree t = some d} := by
    ext t
    simp only [Finset.mem_filter, Finset.mem_range, Finset.mem_insert]
    constructor
    · rintro ⟨ht, hin⟩
      by_cases hpay : payingScope? tree t = some d
      · exact .inr ⟨ht, hpay⟩
      · exact .inl ((pay.firstStep_of_constructor wf hcount ht hin hpay).symm.trans hfirst)
    · rintro (rfl | ⟨ht, hpay⟩)
      · exact ⟨hstep, hd⟩
      · obtain ⟨r, hr, -, hin | ⟨hconstructor, -⟩⟩ := pay.payingScope?_cases wf hcount ht
        · exact ⟨ht, hin.trans (hr.symm.trans hpay)⟩
        · rw [hpay] at hr
          cases hr
          exact absurd hconstructor hbody
  rw [hsteps, Finset.sum_insert (by simp [hother]), Nat.add_comm]

end Payers

/-- The gas of a scope is the sum over the steps that it pays for: those whose innermost scope it
is, and for a constructor the step at which it opens. It is the sum over the steps whose innermost
scope it is, for all scopes, exactly when each constructor is innermost at the step at which it
opens or that step is free. All sums are taken in 64 bits, so they are exact up to that bound. -/
theorem build_gasCost (src : Sources) (tree : CallTree) (h : src.build = .ready tree) :
    (∀ id s, tree.scope? id = some s → s.gasCost =
      (∑ t ∈ Finset.range src.context.trace.length with payingScope? tree t = some s,
        src.context.trace.costAt t) % Text.bound64) ∧
    ((∀ id s, tree.scope? id = some s → s.gasCost =
        (∑ t ∈ Finset.range src.context.trace.length with tree.scopeAt? t = some s,
          src.context.trace.costAt t) % Text.bound64) ↔
      ∀ id s, tree.scope? id = some s → s.kind = .constructor →
        tree.scopeAt? s.firstStep = some s ∨
          src.context.trace.costAt s.firstStep % Text.bound64 = 0) := by
  obtain ⟨wf, -, hcount⟩ := wellFormed_of_build h
  obtain ⟨payer, pay⟩ := exists_payers h
  refine ⟨?_, ?_, ?_⟩
  · intro id s hs
    exact pay.gasCost_eq wf hcount hs
  · intro hsums id s hs hkind
    obtain ⟨l, hl, hle, hlast⟩ := wf.closed hs
    have hpos : 0 < src.context.trace.length := List.length_pos_iff.2 (build_eq_ready h).1
    obtain ⟨d, hd, hin⟩ := wf.scopeAt?_innermost (show s.firstStep < tree.stepCount by omega)
    by_cases hne : d = s
    · exact .inl (hne ▸ hd)
    · -- What the innermost scope misses is the cost of the step.
      have hsum := (hsums _ d hin.found).symm.trans (pay.gasCost_eq wf hcount hin.found)
      rw [pay.sum_innermost_eq_add wf hcount hs hkind hd hne] at hsum
      exact .inr (Nat.ModEq.add_left_cancel' (b := 0) _ hsum)
  · intro hfree id s hs
    rw [pay.gasCost_eq wf hcount hs]
    exact pay.sum_innermost wf hcount hfree s

end Finished

/-- In the sample the function `g` opens at the step at which the constructor does, so the gas of
that step is missing from the innermost scope. -/
theorem build_gasCost_sample : ∃ tree, sampleSources.build = .ready tree ∧
    (∀ id s, tree.scope? id = some s → s.gasCost =
      (∑ t ∈ Finset.range sampleSources.context.trace.length with payingScope? tree t = some s,
        sampleSources.context.trace.costAt t) % Text.bound64) ∧
    ¬ ∀ id s, tree.scope? id = some s → s.gasCost =
      (∑ t ∈ Finset.range sampleSources.context.trace.length with tree.scopeAt? t = some s,
        sampleSources.context.trace.costAt t) % Text.bound64 := by
  obtain ⟨tree, h⟩ := Outcome.exists_of_isReady isReady_sample
  obtain ⟨hpays, hiff⟩ := build_gasCost sampleSources tree h
  refine ⟨tree, h, hpays, ?_⟩
  intro hsums
  have hconstructor : sampleSources.build.tree?.all (fun t => t.allScopes.any fun s =>
      s.kind == .constructor && t.scopeAt? s.firstStep != some s &&
        sampleSources.context.trace.costAt s.firstStep % Text.bound64 != 0) := by decide +kernel
  rw [h, Outcome.tree?, Option.all_some, List.any_eq_true] at hconstructor
  obtain ⟨s, hmem, hs⟩ := hconstructor
  simp only [Bool.and_eq_true, beq_iff_eq, bne_iff_ne] at hs
  obtain ⟨id, hid⟩ := SortedMap.mem_values_iff.1 hmem
  rcases hiff.1 hsums id s hid hs.1.1 with hin | hfree
  · exact hs.1.2 hin
  · exact hs.2 hfree

end TraceTree.Build
