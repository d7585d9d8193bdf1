import TraceTree.Proofs.Build.Step

/-!
What opening, closing and charging scopes leaves alone. A reading of passes that does not look at
scopes, activations and variables stays the same while a step advances (`Untouched.advance`), so
what else a pass keeps is told by the few changes that a step makes before it advances.
-/
namespace TraceTree.Build

namespace Pass

/-- A reading of passes that scopes, activations and variables do not change. -/
structure Untouched {α : Type} (f : Pass → α) : Prop where
  scopes : ∀ p opened, f { p with scopes := opened } = f p
  openScope : ∀ p s, f { p with tree := p.tree.openScope s } = f p
  closeScope : ∀ p id lastStep, f { p with tree := p.tree.closeScope id lastStep } = f p
  creditGas : ∀ p id gas, f { p with tree := p.tree.creditGas id gas } = f p
  addActivation : ∀ p a, f { p with tree := p.tree.addActivation a } = f p
  addVariable : ∀ p r, f { p with tree := p.tree.addVariable r } = f p

namespace Untouched

variable {α : Type} {f : Pass → α} {p q : Pass} {src : Sources} {site : Site}

theorem credit (h : Untouched f) (p : Pass) (gas : Nat) : f (p.credit gas) = f p :=
  h.creditGas p p.scope gas

/-- The last valid location is kept with the open scopes. -/
theorem noteValid (h : Untouched f) (p : Pass) (site : Site) : f (p.noteValid site) = f p := by
  rw [Pass.noteValid]
  split
  · exact h.scopes p _
  · rfl

theorem addVariables (h : Untouched f) (p : Pass) (records : List VariableRecord) :
    f { p with tree := p.tree.addVariables records } = f p := by
  rw [CallTree.addVariables]
  induction records generalizing p with
  | nil => rfl
  | cons r records ih => exact (ih { p with tree := p.tree.addVariable r }).trans (h.addVariable p r)

/-- Local variables that are declared are only added. -/
theorem declareLocals (h : Untouched f) (hq : p.declareLocals src site = .ok q) : f q = f p := by
  rw [Pass.declareLocals] at hq
  split at hq
  · cases hq
    rfl
  · obtain ⟨n, -, hq⟩ := bind_eq_ok.1 hq
    cases hq
    exact h.addVariables p _

/-! ### Opening -/

/-- A scope that opens changes the open scopes and then the tree. -/
theorem opened (h : Untouched f) {step firstStep : Nat} {kind : ScopeKind} {code : CodeAddress}
    {function : Option Nat} (hq : p.openScope src step firstStep kind code function = .ok q) :
    f q = f p := by
  rw [Pass.openScope] at hq
  split at hq
  · cases hq
  · cases hq
    exact (h.scopes { p with tree := p.tree.openScope _ } _).trans (h.openScope p _)

/-- A function opens with its scope, its parameters and its activation. -/
theorem openFunction (h : Untouched f) {g : FunctionDefinition} {kind : ScopeKind}
    (hq : p.openFunction src site g kind = .ok q) : f q = f p := by
  obtain ⟨r, hopen, hq⟩ := bind_eq_ok.1 hq
  obtain ⟨n, -, hq⟩ := bind_eq_ok.1 hq
  cases hq
  let registered := (g.registerParameters n site.step r.scope).records
  exact (h.addActivation { r with tree := r.tree.addVariables registered } _).trans
    ((h.addVariables r registered).trans (h.opened hopen))

theorem openCall (h : Untouched f) {kind : CodeAddress → ScopeKind}
    (hq : p.openCall src site kind = .ok q) : f q = f p := by
  obtain ⟨callee, -, hq⟩ := bind_eq_ok.1 hq
  exact h.opened hq

theorem enter (h : Untouched f) {entry : Option Nat} {opened : Bool}
    (hq : p.enter src site entry = .ok (q, opened)) : f q = f p := by
  rcases enter_cases hq with ⟨rfl, -⟩ | ⟨g, -, -, -, hopen⟩
  · rfl
  · exact h.openFunction hopen

/-! ### Closing -/

/-- Several scopes are closed one by one. -/
theorem closeAll (h : Untouched f) (p : Pass) (scopes : List OpenScope) (lastStep : Nat) :
    f { p with tree := Pass.closeAll p.tree scopes lastStep } = f p := by
  induction scopes generalizing p with
  | nil => rfl
  | cons s scopes ih =>
    exact (ih { p with tree := p.tree.closeScope s.id lastStep }).trans (h.closeScope p s.id lastStep)

theorem closeCall (h : Untouched f) (p : Pass) (lastStep : Nat) : f (p.closeCall lastStep) = f p :=
  (h.scopes { p with tree := Pass.closeAll p.tree _ lastStep } _).trans (h.closeAll p _ lastStep)

/-- A function that closes may hand its last valid location back, which is kept with the scopes. -/
theorem closeFunction (h : Untouched f) (p : Pass) (lastStep : Nat) :
    f (p.closeFunction lastStep) = f p := by
  rw [Pass.closeFunction]
  split
  · rfl
  · rename_i inner outer hnested
    have hclosed : f { p with
        scopes := { p.scopes with nested := outer }
        tree := p.tree.closeScope inner.id lastStep } = f p :=
      (h.scopes { p with tree := p.tree.closeScope inner.id lastStep } _).trans
        (h.closeScope p inner.id lastStep)
    dsimp only
    split
    · exact (h.scopes _ _).trans hclosed
    · exact hclosed

/-! ### Steps -/

/-- Whatever a charged step does besides keeps the reading. -/
theorem leaves (h : Untouched f) {opened : Bool} (hq : p.Leaves src site opened q) : f q = f p := by
  cases hq with
  | comesBack => exact h.closeCall p _
  | goesDeeper _ _ hopen => exact h.openCall hopen
  | opened => rfl
  | returns => exact h.closeFunction p _
  | declares _ _ _ _ hlocals =>
    rcases hlocals with rfl | hlocals
    · rfl
    · exact h.declareLocals hlocals

/-- A step keeps the reading while it advances, with or without a call. -/
theorem advance (h : Untouched f) {entry : Option Nat} {gas : Nat}
    (hq : p.advance src site entry gas = .ok q) : f q = f p := by
  rcases advance_cases hq with ⟨-, -, hopen⟩ | ⟨-, r, opened, henter, hleaves⟩
  · exact (h.openCall hopen).trans (h.credit p gas)
  · exact (h.leaves hleaves).trans ((h.credit r gas).trans (h.enter henter))

end Untouched

end Pass

end TraceTree.Build
