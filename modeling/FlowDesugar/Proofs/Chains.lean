import FlowDesugar.Proofs.Arenas

/-!
# The scopes around a scope

In an arena whose scopes were all opened inside older ones (`Scopes.Grounded`), the chain of a scope
goes on from parent to parent until there is none. `Scopes.chain` has a bound on its steps, which is
never reached there: `Scopes.chain_of_some` and `Scopes.chain_of_none` are the equations of a chain
without one.

From these, `Scopes.isInside` is what its name says. It holds of a scope and itself
(`isInside_refl`) and passes from a parent to its children (`isInside_of_parent?`), a scope that
lies inside another is not older (`index_le_of_isInside`), and nothing of this is lost when more
scopes are opened (`Extends.isInside`).
-/

namespace FlowDesugar

namespace Scopes

/-- Every scope of the arena was opened inside an older one. -/
def Grounded (scopes : Scopes) : Prop :=
  ∀ s outer, scopes.parent? s = some outer → outer.index < s.index

theorem grounded_fresh : fresh.Grounded := by
  intro s outer h
  have hlt : s.index < 1 := index_lt_of_parent? h
  have hs : s = ⟨0⟩ := by
    cases s
    exact congrArg ScopeId.mk (Nat.lt_one_iff.mp hlt)
  subst hs
  cases h

/-- A scope opened inside a known one keeps the arena grounded. -/
theorem Grounded.child {scopes : Scopes} (h : scopes.Grounded) {parent : ScopeId}
    (hparent : parent.index < scopes.size) : (scopes.child parent).2.Grounded := by
  obtain ⟨hfresh, hsize, hnew, hothers⟩ := opened_child scopes parent
  intro s outer hs
  by_cases hold : s.index < scopes.size
  · rw [hothers s hold] at hs
    exact h s outer hs
  · -- the scope is the new one, and its parent was there before
    have hlt := index_lt_of_parent? hs
    have hindex : s.index = scopes.size := by omega
    have hsame : s = (scopes.child parent).1 := by
      cases s
      exact congrArg ScopeId.mk hindex
    rw [hsame, hnew] at hs
    obtain rfl := Option.some.inj hs
    rwa [hindex]

/-! ### Chains -/

section Grounded

variable {scopes : Scopes}

theorem chainWithin_of_none {bound : Nat} {s : ScopeId} (h : scopes.parent? s = none) :
    scopes.chainWithin bound s = [s] := by
  unfold chainWithin
  rw [h]

theorem chainWithin_succ_of_some {bound : Nat} {s outer : ScopeId}
    (h : scopes.parent? s = some outer) :
    scopes.chainWithin (bound + 1) s = s :: scopes.chainWithin bound outer := by
  rw [chainWithin.eq_def, h]

/-- A bound that is no smaller than the number of the scope does not cut its chain. -/
theorem Grounded.chainWithin_eq (hg : scopes.Grounded) {bound bound' : Nat} {s : ScopeId}
    (h : s.index ≤ bound) (h' : s.index ≤ bound') :
    scopes.chainWithin bound s = scopes.chainWithin bound' s := by
  -- the chain goes to smaller and smaller numbers, so both bounds outlast it
  induction bound generalizing bound' s with
  | zero =>
    have hnone : scopes.parent? s = none := by
      cases hs : scopes.parent? s with
      | none => rfl
      | some outer =>
        have hlt := hg s outer hs
        omega
    rw [chainWithin_of_none hnone, chainWithin_of_none hnone]
  | succ bound ih =>
    cases hs : scopes.parent? s with
    | none => rw [chainWithin_of_none hs, chainWithin_of_none hs]
    | some outer =>
      have hlt := hg s outer hs
      obtain ⟨bound', rfl⟩ : ∃ n, bound' = n + 1 := ⟨bound' - 1, by omega⟩
      rw [chainWithin_succ_of_some hs, chainWithin_succ_of_some hs]
      rw [ih (by omega) (Nat.le_of_lt_succ (Nat.lt_of_lt_of_le hlt h'))]

theorem chain_of_none {s : ScopeId} (h : scopes.parent? s = none) : scopes.chain s = [s] :=
  chainWithin_of_none h

theorem Grounded.chain_of_some (hg : scopes.Grounded) {s outer : ScopeId}
    (h : scopes.parent? s = some outer) : scopes.chain s = s :: scopes.chain outer := by
  have hlt := index_lt_of_parent? h
  have houter := hg s outer h
  obtain ⟨n, hn⟩ : ∃ n, scopes.size = n + 1 := ⟨scopes.size - 1, by omega⟩
  have hcut : scopes.chainWithin n outer = scopes.chainWithin scopes.size outer :=
    hg.chainWithin_eq (by omega) (by omega)
  calc scopes.chain s = scopes.chainWithin (n + 1) s := by rw [chain, hn]
    _ = s :: scopes.chainWithin n outer := chainWithin_succ_of_some h
    _ = s :: scopes.chain outer := by rw [hcut, chain]

/-! ### Being inside -/

theorem isInside_iff_mem_chain {inner outer : ScopeId} :
    scopes.isInside inner outer ↔ outer ∈ scopes.chain inner := by
  unfold isInside
  rw [List.contains_iff_mem]

theorem isInside_refl (s : ScopeId) : scopes.isInside s s := by
  rw [isInside_iff_mem_chain, chain]
  unfold chainWithin
  split <;> exact List.mem_cons_self

/-- What a scope lies inside is the scope itself, or something that its parent lies inside. -/
theorem Grounded.isInside_iff (hg : scopes.Grounded) {inner outer : ScopeId} :
    scopes.isInside inner outer ↔
      outer = inner ∨
        ∃ parent, scopes.parent? inner = some parent ∧ scopes.isInside parent outer := by
  simp only [isInside_iff_mem_chain]
  cases h : scopes.parent? inner with
  | none => simp [chain_of_none h]
  | some parent => simp [hg.chain_of_some h]

theorem Grounded.isInside_of_parent? (hg : scopes.Grounded) {inner parent outer : ScopeId}
    (h : scopes.parent? inner = some parent) (hp : scopes.isInside parent outer) :
    scopes.isInside inner outer :=
  hg.isInside_iff.mpr (.inr ⟨parent, h, hp⟩)

theorem Grounded.isInside_parent (hg : scopes.Grounded) {inner parent : ScopeId}
    (h : scopes.parent? inner = some parent) : scopes.isInside inner parent :=
  hg.isInside_of_parent? h (isInside_refl parent)

/-- **Induction along a chain**, from a scope that lies inside `outer` up to `outer`. -/
theorem Grounded.isInside_induction (hg : scopes.Grounded) {outer : ScopeId}
    {motive : ScopeId → Prop} (here : motive outer)
    (step : ∀ s parent, scopes.parent? s = some parent → motive parent → motive s)
    {inner : ScopeId} (h : scopes.isInside inner outer) : motive inner := by
  obtain ⟨n, hn⟩ : ∃ n, inner.index = n := ⟨_, rfl⟩
  induction n using Nat.strongRecOn generalizing inner with
  | ind n ih =>
    obtain rfl | ⟨parent, hparent, hinside⟩ := hg.isInside_iff.mp h
    · exact here
    · have hlt := hg inner parent hparent
      exact step inner parent hparent (ih parent.index (hn ▸ hlt) hinside rfl)

theorem Grounded.isInside_trans (hg : scopes.Grounded) {inner middle outer : ScopeId}
    (h : scopes.isInside inner middle) (h' : scopes.isInside middle outer) :
    scopes.isInside inner outer :=
  hg.isInside_induction h' (fun _ _ hparent ih => hg.isInside_of_parent? hparent ih) h

/-- A scope is no older than one that it lies inside. -/
theorem Grounded.index_le_of_isInside (hg : scopes.Grounded) {inner outer : ScopeId}
    (h : scopes.isInside inner outer) : outer.index ≤ inner.index := by
  refine hg.isInside_induction (motive := fun s => outer.index ≤ s.index) (Nat.le_refl _) ?_ h
  intro s parent hparent ih
  exact Nat.le_of_lt (Nat.lt_of_le_of_lt ih (hg s parent hparent))

end Grounded

/-- What lies inside a scope still does when more scopes are opened. -/
theorem Extends.isInside {after before : Scopes} (h : after.Extends before)
    (hbefore : before.Grounded) (hafter : after.Grounded) {inner outer : ScopeId}
    (hinside : before.isInside inner outer) : after.isInside inner outer := by
  refine hbefore.isInside_induction (motive := (after.isInside · outer)) (isInside_refl outer) ?_
    hinside
  intro s parent hparent ih
  exact hafter.isInside_of_parent? (h.parent?_eq_some hparent) ih

end Scopes

end FlowDesugar
