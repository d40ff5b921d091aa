import Mathlib.Data.List.Chain
import FlowDesugar.Proofs.Chains

/-!
# The scopes of an arena form a tree

Nothing checks the parent that a scope is opened inside. An arena whose clients only use scopes that
it has given them is nevertheless a tree, and the chains that follow parents end.

* `Scopes.Openings` — a run of a client: scopes are opened one after another, each inside one that
  the arena has by then;
* `Scopes.Rooted` — the invariant: scopes are opened inside older ones, and the root is the only one
  that has no parent. `Scopes.Rooted.child` is the step and `Scopes.Openings.rooted` the run;
* `Scopes.Grounded.induction` — induction from the root outwards, by which the laws of chains follow
  from the two equations of a chain;
* `Scopes.openings_form_tree` — all this together, for every run that starts with the root alone.
-/

namespace FlowDesugar

namespace Scopes

/-! ### Runs -/

/-- The client of an arena opens scopes: it starts with `before`, is given the scopes `opened`, in
order, and ends with the last arena. Every scope is opened inside one that is there by then. -/
inductive Openings (before : Scopes) : List ScopeId → Scopes → Prop
  | start : Openings before [] before
  | child {opened : List ScopeId} {scopes : Scopes} {parent : ScopeId} :
    Openings before opened scopes → parent ∈ scopes.ids →
    Openings before (opened ++ [(scopes.child parent).1]) (scopes.child parent).2

namespace Openings

variable {before after : Scopes} {opened : List ScopeId}

/-- A run keeps the parents of the scopes that were there. -/
theorem extends_before (h : before.Openings opened after) : after.Extends before := by
  induction h with
  | start => exact .refl before
  | child _ _ ih => exact ih.trans (extends_child _ _)

/-- The scopes that a client is given are those that the arena has gained. -/
theorem added_eq (h : before.Openings opened after) : before.added after = opened := by
  induction h with
  | start => exact added_self before
  | @child opened scopes parent hrun _ ih =>
    have hle := hrun.extends_before.size_le
    have hle' := (extends_child scopes parent).size_le
    rw [← added_append hle hle', ih, added_child]

end Openings

/-! ### The invariant -/

/-- Every scope was opened inside an older one, but for the root, which has no parent. -/
structure Rooted (scopes : Scopes) : Prop where
  grounded : scopes.Grounded
  root_mem : root ∈ scopes.ids
  exists_parent : ∀ s ∈ scopes.ids, s ≠ root → ∃ outer, scopes.parent? s = some outer

theorem rooted_fresh : fresh.Rooted where
  grounded := grounded_fresh
  root_mem := mem_ids.mpr Nat.one_pos
  exists_parent := by
    intro s hs hne
    -- there is no other scope
    have hlt : s.index < 1 := mem_ids.mp hs
    refine absurd ?_ hne
    cases s
    exact congrArg ScopeId.mk (Nat.lt_one_iff.mp hlt)

/-- **One step**: a scope opened inside a known one keeps the arena rooted. -/
theorem Rooted.child {scopes : Scopes} (h : scopes.Rooted) {parent : ScopeId}
    (hparent : parent ∈ scopes.ids) : (scopes.child parent).2.Rooted := by
  obtain ⟨-, hsize, hnew, hothers⟩ := opened_child scopes parent
  constructor
  case grounded => exact h.grounded.child (mem_ids.mp hparent)
  case root_mem =>
    have hroot := mem_ids.mp h.root_mem
    rw [mem_ids, hsize]
    omega
  case exists_parent =>
    intro s hs hne
    rw [mem_ids, hsize] at hs
    by_cases hold : s.index < scopes.size
    · rw [hothers s hold]
      exact h.exists_parent s (mem_ids.mpr hold) hne
    · -- the scope is the new one
      have hsame : s = (scopes.child parent).1 := by
        cases s
        exact congrArg ScopeId.mk (Nat.le_antisymm (Nat.le_of_lt_succ hs) (Nat.le_of_not_lt hold))
      exact ⟨parent, hsame ▸ hnew⟩

/-- **A whole run** keeps the arena rooted. -/
theorem Openings.rooted {before after : Scopes} {opened : List ScopeId}
    (h : before.Openings opened after) (hbefore : before.Rooted) : after.Rooted := by
  induction h with
  | start => exact hbefore
  | child _ hparent ih => exact ih.child hparent

/-! ### Chains -/

section Chains

variable {scopes : Scopes}

/-- **Induction from the outside in**: over the scopes without a parent, and from a parent to the
scopes opened inside it. -/
theorem Grounded.induction (hg : scopes.Grounded) {motive : ScopeId → Prop}
    (outermost : ∀ s, scopes.parent? s = none → motive s)
    (inside : ∀ s outer, scopes.parent? s = some outer → motive outer → motive s)
    (s : ScopeId) : motive s := by
  obtain ⟨n, hn⟩ : ∃ n, s.index = n := ⟨_, rfl⟩
  induction n using Nat.strongRecOn generalizing s with
  | ind n ih =>
    cases hs : scopes.parent? s with
    | none => exact outermost s hs
    | some outer => exact inside s outer hs (ih outer.index (hn ▸ hg s outer hs) outer rfl)

/-- A chain starts with its scope. -/
theorem Grounded.head?_chain (hg : scopes.Grounded) (s : ScopeId) :
    (scopes.chain s).head? = some s := by
  cases hs : scopes.parent? s with
  | none => rw [chain_of_none hs, List.head?_cons]
  | some outer => rw [hg.chain_of_some hs, List.head?_cons]

/-- A chain goes from each scope to its parent. -/
theorem Grounded.isChain_chain (hg : scopes.Grounded) (s : ScopeId) :
    (scopes.chain s).IsChain fun inner outer => scopes.parent? inner = some outer := by
  induction s using hg.induction with
  | outermost s hs =>
    rw [chain_of_none hs]
    exact List.isChain_singleton s
  | inside s outer hs ih =>
    rw [hg.chain_of_some hs, List.isChain_cons]
    refine ⟨fun next hnext => ?_, ih⟩
    rw [hg.head?_chain] at hnext
    rw [hs]
    exact hnext

/-- A chain goes to older and older scopes. -/
theorem Grounded.pairwise_chain (hg : scopes.Grounded) (s : ScopeId) :
    (scopes.chain s).Pairwise fun inner outer => outer.index < inner.index := by
  induction s using hg.induction with
  | outermost s hs =>
    rw [chain_of_none hs]
    exact List.pairwise_singleton _ s
  | inside s outer hs ih =>
    rw [hg.chain_of_some hs, List.pairwise_cons]
    refine ⟨fun other hother => ?_, ih⟩
    calc other.index ≤ outer.index := hg.index_le_of_isInside (isInside_iff_mem_chain.mpr hother)
      _ < s.index := hg s outer hs

theorem Grounded.nodup_chain (hg : scopes.Grounded) (s : ScopeId) : (scopes.chain s).Nodup := by
  refine (hg.pairwise_chain s).imp fun hlt heq => ?_
  rw [heq] at hlt
  exact Nat.lt_irrefl _ hlt

/-- In an arena with a root the chain of every scope ends there. -/
theorem Rooted.getLast?_chain (h : scopes.Rooted) (s : ScopeId) (hs : s ∈ scopes.ids) :
    (scopes.chain s).getLast? = some root := by
  induction s using h.grounded.induction with
  | outermost s hnone =>
    -- only the root has no parent
    have hroot : s = root := by
      by_contra hne
      obtain ⟨outer, houter⟩ := h.exists_parent s hs hne
      rw [hnone] at houter
      cases houter
    rw [chain_of_none hnone, hroot]
    rfl
  | inside s outer houter ih =>
    have hlt := h.grounded s outer houter
    have hlast := ih (mem_ids.mpr (Nat.lt_trans hlt (mem_ids.mp hs)))
    rw [h.grounded.chain_of_some houter, List.getLast?_cons, hlast]
    rfl

/-- The chain of a scope stays what it is when more scopes are opened. -/
theorem Extends.chain_eq {after : Scopes} (h : after.Extends scopes) (hg : scopes.Grounded)
    (hafter : after.Grounded) (s : ScopeId) (hs : s ∈ scopes.ids) :
    after.chain s = scopes.chain s := by
  induction s using hg.induction with
  | outermost s hnone =>
    have hnone' : after.parent? s = none := by rw [h.parent?_eq s (mem_ids.mp hs), hnone]
    rw [chain_of_none hnone, chain_of_none hnone']
  | inside s outer houter ih =>
    have hlt := hg s outer houter
    rw [hg.chain_of_some houter, hafter.chain_of_some (h.parent?_eq_some houter),
      ih (mem_ids.mpr (Nat.lt_trans hlt (mem_ids.mp hs)))]

end Chains

/-! ### Being inside is an order -/

section Order

variable {scopes : Scopes}

/-- Two scopes that lie inside one another are the same. -/
theorem Grounded.isInside_antisymm (hg : scopes.Grounded) {a b : ScopeId}
    (hab : scopes.isInside a b) (hba : scopes.isInside b a) : a = b := by
  have hle := hg.index_le_of_isInside hab
  have hle' := hg.index_le_of_isInside hba
  cases a
  exact congrArg ScopeId.mk (Nat.le_antisymm hle' hle)

/-- Every scope lies inside the root. -/
theorem Rooted.isInside_root (h : scopes.Rooted) {s : ScopeId} (hs : s ∈ scopes.ids) :
    scopes.isInside s root :=
  isInside_iff_mem_chain.mpr (List.mem_of_getLast? (h.getLast?_chain s hs))

/-- Of two scopes that a third lies inside, one lies inside the other. -/
theorem Grounded.isInside_total (hg : scopes.Grounded) {s a b : ScopeId}
    (ha : scopes.isInside s a) (hb : scopes.isInside s b) :
    scopes.isInside a b ∨ scopes.isInside b a := by
  -- go up from `s` until the first of the two is met; the other is still to come
  induction s using hg.induction with
  | outermost s hnone =>
    obtain rfl | ⟨outer, houter, -⟩ := hg.isInside_iff.mp ha
    · exact .inl hb
    · rw [hnone] at houter
      cases houter
  | inside s outer houter ih =>
    obtain rfl | ⟨outer', houter', ha'⟩ := hg.isInside_iff.mp ha
    · exact .inl hb
    · obtain rfl | ⟨outer'', houter'', hb'⟩ := hg.isInside_iff.mp hb
      · exact .inr ha
      · rw [houter] at houter' houter''
        cases houter'
        cases houter''
        exact ih ha' hb'

end Order

/-! ### The tree -/

/-- The scopes of an arena form a tree, with the root at its top. -/
structure IsTree (scopes : Scopes) : Prop where
  parent?_root : scopes.parent? root = none
  /-- Every other scope has a parent, which is older. -/
  parent_older : ∀ s ∈ scopes.ids, s ≠ root →
    ∃ outer ∈ scopes.ids, scopes.parent? s = some outer ∧ outer.index < s.index
  /-- The chain of a scope starts with it, goes from parent to parent, and ends at the root, which
  has none: so it is all there is to follow. -/
  chain_starts : ∀ s ∈ scopes.ids, (scopes.chain s).head? = some s
  chain_follows : ∀ s ∈ scopes.ids,
    (scopes.chain s).IsChain fun inner outer => scopes.parent? inner = some outer
  chain_ends : ∀ s ∈ scopes.ids, (scopes.chain s).getLast? = some root
  chain_decreases : ∀ s ∈ scopes.ids,
    (scopes.chain s).Pairwise fun inner outer => outer.index < inner.index
  chain_nodup : ∀ s ∈ scopes.ids, (scopes.chain s).Nodup
  /-- Being inside is a partial order. -/
  inside_refl : ∀ s, scopes.isInside s s
  inside_trans : ∀ a b c, scopes.isInside a b → scopes.isInside b c → scopes.isInside a c
  inside_antisymm : ∀ a b, scopes.isInside a b → scopes.isInside b a → a = b
  /-- The root is its greatest element. -/
  inside_root : ∀ s ∈ scopes.ids, scopes.isInside s root
  /-- What a scope lies inside is totally ordered. -/
  inside_total : ∀ s a b, scopes.isInside s a → scopes.isInside s b →
    scopes.isInside a b ∨ scopes.isInside b a

theorem Rooted.isTree {scopes : Scopes} (h : scopes.Rooted) : scopes.IsTree where
  parent?_root := by
    cases hroot : scopes.parent? root with
    | none => rfl
    | some outer => exact absurd (h.grounded root outer hroot) (Nat.not_lt_zero _)
  parent_older := by
    intro s hs hne
    obtain ⟨outer, houter⟩ := h.exists_parent s hs hne
    have hlt := h.grounded s outer houter
    exact ⟨outer, mem_ids.mpr (Nat.lt_trans hlt (mem_ids.mp hs)), houter, hlt⟩
  chain_starts s _ := h.grounded.head?_chain s
  chain_follows s _ := h.grounded.isChain_chain s
  chain_ends := h.getLast?_chain
  chain_decreases s _ := h.grounded.pairwise_chain s
  chain_nodup s _ := h.grounded.nodup_chain s
  inside_refl := isInside_refl
  inside_trans _ _ _ := h.grounded.isInside_trans
  inside_antisymm _ _ := h.grounded.isInside_antisymm
  inside_root _ := h.isInside_root
  inside_total _ _ _ := h.grounded.isInside_total

/-- **Every run of a client makes a tree.** Starting with the root alone, the scopes of the arena
are the root and those that the client was given, and they form a tree. Whatever is opened later, by
a run from there on, leaves their chains as they are. -/
theorem openings_form_tree {opened : List ScopeId} {scopes : Scopes}
    (h : fresh.Openings opened scopes) :
    scopes.ids = root :: opened ∧ scopes.IsTree ∧
      ∀ later after, scopes.Openings later after →
        ∀ s ∈ scopes.ids, after.chain s = scopes.chain s := by
  have hrooted := h.rooted rooted_fresh
  refine ⟨?_, hrooted.isTree, fun later after hlater s hs => ?_⟩
  · rw [← root_cons_added_fresh h.extends_before.size_le, h.added_eq]
  · exact hlater.extends_before.chain_eq hrooted.grounded (hlater.rooted hrooted).grounded s hs

/-- Two scopes inside one another, and one more beside them. -/
theorem openings_form_tree_siblings :
    ∃ opened scopes, fresh.Openings opened scopes ∧ opened = [⟨1⟩, ⟨2⟩, ⟨3⟩] ∧
      scopes.IsTree ∧ scopes.chain ⟨2⟩ = [⟨2⟩, ⟨1⟩, root] ∧ ¬ scopes.isInside ⟨3⟩ ⟨1⟩ ∧
      ∀ later after, scopes.Openings later after → after.chain ⟨2⟩ = [⟨2⟩, ⟨1⟩, root] := by
  let first := (fresh.child root).2
  let second := (first.child ⟨1⟩).2
  have h : fresh.Openings [⟨1⟩, ⟨2⟩, ⟨3⟩] (second.child root).2 :=
    .child (.child (.child .start (show root ∈ fresh.ids by decide))
      (show ⟨1⟩ ∈ first.ids by decide)) (show root ∈ second.ids by decide)
  obtain ⟨-, htree, hlater⟩ := openings_form_tree h
  refine ⟨_, _, h, rfl, htree, by decide, by decide, fun later after hrun => ?_⟩
  rw [hlater later after hrun ⟨2⟩ (by decide)]
  decide

end Scopes

end FlowDesugar
