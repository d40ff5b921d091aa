/-!
# States threaded through a list

A walk over the items of a list that carries a state along is described by its steps alone:
`Threaded step as before after` says that the state leads from `before` to `after` by a step for
each item, in order. Readers thread the scopes of a registry through the nodes that they read, and a
pass threads its progress through the expressions that it meets.
-/

namespace FlowDesugar

/-- The state goes from one to another by a step for each item of a list. -/
inductive Threaded {σ α : Type} (step : α → σ → σ → Prop) : List α → σ → σ → Prop
  | nil (state : σ) : Threaded step [] state state
  | cons {a : α} {as : List α} {before middle after : σ} : step a before middle →
    Threaded step as middle after → Threaded step (a :: as) before after

namespace Threaded

variable {σ α : Type} {step step' : α → σ → σ → Prop} {as bs : List α} {before middle after : σ}

theorem singleton {a : α} (h : step a before after) : Threaded step [a] before after :=
  .cons h (.nil after)

/-- One list after another. -/
theorem append (h : Threaded step as before middle) (h' : Threaded step bs middle after) :
    Threaded step (as ++ bs) before after := by
  induction h with
  | nil state => exact h'
  | cons hstep _ ih => exact .cons hstep (ih h')

/-- Steps may be replaced by others, item by item. -/
theorem imp (h : Threaded step as before after)
    (himp : ∀ a ∈ as, ∀ s t, step a s t → step' a s t) : Threaded step' as before after := by
  induction h with
  | nil state => exact .nil state
  | cons hstep _ ih =>
    obtain ⟨hfirst, hrest⟩ := List.forall_mem_cons.mp himp
    exact .cons (hfirst _ _ hstep) (ih hrest)

/-- There is a step for every item. -/
theorem exists_step (h : Threaded step as before after) : ∀ a ∈ as, ∃ s t, step a s t := by
  induction h with
  | nil state => exact nofun
  | cons hstep _ ih => exact List.forall_mem_cons.mpr ⟨⟨_, _, hstep⟩, ih⟩

end Threaded

end FlowDesugar
