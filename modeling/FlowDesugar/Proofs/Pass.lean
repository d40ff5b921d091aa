import FlowDesugar.Definition
import FlowDesugar.Proofs.Threaded

/-!
# Running a pass

A pass either ends with a result or with a malformed definition, and leaves its progress in both
cases. The equations below take a run apart into its steps, so that later proofs never open the
monad. They are about any computation that carries a state and can fail, of which a pass is one.
-/

namespace FlowDesugar

namespace Pass

variable {ε σ α β : Type} {x : ExceptT ε (StateM σ) α} {f : α → ExceptT ε (StateM σ) β}
  {before after : σ} {error : ε}

theorem run_pure (a : α) (state : σ) :
    (pure a : ExceptT ε (StateM σ) α).run state = (.ok a, state) := rfl

/-- After a step that ends with a result, the run goes on with it. -/
theorem run_bind_of_ok {a : α} (h : x.run before = (.ok a, after)) :
    (x >>= f).run before = (f a).run after := by
  -- under the layer of errors there is a run of the layer of states
  rw [ExceptT.run_bind]
  change StateT.bind x.run _ before = _
  rw [StateT.bind, h]
  rfl

/-- After a step that ends with an error, the run ends with it. -/
theorem run_bind_of_error (h : x.run before = (.error error, after)) :
    (x >>= f).run before = (.error error, after) := by
  rw [ExceptT.run_bind]
  change StateT.bind x.run _ before = _
  rw [StateT.bind, h]
  rfl

/-- A run of two steps has a result only if both steps have one. -/
theorem run_bind_eq_ok {b : β} :
    (x >>= f).run before = (.ok b, after) ↔
      ∃ a middle, x.run before = (.ok a, middle) ∧ (f a).run middle = (.ok b, after) := by
  constructor
  · intro h
    rcases hx : x.run before with ⟨result, middle⟩
    cases result with
    | ok a =>
      rw [run_bind_of_ok hx] at h
      exact ⟨a, middle, rfl, h⟩
    | error error =>
      rw [run_bind_of_error hx] at h
      cases h
  · rintro ⟨a, middle, hx, hf⟩
    rw [run_bind_of_ok hx, hf]

/-- A run of two steps ends with an error if the first step does, or the second after it. -/
theorem run_bind_eq_error :
    (x >>= f).run before = (.error error, after) ↔
      x.run before = (.error error, after) ∨
        ∃ a middle, x.run before = (.ok a, middle) ∧ (f a).run middle = (.error error, after) := by
  rcases hx : x.run before with ⟨result, middle⟩
  cases result with
  | ok a =>
    rw [run_bind_of_ok hx]
    constructor
    · exact fun h => .inr ⟨a, middle, rfl, h⟩
    · rintro (h | ⟨a', middle', h, hf⟩)
      · cases h
      · cases h
        exact hf
  | error error' =>
    rw [run_bind_of_error hx]
    constructor
    · intro h
      cases h
      exact .inl rfl
    · rintro (h | ⟨a, middle', h, -⟩)
      · cases h
        rfl
      · cases h

theorem run_map_eq_ok {g : α → β} {b : β} :
    (g <$> x).run before = (.ok b, after) ↔
      ∃ a, x.run before = (.ok a, after) ∧ g a = b := by
  rw [map_eq_pure_bind, run_bind_eq_ok]
  constructor
  · rintro ⟨a, middle, hx, hg⟩
    cases hg
    exact ⟨a, hx, rfl⟩
  · rintro ⟨a, hx, rfl⟩
    exact ⟨a, after, hx, rfl⟩

theorem run_map_eq_error {g : α → β} :
    (g <$> x).run before = (.error error, after) ↔ x.run before = (.error error, after) := by
  rw [map_eq_pure_bind, run_bind_eq_error]
  constructor
  · rintro (h | ⟨a, middle, -, h⟩)
    · exact h
    · cases h
  · exact .inl

/-- A function is applied to the result, if there is one. -/
theorem run_map {g : α → β} {result : Except ε α} (h : x.run before = (result, after)) :
    (g <$> x).run before = (result.map g, after) := by
  cases result with
  | ok a => exact run_map_eq_ok.mpr ⟨a, h, rfl⟩
  | error error => exact run_map_eq_error.mpr h

/-- **Induction over a run over a list** that has a result: what holds of the empty run and passes
from the rest of a run to the whole, over one more step at its start, holds of every run. -/
theorem run_mapM_induction {motive : List α → List β → σ → σ → Prop}
    (nil : ∀ state, motive [] [] state state)
    (cons : ∀ {a as b bs before middle after}, (f a).run before = (.ok b, middle) →
      motive as bs middle after → motive (a :: as) (b :: bs) before after)
    {as : List α} {bs : List β} (h : (as.mapM f).run before = (.ok bs, after)) :
    motive as bs before after := by
  induction as generalizing bs before with
  | nil =>
    rw [List.mapM_nil, run_pure] at h
    cases h
    exact nil _
  | cons a as ih =>
    -- three steps: the first item, the other items, and putting the results together
    rw [List.mapM_cons, run_bind_eq_ok] at h
    obtain ⟨b, middle, hfirst, h⟩ := h
    rw [run_bind_eq_ok] at h
    obtain ⟨rest, last, hrest, h⟩ := h
    rw [run_pure] at h
    cases h
    exact cons hfirst (ih hrest)

/-- A run over a list that has a result threads its state through the items and their results. -/
theorem threaded_of_run_mapM {as : List α} {bs : List β}
    (h : (as.mapM f).run before = (.ok bs, after)) :
    ∃ pairs : List (α × β), pairs.map Prod.fst = as ∧ pairs.map Prod.snd = bs ∧
      Threaded (fun pair s t => (f pair.1).run s = (.ok pair.2, t)) pairs before after := by
  refine run_mapM_induction (motive := fun as bs before after =>
    ∃ pairs : List (α × β), pairs.map Prod.fst = as ∧ pairs.map Prod.snd = bs ∧
      Threaded (fun pair s t => (f pair.1).run s = (.ok pair.2, t)) pairs before after) ?_ ?_ h
  · exact fun state => ⟨[], rfl, rfl, .nil state⟩
  · rintro a as b bs before middle after hfirst ⟨pairs, rfl, rfl, hrest⟩
    exact ⟨(a, b) :: pairs, rfl, rfl, .cons hfirst hrest⟩

/-- A run over a list that ends with an error ends at one of the items. Those before it have
results, and those after it are not reached. -/
theorem exists_error_of_run_mapM {as : List α}
    (h : (as.mapM f).run before = (.error error, after)) :
    ∃ front bad rest bs middle, as = front ++ bad :: rest ∧
      (front.mapM f).run before = (.ok bs, middle) ∧
      (f bad).run middle = (.error error, after) := by
  induction as generalizing before with
  | nil => cases h
  | cons a as ih =>
    rw [List.mapM_cons, run_bind_eq_error] at h
    obtain hfirst | ⟨b, middle, hfirst, h⟩ := h
    · exact ⟨[], a, as, [], before, rfl, rfl, hfirst⟩
    · rw [run_bind_eq_error] at h
      obtain hrest | ⟨bs, last, -, h⟩ := h
      · obtain ⟨front, bad, rest, bs, last, rfl, hfront, hbad⟩ := ih hrest
        refine ⟨a :: front, bad, rest, b :: bs, last, rfl, ?_, hbad⟩
        rw [List.mapM_cons, run_bind_of_ok hfirst, run_bind_of_ok hfront]
        rfl
      · -- putting the results together cannot fail
        cases h

end Pass

end FlowDesugar
