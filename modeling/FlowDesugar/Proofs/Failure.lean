import FlowDesugar.Proofs.Desugaring
import FlowDesugar.Proofs.Scripts

/-!
# When desugaring fails

Desugaring fails at a topmost definition whose arguments are not a single inner call, and at no
other place in a tree. It fails at the first of these, and what it has done by then is what a run
over the definitions before it does: the malformed definition leaves nothing behind, and those after
it are not reached.

Since a pass over a tree is a run over its topmost definitions (`Block.desugar_eq`), this is a fact
about runs over lists: `Pass.exists_error_of_run_mapM` cuts the list at the definition that fails,
`Definition.malformed_of_error` says what that definition is like and what it leaves, and
`Definition.wellFormed_of_run` that all those before it are well-formed.
-/

namespace FlowDesugar

namespace Definition

/-- The arguments of a definition are a single call without a receiver: the name of what is defined,
with its own arguments. -/
def WellFormed (d : Definition) : Prop :=
  ∃ loc name args, d.args = [.call loc none name args]

variable {d : Definition} {before after : Progress}

theorem wellFormed_iff : d.WellFormed ↔ (inner? d.args).isSome := by
  constructor
  · rintro ⟨loc, name, args, h⟩
    rw [h]
    rfl
  · intro h
    obtain ⟨⟨loc, name, args⟩, hinner⟩ := Option.isSome_iff_exists.mp h
    exact ⟨loc, name, args, args_of_inner? hinner⟩

instance : Decidable d.WellFormed :=
  decidable_of_iff _ wellFormed_iff.symm

theorem not_wellFormed_iff : ¬ d.WellFormed ↔ inner? d.args = none := by
  rw [wellFormed_iff, Option.not_isSome_iff_eq_none]

/-- A definition that gets a canonical form is well-formed. -/
theorem wellFormed_of_canonical_run {call : Expr}
    (h : d.canonical.run before = (.ok call, after)) : d.WellFormed := by
  rw [wellFormed_iff]
  cases canonicalRun_of_run h with
  | body hinner => rw [hinner]; rfl
  | noBody hinner _ => rw [hinner]; rfl

/-- All definitions of a run that has a result are well-formed. -/
theorem wellFormed_of_run {ds : List Definition} {calls : List Expr}
    (h : (ds.mapM canonical).run before = (.ok calls, after)) : ∀ d ∈ ds, d.WellFormed := by
  refine Pass.run_mapM_induction (motive := fun ds _ _ _ => ∀ d ∈ ds, d.WellFormed) ?_ ?_ h
  · exact fun _ => nofun
  · intro d ds call calls before middle after hd ih
    exact List.forall_mem_cons.mpr ⟨wellFormed_of_canonical_run hd, ih⟩

/-- A definition that fails is malformed. The error is about it, and the progress is as before. -/
theorem malformed_of_error {error : MalformedDefinition}
    (h : d.canonical.run before = (.error error, after)) :
    ¬ d.WellFormed ∧ error = ⟨d.loc, d.keyword⟩ ∧ after = before := by
  cases hinner : inner? d.args with
  | none =>
    rw [canonical_run_of_malformed hinner] at h
    cases h
    exact ⟨not_wellFormed_iff.mpr hinner, rfl, rfl⟩
  | some parts =>
    -- both of the well-formed cases have a result
    obtain ⟨nameLoc, name, inner⟩ := parts
    by_cases hbody : endsInThunk inner
    · obtain ⟨init, bodyLoc, body, rfl⟩ := eq_append_of_endsInThunk hbody
      rw [canonical_run_of_body hinner] at h
      cases h
    · rw [canonical_run_of_noBody hinner hbody] at h
      cases h

/-- **A run that fails** fails at the first malformed definition, with the progress of a run over
those before it. -/
theorem exists_first_malformed {ds : List Definition} {error : MalformedDefinition}
    (h : (ds.mapM canonical).run before = (.error error, after)) :
    ∃ front bad rest calls, ds = front ++ bad :: rest ∧
      (∀ d ∈ front, d.WellFormed) ∧ ¬ bad.WellFormed ∧ error = ⟨bad.loc, bad.keyword⟩ ∧
      (front.mapM canonical).run before = (.ok calls, after) := by
  obtain ⟨front, bad, rest, calls, middle, hsplit, hfront, hbad⟩ := Pass.exists_error_of_run_mapM h
  obtain ⟨hmalformed, herror, rfl⟩ := malformed_of_error hbad
  exact ⟨front, bad, rest, calls, hsplit, wellFormed_of_run hfront, hmalformed, herror, hfront⟩

/-- A run fails exactly if one of its definitions is malformed. -/
theorem run_fails_iff (ds : List Definition) (before : Progress) :
    (∃ error after, (ds.mapM canonical).run before = (.error error, after)) ↔
      ∃ d ∈ ds, ¬ d.WellFormed := by
  constructor
  · rintro ⟨error, after, h⟩
    obtain ⟨front, bad, rest, -, rfl, -, hmalformed, -⟩ := exists_first_malformed h
    exact ⟨bad, List.mem_append_right front List.mem_cons_self, hmalformed⟩
  · rintro ⟨d, hd, hmalformed⟩
    rcases hrun : (ds.mapM canonical).run before with ⟨result, after⟩
    cases result with
    | error error => exact ⟨error, after, rfl⟩
    | ok calls => exact absurd (wellFormed_of_run hrun d hd) hmalformed

end Definition

open Definition

/-- **Desugaring fails at the first malformed definition.** It fails exactly if one of the topmost
definitions is malformed. The error has the location and the keyword of the first malformed one, and
the pass ends with the progress of a run over the definitions before that: their accounts are all
that was recorded, reported and added to the source map, and their scripts are all that scopes were
opened for. -/
theorem Block.desugar_fails_at_first_malformed (keywords : Keywords) (block : Block)
    (before : Progress) :
    ((∃ error after, (block.desugar keywords).run before = (.error error, after)) ↔
      ∃ d ∈ block.definitions keywords, ¬ d.WellFormed) ∧
    ∀ error after, (block.desugar keywords).run before = (.error error, after) →
      ∃ front bad rest calls accounts,
        block.definitions keywords = front ++ bad :: rest ∧
        (∀ d ∈ front, d.WellFormed) ∧ ¬ bad.WellFormed ∧
        error = ⟨bad.loc, bad.keyword⟩ ∧
        (front.mapM canonical).run before = (.ok calls, after) ∧
        Accounted front calls before after accounts ∧
        after.registry.scopes = before.registry.scopes.withScripts front := by
  simp only [Block.desugar_eq, Pass.run_map_eq_error]
  refine ⟨run_fails_iff _ before, fun error after h => ?_⟩
  obtain ⟨front, bad, rest, calls, hsplit, hwell, hmalformed, herror, hfront⟩ :=
    exists_first_malformed h
  obtain ⟨accounts, haccounts⟩ := accounts_of_run hfront
  exact ⟨front, bad, rest, calls, accounts, hsplit, hwell, hmalformed, herror, hfront, haccounts,
    scopes_of_run hfront⟩

/-- Three definitions. The second has no inner call, and stands in a receiver inside a closure. -/
def Block.sampleMalformed : Block :=
  let script : Block := ⟨⟨1⟩, [.plain (.entry 1) (.ofText (.entry 1) "ls")]⟩
  let broken : Expr := .call (.entry 2) none "workflow" [.var .unknown "x"]
  let around : Block := ⟨⟨2⟩, [.plain .unknown (.call .unknown (some broken) "view" [])]⟩
  ⟨Scopes.root, [.plain .unknown (.list .unknown
    [.call (.entry 0) none "process" [.call .unknown none "foo" [.thunk .unknown script]],
     .closure .unknown ["it"] around,
     .call (.entry 3) none "process" [.call .unknown none "bar" []]])]⟩

theorem Block.desugar_fails_at_first_malformed_receiver :
    ∃ error after, (sampleMalformed.desugar ⟨["process", "workflow"]⟩).run {}
        = (.error error, after) ∧
      error = ⟨.entry 2, "workflow"⟩ ∧
      after.records = [⟨"process", "foo", .entry 0, true⟩] ∧ after.registry.scopes.size = 2 ∧
      ∃ front bad rest,
        sampleMalformed.definitions ⟨["process", "workflow"]⟩ = front ++ bad :: rest ∧
        (∀ d ∈ front, d.WellFormed) ∧ ¬ bad.WellFormed ∧
        error = ⟨bad.loc, bad.keyword⟩ ∧
        after.registry.scopes = Scopes.fresh.withScripts front := by
  obtain ⟨error, after, h, herror, hrecords, hsize⟩ :
      ∃ error after, (sampleMalformed.desugar ⟨["process", "workflow"]⟩).run {}
          = (.error error, after) ∧
        error = ⟨.entry 2, "workflow"⟩ ∧
        after.records = [⟨"process", "foo", .entry 0, true⟩] ∧
        after.registry.scopes.size = 2 := ⟨_, _, rfl, rfl, rfl, rfl⟩
  obtain ⟨front, bad, rest, -, -, hsplit, hwell, hmalformed, hbad, -, -, hscopes⟩ :=
    (Block.desugar_fails_at_first_malformed ⟨["process", "workflow"]⟩ sampleMalformed {}).2
      error after h
  exact ⟨error, after, h, herror, hrecords, hsize, front, bad, rest, hsplit, hwell, hmalformed,
    hbad, hscopes⟩

end FlowDesugar
