import FlowDesugar.Proofs.Provenance

/-!
# A pass over the result of a pass

Desugaring is not meant to be done twice, and it cannot be done twice unnoticed. A definition in
canonical form is still a call of its keyword, so a second pass meets it; but it has at least two
arguments, where a definition as it is written has one.

* `Definition.not_wellFormed_canonicalAt` — a canonical form is no definition as it is written;
* `Block.desugar_of_definitions_nil` — a pass over a tree without definitions does nothing;
* `Block.desugar_of_malformed_first` — a pass fails at once if the first definition of the tree is
  malformed, and leaves nothing behind;
* `Block.desugar_again` — which of the two happens to the result of a pass is told by its records.
-/

namespace FlowDesugar

namespace Definition

/-- The canonical form of a definition has the name and the script flag besides the arguments that
were there. -/
theorem length_canonicalArgs {d : Definition} {nameLoc : Handle} {name : String}
    {inner : List Expr} (hinner : inner? d.args = some (nameLoc, name, inner)) (flag : Handle)
    (scope : ScopeId) : (d.canonicalArgs flag scope).length = inner.length + 2 := by
  by_cases hbody : endsInThunk inner
  · obtain ⟨init, bodyLoc, body, rfl⟩ := eq_append_of_endsInThunk hbody
    rw [canonicalArgs_of_body hinner, List.length_append, length_withName, List.length_append]
    rfl
  · rw [canonicalArgs_of_noBody hinner hbody, List.length_append, length_withName]
    rfl

/-- **A canonical form is malformed** as a definition: its arguments are too many. -/
theorem not_wellFormed_canonicalAt {d : Definition} (hwell : d.WellFormed) (flag : Handle)
    (scope : ScopeId) : ¬ (d.canonicalAt flag scope).WellFormed := by
  rintro ⟨loc, name, args, hargs⟩
  obtain ⟨⟨nameLoc, innerName, inner⟩, hinner⟩ :=
    Option.isSome_iff_exists.mp (wellFormed_iff.mp hwell)
  have hlength : (d.canonicalAt flag scope).args.length = inner.length + 2 :=
    length_canonicalArgs hinner flag scope
  -- one argument on the one side, two or more on the other
  rw [hargs, List.length_singleton] at hlength
  omega

/-- A run that comes to a malformed definition at its start ends there. -/
theorem run_of_malformed_first {d : Definition} (hmalformed : ¬ d.WellFormed)
    (ds : List Definition) (before : Progress) :
    ((d :: ds).mapM canonical).run before = (.error ⟨d.loc, d.keyword⟩, before) := by
  have hd := canonical_run_of_malformed (not_wellFormed_iff.mp hmalformed) before
  rw [List.mapM_cons, Pass.run_bind_of_error hd]

end Definition

open Definition

namespace Block

variable {keywords : Keywords}

/-- A pass over a tree without definitions gives the tree back and leaves nothing behind. -/
theorem desugar_of_definitions_nil {block : Block} (h : block.definitions keywords = [])
    (before : Progress) : (block.desugar keywords).run before = (.ok block, before) := by
  have hfill : block.fill keywords [] = block := by
    have hback : block.fill keywords ((block.definitions keywords).map Definition.expr) = block :=
      block.fill_definitions
    rwa [h] at hback
  rw [desugar_eq, Pass.run_map_eq_ok]
  refine ⟨[], ?_, hfill⟩
  rw [h]
  rfl

/-- A pass over a tree whose first definition is malformed fails at it and leaves nothing behind. -/
theorem desugar_of_malformed_first {block : Block} {d : Definition} {ds : List Definition}
    (h : block.definitions keywords = d :: ds) (hmalformed : ¬ d.WellFormed) (before : Progress) :
    (block.desugar keywords).run before = (.error ⟨d.loc, d.keyword⟩, before) := by
  rw [desugar_eq, Pass.run_map_eq_error, h]
  exact run_of_malformed_first hmalformed ds before

/-- **A pass is not done twice unnoticed.** If a pass has a result, there are two cases. Either it
made no record: then it has left the tree and the progress as they were, and so does a second pass
over the result. Or it made one: then a second pass over the result fails, with the location and the
keyword of the first record, and leaves the progress as it was. -/
theorem desugar_again {block out : Block} {before after : Progress}
    (h : (block.desugar keywords).run before = (.ok out, after)) :
    (after.records = before.records ∧ out = block ∧ after = before ∧
      ∀ again, (out.desugar keywords).run again = (.ok out, again)) ∨
    ∃ first rest, after.records = before.records ++ first :: rest ∧
      ∀ again, (out.desugar keywords).run again = (.error ⟨first.loc, first.keyword⟩, again) := by
  obtain ⟨calls, -, hlaw⟩ := desugar_closed h
  obtain ⟨hdefinitions, -⟩ := definitions_of_desugar h
  have hwell := (desugar_succeeds_iff keywords block before).mp ⟨out, after, h⟩
  -- the first definition of the tree decides, since the first of the result is its canonical form
  cases hds : block.definitions keywords with
  | nil =>
    left
    rw [desugar_of_definitions_nil hds] at h
    cases h
    exact ⟨rfl, rfl, rfl, desugar_of_definitions_nil hds⟩
  | cons d ds =>
    right
    rw [hds] at hdefinitions hlaw hwell
    have hd := hwell d List.mem_cons_self
    obtain ⟨⟨nameLoc, name, inner⟩, hinner⟩ := Option.isSome_iff_exists.mp (wellFormed_iff.mp hd)
    have hsummary := summary?_of_name? (name?_of_inner? hinner)
    refine ⟨⟨d.keyword, name, d.loc, d.problem?.isNone⟩, ds.filterMap summary?, ?_, ?_⟩
    · rw [hlaw.records_eq, List.filterMap_cons_some hsummary]
    · intro again
      exact desugar_of_malformed_first hdefinitions (not_wellFormed_canonicalAt hd _ _) again

/-- A definition inside a closure, behind a call that is none. -/
def sampleRepeated : Block :=
  let script : Block := ⟨⟨2⟩, [.plain (.entry 1) (.ofText (.entry 1) "ls")]⟩
  let definition : Expr := .call (.entry 0) none "task"
    [.call .unknown none "foo" [.thunk .unknown script]]
  let around : Block := ⟨⟨1⟩, [.plain .unknown (.call .unknown none "println" []),
    .plain .unknown definition]⟩
  ⟨Scopes.root, [.plain .unknown (.closure .unknown ["it"] around)]⟩

/-- With `task` as a keyword there is a record, and a second pass fails; without, there is none. -/
theorem desugar_again_keyword :
    (∃ out after first rest, (sampleRepeated.desugar ⟨["task"]⟩).run {} = (.ok out, after) ∧
      after.records = first :: rest ∧
      (out.desugar ⟨["task"]⟩).run after = (.error ⟨first.loc, first.keyword⟩, after)) ∧
    ∃ after, (sampleRepeated.desugar .default).run {} = (.ok sampleRepeated, after) ∧
      (sampleRepeated.desugar .default).run after = (.ok sampleRepeated, after) := by
  constructor
  · obtain ⟨out, after, h, hone⟩ :
        ∃ out after, (sampleRepeated.desugar ⟨["task"]⟩).run {} = (.ok out, after) ∧
          after.records.length = 1 := ⟨_, _, rfl, rfl⟩
    obtain ⟨hnone, -⟩ | ⟨first, rest, hrecords, hagain⟩ := desugar_again h
    · rw [hnone] at hone
      cases hone
    · exact ⟨out, after, first, rest, h, hrecords, hagain after⟩
  · obtain ⟨out, after, h, hnone⟩ :
        ∃ out after, (sampleRepeated.desugar .default).run {} = (.ok out, after) ∧
          after.records = [] := ⟨_, _, rfl, rfl⟩
    obtain ⟨-, rfl, -, hagain⟩ | ⟨first, rest, hrecords, -⟩ := desugar_again h
    · exact ⟨after, h, hagain after⟩
    · rw [hnone] at hrecords
      cases hrecords

end Block

end FlowDesugar
