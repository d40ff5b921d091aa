import FlowDesugar.Proofs.ClosedForm
import FlowDesugar.Proofs.Parallel

/-!
# Positions do not influence the result

Lines and columns are read, kept and written out again, but nothing is decided by them. Two
documents that differ only in lines and columns are accepted or refused alike, and what becomes of
them differs only in handles and positions.

Both documents are read next to the one without lines and columns (`Interchange.positionBlind`).
This gives two trees that agree once their handles are forgotten, with the same scopes. From there
on the pass commutes with forgetting the handles.

* `Interchange.documentOf_unplaced` — reading a document and the same document without positions;
* `Block.desugar_of_unplaced` — desugaring two trees that agree without their handles;
* `Interchange.desugar_ignores_positions` — both together, with all that is shown of the result.
-/

namespace FlowDesugar

/-! ### Trees without handles -/

/-- The tree without its handles. It keeps its scopes. -/
def Block.unplaced (block : Block) : Block :=
  block.relocate (fun _ => .unknown) id

/-- What a record says apart from its location. -/
def DefinitionSummary.content (record : DefinitionSummary) : String × String × Bool :=
  (record.keyword, record.name, record.hasScript)

namespace Definition

/-- The messages of reports do not depend on positions. -/
theorem messages_reportsFrom (map : SourceMap) (ds : List Definition) :
    (reportsFrom map ds).map Report.message
      = ds.filterMap fun d => d.problem?.map ScriptError.message := by
  induction ds generalizing map with
  | nil => rfl
  | cons d ds ih =>
    rw [reportsFrom, List.map_append, ih]
    cases hproblem : d.problem? with
    | none => simp [hproblem]
    | some problem => simp [hproblem, Report.ofProblem]

variable {f : Handle → Handle} {g : ScopeId → ScopeId}

theorem messages_relocate (ds : List Definition) :
    ((ds.map (relocate f g)).filterMap fun d => d.problem?.map ScriptError.message)
      = ds.filterMap fun d => d.problem?.map ScriptError.message := by
  rw [List.filterMap_map]
  refine List.filterMap_congr fun d _ => ?_
  rw [Function.comp_apply, problem?_relocate, Option.map_map]
  exact congrArg (Option.map · d.problem?) (funext fun error => error.message_relocate f)

theorem contents_relocate (ds : List Definition) :
    ((ds.map (relocate f g)).filterMap summary?).map DefinitionSummary.content
      = (ds.filterMap summary?).map DefinitionSummary.content := by
  rw [List.filterMap_map, List.map_filterMap, List.map_filterMap]
  refine List.filterMap_congr fun d _ => ?_
  rw [Function.comp_apply, summary?_relocate, Option.map_map]
  rfl

end Definition

open Definition

namespace Block

/-- What two passes leave agrees but for handles and positions. -/
structure AgreesUnplaced (out out' : Block) (after after' : Progress) : Prop where
  tree_eq : out.unplaced = out'.unplaced
  contents_eq : after.records.map DefinitionSummary.content
    = after'.records.map DefinitionSummary.content
  messages_eq : after.reports.map Report.message = after'.reports.map Report.message

variable {keywords : Keywords} {block block' : Block} {registry registry' : Registry}

/-- Of two trees that agree without their handles, both can be desugared or none. -/
theorem desugar_succeeds_of_unplaced (h : block.unplaced = block'.unplaced)
    (before before' : Progress) :
    (∃ out after, (block.desugar keywords).run before = (.ok out, after)) ↔
      ∃ out after, (block'.desugar keywords).run before' = (.ok out, after) := by
  unfold unplaced at h
  rw [desugar_succeeds_iff, desugar_succeeds_iff, ← wellFormed_relocate, h, wellFormed_relocate]

/-- **Desugaring two trees** that agree without their handles, with the same scopes. -/
theorem desugar_of_unplaced (h : block.unplaced = block'.unplaced)
    (hscopes : registry.scopes = registry'.scopes) {out out' : Block} {after after' : Progress}
    (hrun : (block.desugar keywords).run { registry } = (.ok out, after))
    (hrun' : (block'.desugar keywords).run { registry := registry' } = (.ok out', after')) :
    AgreesUnplaced out out' after after' := by
  have hdefs : (block.definitions keywords).map (Definition.relocate (fun _ => .unknown) id)
      = (block'.definitions keywords).map (Definition.relocate (fun _ => .unknown) id) := by
    rw [← definitions_relocate, ← definitions_relocate]
    exact congrArg (Block.definitions keywords) h
  obtain ⟨calls, -, hlaw⟩ := desugar_closed hrun
  obtain ⟨calls', -, hlaw'⟩ := desugar_closed hrun'
  constructor
  case tree_eq =>
    -- the flags have no handles any more, and the scripts get the same scopes
    unfold unplaced at h ⊢
    rw [eq_canonicalAt_of_desugar hrun, eq_canonicalAt_of_desugar hrun', canonicalAt_relocate,
      canonicalAt_relocate, h, hscopes]
    rfl
  case contents_eq =>
    rw [hlaw.records_eq, hlaw'.records_eq, List.nil_append, List.nil_append, ← contents_relocate,
      hdefs, contents_relocate]
  case messages_eq =>
    rw [hlaw.reports_eq, hlaw'.reports_eq, List.nil_append, List.nil_append, messages_reportsFrom,
      messages_reportsFrom, ← messages_relocate, hdefs, messages_relocate]

end Block

namespace Interchange

open Json (Value Fields)

/-! ### Documents without positions -/

/-- A document next to the one without lines and columns. Handles are forgotten, and the scopes are
the same. -/
def positionBlind : Comparison where
  names := placeNames
  handle _ := .unknown
  handle' _ := .unknown
  scope := id
  scope' := id
  registries registry registry' := registry.scopes = registry'.scopes
  errors := Eq
  names_subset := List.Subset.refl _
  note _ h := ⟨rfl, h⟩
  child := by
    intro before before' parent parent' hregistries hparent
    obtain rfl : parent = parent' := hparent
    rw [hregistries]
    exact ⟨rfl, rfl⟩

/-- What two readers leave agrees but for handles and positions. -/
structure ReadAlike (document document' : Document) (registry registry' : Registry) : Prop where
  source_eq : document.source = document'.source
  tree_eq : document.body.unplaced = document'.body.unplaced
  scopes_eq : registry.scopes = registry'.scopes

/-- Two outcomes agree: both are the same error, or what was read agrees. -/
abbrev SameOutcome : Except ImportError (Document × Registry) →
    Except ImportError (Document × Registry) → Prop :=
  positionBlind.Outcome fun document document' => document.source = document'.source ∧
    document.body.unplaced = document'.body.unplaced

/-- **A document without its positions** is read like the document. -/
theorem documentOf_unplaced (value : Value) (before : Registry) :
    SameOutcome ((documentOf value).run before) ((documentOf (unplaced value)).run before) :=
  positionBlind.alike_documentOf (fun _ => rfl) rfl value before before rfl

/-- Two outcomes that agree with a third agree with each other. -/
theorem SameOutcome.trans_symm {x x' y : Except ImportError (Document × Registry)}
    (h : SameOutcome x y) (h' : SameOutcome x' y) :
    (∀ error, x = .error error ↔ x' = .error error) ∧
      ∀ document registry, x = .ok (document, registry) →
        ∃ document' registry', x' = .ok (document', registry') ∧
          ReadAlike document document' registry registry' := by
  cases h with
  | ok hresult hscopes =>
    cases h' with
    | ok hresult' hscopes' =>
      refine ⟨fun error => ⟨nofun, nofun⟩, fun document registry hx => ?_⟩
      cases hx
      exact ⟨_, _, rfl, hresult.1.trans hresult'.1.symm, hresult.2.trans hresult'.2.symm,
        hscopes.trans hscopes'.symm⟩
  | error herror =>
    cases h' with
    | error herror' =>
      obtain rfl := herror.trans herror'.symm
      exact ⟨fun error => Iff.rfl, nofun⟩

/-- What is written of trees that agree without their handles agrees without lines and columns. -/
theorem unplaced_writeDocument_of_unplaced {map map' : SourceMap} {out out' : Block}
    (source : Option String) (h : out.unplaced = out'.unplaced) :
    unplaced (writeDocument map source out) = unplaced (writeDocument map' source out') := by
  -- without any positions the handles make no difference
  have hwritten : ∀ block : Block, writeBlock .empty block = writeBlock .empty block.unplaced := by
    intro block
    refine (writeBlock_relocate fun handle _ => ?_).symm
    rw [position?_empty, position?_empty]
  rw [unplaced_writeDocument, unplaced_writeDocument]
  unfold writeDocument
  rw [hwritten out, hwritten out', h]

/-- **Positions never influence the result.** Two documents that are the same without lines and
columns are refused with the same errors, and if one is accepted, so is the other. Then both trees
can be desugared or none. The results are equal but for their handles, with the same scopes; their
surface texts are equal at every width; what is written of them is equal without lines and columns;
the records agree apart from their locations, and the reports in their messages. -/
theorem desugar_ignores_positions {value value' : Value} (h : unplaced value = unplaced value')
    (keywords : Keywords) (before : Registry) :
    (∀ error, (documentOf value).run before = .error error ↔
      (documentOf value').run before = .error error) ∧
    ∀ document registry, (documentOf value).run before = .ok (document, registry) →
      ∃ document' registry', (documentOf value').run before = .ok (document', registry') ∧
        ((∃ out after, (document.body.desugar keywords).run { registry } = (.ok out, after)) ↔
          ∃ out after, (document'.body.desugar keywords).run { registry := registry' }
            = (.ok out, after)) ∧
        ∀ out after out' after',
          (document.body.desugar keywords).run { registry } = (.ok out, after) →
          (document'.body.desugar keywords).run { registry := registry' } = (.ok out', after') →
          out.unplaced = out'.unplaced ∧
          (∀ width, out.surfaceAt width = out'.surfaceAt width) ∧
          unplaced (writeDocument after.registry.sourceMap document.source out)
            = unplaced (writeDocument after'.registry.sourceMap document'.source out') ∧
          (after.records.map fun record => (record.keyword, record.name, record.hasScript))
            = (after'.records.map fun record => (record.keyword, record.name, record.hasScript)) ∧
          after.reports.map Report.message = after'.reports.map Report.message := by
  have hread' := documentOf_unplaced value' before
  rw [← h] at hread'
  obtain ⟨herrors, haccepts⟩ := (documentOf_unplaced value before).trans_symm hread'
  refine ⟨herrors, fun document registry hdocument => ?_⟩
  obtain ⟨document', registry', hdocument', halike⟩ := haccepts document registry hdocument
  refine ⟨document', registry', hdocument',
    Block.desugar_succeeds_of_unplaced halike.tree_eq _ _, ?_⟩
  intro out after out' after' hrun hrun'
  have hagrees := Block.desugar_of_unplaced halike.tree_eq halike.scopes_eq hrun hrun'
  have hsurface : ∀ width, out.surfaceAt width = out'.surfaceAt width := by
    intro width
    calc out.surfaceAt width
        = out.unplaced.surfaceAt width := (out.surfaceAt_relocate width).symm
      _ = out'.unplaced.surfaceAt width := by rw [hagrees.tree_eq]
      _ = out'.surfaceAt width := out'.surfaceAt_relocate width
  refine ⟨hagrees.tree_eq, hsurface, ?_, hagrees.contents_eq, hagrees.messages_eq⟩
  rw [halike.source_eq]
  exact unplaced_writeDocument_of_unplaced _ hagrees.tree_eq

/-- A definition whose body ends in a map, so that it has no script. The map has an entry called
`line`. Some of the nodes have the fields `place` besides their own. -/
def samplePlaced (place : Fields) : Value :=
  let number : Value := .object
    (("kind", .string "num") :: ("value", .number (.natural 7)) :: place)
  let last : Value := .object (("kind", .string "expr") :: ("expr", .object
    (("kind", .string "map") :: place ++ [("entries", .object [("line", number)])])) :: place)
  let inner : Value := .object (place ++ [("kind", .string "call"), ("method", .string "foo"),
    ("args", .array [.object [("kind", .string "closure"), ("statements", .array [last])]])])
  .object [("statements", .array
    [.object (("kind", .string "expr") :: ("expr", .object (("kind", .string "call") :: place
      ++ [("method", .string "process"), ("args", .array [inner])])) :: place)])]

theorem desugar_ignores_positions_entry :
    let place : Fields := [("line", .number (.natural 3)), ("column", .number (.natural 4))]
    unplaced (samplePlaced place) = unplaced (samplePlaced []) ∧
    ∃ document registry document' registry' out after out' after',
      (documentOf (samplePlaced place)).run {} = .ok (document, registry) ∧
      (documentOf (samplePlaced [])).run {} = .ok (document', registry') ∧
      (document.body.desugar .default).run { registry } = (.ok out, after) ∧
      (document'.body.desugar .default).run { registry := registry' } = (.ok out', after') ∧
      after.reports.map Report.line = [3] ∧ after'.reports.map Report.line = [0] ∧
      after.reports.map Report.message = after'.reports.map Report.message ∧
      out.unplaced = out'.unplaced := by
  intro place
  have hsame : unplaced (samplePlaced place) = unplaced (samplePlaced []) := rfl
  obtain ⟨document, registry, document', registry', out, after, out', after', hread, hread', hrun,
      hrun', hlines, hlines'⟩ : ∃ document registry document' registry' out after out' after',
      (documentOf (samplePlaced place)).run {} = .ok (document, registry) ∧
      (documentOf (samplePlaced [])).run {} = .ok (document', registry') ∧
      (document.body.desugar .default).run { registry } = (.ok out, after) ∧
      (document'.body.desugar .default).run { registry := registry' } = (.ok out', after') ∧
      after.reports.map Report.line = [3] ∧ after'.reports.map Report.line = [0] :=
    ⟨_, _, _, _, _, _, _, _, rfl, rfl, rfl, rfl, rfl, rfl⟩
  obtain ⟨-, haccepts⟩ := desugar_ignores_positions hsame .default {}
  obtain ⟨document'', registry'', hread'', -, hresults⟩ := haccepts document registry hread
  obtain ⟨rfl, rfl⟩ := Prod.mk.inj (Except.ok.inj (hread'.symm.trans hread''))
  obtain ⟨htree, -, -, -, hmessages⟩ := hresults out after out' after' hrun hrun'
  exact ⟨hsame, _, _, _, _, _, _, _, _, hread, hread', hrun, hrun', hlines, hlines', hmessages,
    htree⟩

end Interchange

end FlowDesugar
