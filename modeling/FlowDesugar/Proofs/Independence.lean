import FlowDesugar.Proofs.Parallel
import FlowDesugar.Proofs.Statements

/-!
# Statements are independent of one another

The statements of a document share a source map and an arena of scopes, so the handles and scopes of
one depend on how many the statements before it took. Nothing else does: what becomes of a document
is what becomes of its statements, each in a document of its own.

A statement that is read behind others is compared with the same statement read alone. Its handles
are those of the statement alone, moved by the number of locations that were noted before, and so
the source map of the statement alone is embedded in that of the whole (`SourceMap.Embeds`). A
`Interchange.Piece` holds the two readings of a statement with this embedding.

* `Interchange.exists_pieces` — a document that was read falls into pieces;
* `Interchange.Piece.writeBlock_eq` and `Interchange.Piece.surfaceAt_eq` — what is shown of a
  statement in the whole is what is shown of it alone, and likewise for records and reports;
* `Interchange.desugar_by_statements` — the parts are put together.
-/

namespace FlowDesugar

/-! ### Source maps inside larger ones -/

namespace Handle

/-- The handle of a location behind `start` others. -/
def shift (start : Nat) : Handle → Handle
  | unknown => unknown
  | entry index => entry (start + index)

/-- Handles of a map with `size` locations go by `f`, and those that come after them are taken from
a supply. -/
def extend (size : Nat) (f : Handle → Handle) (flag : Nat → Handle) : Handle → Handle
  | unknown => f unknown
  | entry index => if index < size then f (entry index) else flag (index - size)

theorem extend_of_knows {map : SourceMap} {handle : Handle} (h : map.Knows handle)
    (f : Handle → Handle) (flag : Nat → Handle) : handle.extend map.size f flag = f handle := by
  cases handle with
  | unknown => rfl
  | entry index => exact if_pos h

theorem extend_entry (size : Nat) (f : Handle → Handle) (flag : Nat → Handle) (i : Nat) :
    (entry (size + i)).extend size f flag = flag i := by
  have hfresh : ¬ size + i < size := by omega
  rw [extend, if_neg hfresh, Nat.add_sub_cancel_left]

end Handle

namespace SourceMap

/-- By `f`, every handle that the small map knows has a counterpart in the large one that stands for
the same position. -/
structure Embeds (f : Handle → Handle) (small large : SourceMap) : Prop where
  knows : ∀ handle, small.Knows handle → large.Knows (f handle)
  position?_eq : ∀ handle, small.Knows handle →
    large.position? (f handle) = small.position? handle

/-- A map whose locations stand among those of another, behind some and before others. -/
theorem embeds_shift {small large : SourceMap} {front back : List SourceInfo}
    (h : large.entries.toList = front ++ (small.entries.toList ++ back)) :
    Embeds (Handle.shift front.length) small large where
  knows := by
    intro handle hknows
    cases handle with
    | unknown => trivial
    | entry index =>
      have hlength := congrArg List.length h
      simp only [List.length_append, Array.length_toList] at hlength
      change index < small.entries.size at hknows
      change front.length + index < large.entries.size
      omega
  position?_eq := by
    intro handle hknows
    cases handle with
    | unknown => rfl
    | entry index =>
      have hsmall : index < small.entries.toList.length := hknows
      have hentry : large.entries[front.length + index]? = small.entries[index]? := by
        rw [← Array.getElem?_toList, h, List.getElem?_append_right (Nat.le_add_right _ _),
          Nat.add_sub_cancel_left, List.getElem?_append_left hsmall, Array.getElem?_toList]
      change (large.entries[front.length + index]?).bind _ = (small.entries[index]?).bind _
      rw [hentry]

end SourceMap

/-- The tree with other handles, and with all its scopes the root. -/
def Block.rehandle (f : Handle → Handle) (block : Block) : Block :=
  block.relocate f fun _ => Scopes.root

/-- What a record says, with the position of its location. -/
def DefinitionSummary.located (map : SourceMap) (record : DefinitionSummary) :
    String × String × Option Position × Bool :=
  (record.keyword, record.name, map.position? record.loc, record.hasScript)

theorem Report.ofProblem_relocate {map map' : SourceMap} {f : Handle → Handle}
    {problem : ScriptError} (h : map.position? (f problem.loc) = map'.position? problem.loc) :
    Report.ofProblem map (problem.relocate f) = Report.ofProblem map' problem := by
  unfold Report.ofProblem
  rw [problem.loc_relocate, problem.message_relocate, h]

namespace Interchange

open Json (Value Fields Path)

/-! ### Reading a statement alone -/

/-- The handles of a document that was read are known. -/
theorem knows_of_documentOf {value : Value} {document : Document} {before after : Registry}
    (h : (documentOf value).run before = .ok (document, after)) :
    ∀ handle ∈ document.body.handles, after.sourceMap.Knows handle := by
  intro handle hhandle
  obtain ⟨sites, -, hnodes, hnoted⟩ := sited_of_documentOf h
  have hnumbered := numbered_of_threaded hnoted
  rw [document.body.handles_eq, ← hnodes, List.map_map] at hhandle
  obtain ⟨site, hsite, rfl⟩ := List.mem_map.mp hhandle
  cases hposition : site.position? with
  | none =>
    rw [Function.comp_apply, hnumbered.handle_unknown site hsite hposition]
    trivial
  | some position =>
    -- a node with a position has one in the source map
    have hplaced : site ∈ placed sites := by
      refine List.mem_filter.mpr ⟨hsite, ?_⟩
      rw [hposition]
      rfl
    obtain ⟨i, hi⟩ := List.getElem?_of_mem hplaced
    refine SourceMap.knows_of_position? ?_
    rw [Function.comp_apply, (hnumbered.handle_eq i site hi).2, hposition]
    rfl

/-- A statement that is read after the locations `front` were noted, next to the same statement
alone. Scopes and errors are left out of account. -/
def behind (front : List SourceInfo) : Comparison where
  names := []
  handle := id
  handle' := Handle.shift front.length
  scope _ := Scopes.root
  scope' _ := Scopes.root
  registries registry registry' :=
    registry.sourceMap.entries.toList = front ++ registry'.sourceMap.entries.toList
  errors _ _ := True
  names_subset := List.nil_subset _
  note := by
    intro before before' fields hregistries
    -- no names are taken out, so that both readers see the same object
    have hfields : stripFields [] fields = fields := by
      have hobject := strip_nil (.object fields)
      rw [strip] at hobject
      exact Value.object.inj hobject
    rw [hfields]
    cases positionOf? fields with
    | none => exact ⟨rfl, hregistries⟩
    | some position =>
      have hsize : before.sourceMap.size = front.length + before'.sourceMap.size := by
        have hlength := congrArg List.length hregistries
        rwa [List.length_append, Array.length_toList, Array.length_toList] at hlength
      -- both maps get the same location, each behind those that it has
      refine ⟨congrArg Handle.entry hsize, ?_⟩
      change (before.sourceMap.entries.push _).toList
        = front ++ (before'.sourceMap.entries.push _).toList
      rw [Array.toList_push, Array.toList_push, hregistries, List.append_assoc]
  child hregistries _ := ⟨rfl, hregistries⟩

/-- The document of one statement. -/
def statementDocument (value : Value) : Value :=
  .object [("statements", .array [value])]

theorem documentOf_statementDocument {value : Value} {stmt : Stmt} {before after : Registry}
    (h : (readStmt ((Path.root.field "statements").item 0) Scopes.root value).run before
      = .ok (stmt, after)) :
    (documentOf (statementDocument value)).run before = .ok (⟨none, stmt.alone⟩, after) := by
  have hstmts : (readStmts (Path.root.field "statements") Scopes.root 0 [value]).run before
      = .ok ([stmt], after) := by
    rw [readStmts_cons]
    exact Import.run_map₂_eq_ok.mpr ⟨stmt, [], after, rfl, h, rfl⟩
  refine documentOf_eq_ok.mpr ⟨_, [stmt], rfl, .missing rfl, rfl, ?_⟩
  exact readBody_eq_ok.mpr ⟨[value], rfl, hstmts⟩

/-- **A statement that can be read behind others** can be read alone. -/
theorem readStmt_alone {path : Path} {value : Value} {stmt : Stmt} {before after : Registry}
    (h : (readStmt path Scopes.root value).run before = .ok (stmt, after)) :
    ∃ (own : Stmt) (registry : Registry),
      (documentOf (statementDocument value)).run {} = .ok (⟨none, own.alone⟩, registry) ∧
      stmt.alone.rehandle id
        = own.alone.rehandle (Handle.shift before.sourceMap.entries.toList.length) ∧
      after.sourceMap.entries.toList
        = before.sourceMap.entries.toList ++ registry.sourceMap.entries.toList := by
  let front := before.sourceMap.entries.toList
  let place : Path := (Path.root.field "statements").item 0
  have hplaces : (behind front).Places path place := fun _ => trivial
  have hscope : (behind front).scope Scopes.root = (behind front).scope' Scopes.root := rfl
  have hregistries : (behind front).registries before {} := (List.append_nil _).symm
  have halike := Comparison.alike_readStmt hplaces hscope value before {} hregistries
  change (behind front).Outcome _ _ ((readStmt place Scopes.root (strip [] value)).run {}) at halike
  rw [h, strip_nil] at halike
  -- the first reading succeeded, so that the second did
  generalize hrun : (readStmt place Scopes.root value).run {} = outcome at halike
  cases halike with
  | @ok _ own _ registry hstmt hentries =>
    refine ⟨own, registry, documentOf_statementDocument hrun, ?_, hentries⟩
    unfold Block.rehandle
    rw [Block.relocate_eq, Block.relocate_eq]
    exact congrArg (fun stmt => Block.mk Scopes.root [stmt]) hstmt

/-- A statement of a document, as it was read in the whole and as it is read alone. The source map
of the statement alone is embedded in `map`. -/
structure Piece (map : SourceMap) where
  value : Value
  stmt : Stmt
  own : Stmt
  registry : Registry
  embed : Handle → Handle
  read_alone : (documentOf (statementDocument value)).run {} = .ok (⟨none, own.alone⟩, registry)
  same : stmt.alone.rehandle id = own.alone.rehandle embed
  embeds : registry.sourceMap.Embeds embed map

/-- **A document falls into pieces.** Other locations may come behind those of the statements. -/
theorem exists_pieces {path : Path} {index : Nat} {values : List Value} {stmts : List Stmt}
    {before after : Registry} {map : SourceMap} {back : List SourceInfo}
    (h : (readStmts path Scopes.root index values).run before = .ok (stmts, after))
    (hmap : map.entries.toList = after.sourceMap.entries.toList ++ back) :
    (∃ pieces : List (Piece map), pieces.map Piece.value = values ∧
      pieces.map Piece.stmt = stmts) ∧
    ∃ added, after.sourceMap.entries.toList = before.sourceMap.entries.toList ++ added := by
  induction values generalizing index before stmts with
  | nil =>
    obtain ⟨rfl, rfl⟩ := Import.run_pure_eq_ok.mp h
    exact ⟨⟨[], rfl, rfl⟩, [], (List.append_nil _).symm⟩
  | cons value values ih =>
    rw [readStmts_cons] at h
    obtain ⟨stmt, stmts, middle, rfl, hstmt, hstmts⟩ := Import.run_map₂_eq_ok.mp h
    obtain ⟨own, registry, hown, hsame, hfirst⟩ := readStmt_alone hstmt
    obtain ⟨⟨pieces, hvalues, hrest⟩, added, hadded⟩ := ih hstmts
    -- the locations of the first statement stand in front of those of the others
    have hentries : map.entries.toList = before.sourceMap.entries.toList
        ++ (registry.sourceMap.entries.toList ++ (added ++ back)) := by
      rw [hmap, hadded, hfirst, List.append_assoc, List.append_assoc]
    let piece : Piece map :=
      { value, stmt, own, registry, embed := Handle.shift before.sourceMap.entries.toList.length,
        read_alone := hown, same := hsame, embeds := SourceMap.embeds_shift hentries }
    refine ⟨⟨piece :: pieces, ?_, ?_⟩, registry.sourceMap.entries.toList ++ added, ?_⟩
    · rw [List.map_cons, hvalues]
    · rw [List.map_cons, hrest]
    · rw [hadded, hfirst, List.append_assoc]

/-! ### Desugaring a statement alone -/

namespace Piece

open Definition

variable {map : SourceMap} (piece : Piece map) (keywords : Keywords)

/-- What becomes of the statement alone. -/
def out : Block :=
  piece.own.alone.canonicalAt keywords (fun i => .entry (piece.registry.sourceMap.size + i))
    (fun i => ⟨piece.registry.scopes.size + i⟩)

/-- The state after the pass over the statement alone. -/
def after : Progress :=
  ((piece.own.alone.desugar keywords).run { registry := piece.registry }).2

/-- The definitions of the statement. -/
abbrev definitions : List Definition :=
  piece.stmt.alone.definitions keywords

/-- The definitions of the statement alone. -/
abbrev ownDefinitions : List Definition :=
  piece.own.alone.definitions keywords

theorem definitions_eq :
    (piece.definitions keywords).map (relocate id fun _ => Scopes.root)
      = (piece.ownDefinitions keywords).map (relocate piece.embed fun _ => Scopes.root) := by
  rw [← Block.definitions_relocate, ← Block.definitions_relocate]
  exact congrArg (Block.definitions keywords) piece.same

/-- The definitions correspond one by one. -/
theorem exists_definition {i : Nat} {d : Definition}
    (hd : (piece.ownDefinitions keywords)[i]? = some d) :
    ∃ d', (piece.definitions keywords)[i]? = some d' ∧ d'.loc = piece.embed d.loc := by
  have hget := congrArg (fun ds : List Definition => ds[i]?) (piece.definitions_eq keywords)
  simp only [List.getElem?_map, hd, Option.map_some] at hget
  obtain ⟨d', hd', heq⟩ := Option.map_eq_some_iff.mp hget
  exact ⟨d', hd', congrArg Definition.loc heq⟩

/-- A view of definitions that does not change with handles and scopes. -/
theorem filterMap_definitions {β : Type} {view : Definition → Option β}
    (hview : ∀ d : Definition, view (d.relocate id fun _ => Scopes.root) = view d) :
    (piece.definitions keywords).filterMap view
      = ((piece.ownDefinitions keywords).map
        (relocate piece.embed fun _ => Scopes.root)).filterMap view := by
  rw [← piece.definitions_eq, List.filterMap_map]
  exact List.filterMap_congr fun d _ => (hview d).symm

theorem knows_own : ∀ handle ∈ piece.own.alone.handles, piece.registry.sourceMap.Knows handle :=
  knows_of_documentOf piece.read_alone

theorem knows_of_mem_definitions {d : Definition} (hd : d ∈ piece.ownDefinitions keywords)
    {handle : Handle} (h : handle ∈ d.expr.handles) : piece.registry.sourceMap.Knows handle :=
  piece.knows_own handle (Block.handles_definition hd h)

/-- **The canonical form** of the statement is that of the statement alone, with other handles and
scopes. The script flags take the handles of the supply. -/
theorem canonicalAt_rehandle (flag : Nat → Handle) (supply : Nat → ScopeId) :
    (piece.stmt.alone.canonicalAt keywords flag supply).rehandle id
      = (piece.out keywords).rehandle
        (Handle.extend piece.registry.sourceMap.size piece.embed flag) := by
  -- on the handles of the statement alone the two functions agree
  have hown : piece.own.alone.rehandle
        (Handle.extend piece.registry.sourceMap.size piece.embed flag)
      = piece.own.alone.rehandle piece.embed := by
    refine Block.relocate_congr (fun handle hhandle => ?_) fun _ _ => rfl
    exact Handle.extend_of_knows (piece.knows_own handle hhandle) _ _
  have hfresh : (Handle.extend piece.registry.sourceMap.size piece.embed flag)
      ∘ (fun i => .entry (piece.registry.sourceMap.size + i)) = flag :=
    funext fun i => Handle.extend_entry _ _ _ i
  have hsame := piece.same
  unfold Block.rehandle at hown hsame ⊢
  unfold out
  rw [Block.canonicalAt_relocate, Block.canonicalAt_relocate, hown, hfresh, hsame]
  rfl

/-- **The surface text of the statement** is that of the statement alone. -/
theorem surfaceAt_eq (flag : Nat → Handle) (supply : Nat → ScopeId) (width : Nat) :
    (piece.stmt.alone.canonicalAt keywords flag supply).surfaceAt width
      = (piece.out keywords).surfaceAt width := by
  have hsame := congrArg (Block.surfaceAt width) (piece.canonicalAt_rehandle keywords flag supply)
  unfold Block.rehandle at hsame
  rwa [Block.surfaceAt_relocate, Block.surfaceAt_relocate] at hsame

variable {keywords}

section Desugared

variable (hwell : ∀ d ∈ piece.definitions keywords, d.WellFormed)

include hwell

/-- If the definitions of the statement are well-formed, the statement alone can be desugared. -/
theorem run_eq :
    (piece.own.alone.desugar keywords).run { registry := piece.registry }
      = (.ok (piece.out keywords), piece.after keywords) := by
  have hown : ∀ d ∈ piece.ownDefinitions keywords, d.WellFormed := by
    have hsame := piece.same
    unfold Block.rehandle at hsame
    rw [← Block.wellFormed_relocate, hsame, Block.wellFormed_relocate] at hwell
    exact hwell
  obtain ⟨out, after, hrun⟩ :=
    (Block.desugar_succeeds_iff keywords _ { registry := piece.registry }).mpr hown
  unfold Piece.after
  rw [hrun, Block.eq_canonicalAt_of_desugar hrun]
  rfl

/-- **The reports** about the statement are those about the statement alone. -/
theorem reports_eq :
    ((piece.definitions keywords).filterMap fun d => d.problem?.map (Report.ofProblem map))
      = (piece.after keywords).reports := by
  rw [Block.reports_eq_of_desugar (piece.run_eq hwell) piece.knows_own, List.nil_append,
    piece.filterMap_definitions keywords fun d => ?_, List.filterMap_map]
  · refine List.filterMap_congr fun d hd => ?_
    rw [Function.comp_apply, problem?_relocate, Option.map_map]
    refine Option.map_congr fun problem hproblem => Report.ofProblem_relocate ?_
    have hloc : problem.loc ∈ d.expr.handles := loc_mem_of_problem? hproblem
    exact piece.embeds.position?_eq _ (piece.knows_of_mem_definitions keywords hd hloc)
  · rw [problem?_relocate, Option.map_map]
    refine Option.map_congr fun problem _ => ?_
    rw [Function.comp_apply, problem.relocate_id]

/-- **The records** of the statement are those of the statement alone, up to the handles that they
hold. -/
theorem records_eq {final : SourceMap}
    (hkept : ∀ handle, map.Knows handle → final.position? handle = map.position? handle) :
    ((piece.definitions keywords).filterMap summary?).map (DefinitionSummary.located final)
      = (piece.after keywords).records.map
        (DefinitionSummary.located (piece.after keywords).registry.sourceMap) := by
  obtain ⟨calls, -, hlaw⟩ := Block.desugar_closed (piece.run_eq hwell)
  rw [hlaw.records_eq, List.nil_append, piece.filterMap_definitions keywords fun d => ?_,
    List.filterMap_map, List.map_filterMap, List.map_filterMap]
  · refine List.filterMap_congr fun d hd => ?_
    -- the location of a record is that of the definition, which both maps know
    have hloc : piece.registry.sourceMap.Knows d.loc :=
      piece.knows_of_mem_definitions keywords hd d.expr.loc_mem_handles
    have hposition : final.position? (piece.embed d.loc)
        = (piece.after keywords).registry.sourceMap.position? d.loc := by
      rw [hkept _ (piece.embeds.knows _ hloc), piece.embeds.position?_eq _ hloc,
        Block.position?_of_desugar (piece.run_eq hwell) hloc]
    rw [Function.comp_apply, summary?_relocate, Option.map_map]
    refine Option.map_congr fun record hrecord => ?_
    obtain ⟨name, -, rfl⟩ := Option.map_eq_some_iff.mp hrecord
    simp only [Function.comp_apply, DefinitionSummary.located, hposition]
  · rw [summary?_relocate]
    exact Option.map_id'

section Written

variable {final : SourceMap} {flag : Nat → Handle}
  (hkept : ∀ handle, map.Knows handle → final.position? handle = map.position? handle)
  (hflags : ∀ i d, (piece.definitions keywords)[i]? = some d →
    final.position? (flag i) = map.position? d.loc)

include hkept hflags

/-- Every handle of the result alone has a counterpart that stands for the same position. -/
theorem position?_extend {handle : Handle} (h : handle ∈ (piece.out keywords).handles) :
    final.position? (handle.extend piece.registry.sourceMap.size piece.embed flag)
      = (piece.after keywords).registry.sourceMap.position? handle := by
  obtain hown | ⟨i, d, hd, rfl⟩ := Block.handles_of_desugar (piece.run_eq hwell) h
  · -- a handle of the statement
    have hknown := piece.knows_own handle hown
    rw [Handle.extend_of_knows hknown, hkept _ (piece.embeds.knows _ hknown),
      piece.embeds.position?_eq _ hknown, Block.position?_of_desugar (piece.run_eq hwell) hknown]
  · -- the handle of a script flag, which has the position of its definition
    obtain ⟨d', hd', hloc⟩ := piece.exists_definition keywords hd
    have hknown : piece.registry.sourceMap.Knows d.loc :=
      piece.knows_of_mem_definitions keywords (List.mem_of_getElem? hd) d.expr.loc_mem_handles
    rw [Handle.extend_entry, hflags i d' hd', hloc, piece.embeds.position?_eq _ hknown]
    exact (Block.position?_flag_of_desugar (piece.run_eq hwell) piece.knows_own hd).symm

/-- **What is written of the statement** is what is written of the statement alone. -/
theorem writeBlock_eq (supply : Nat → ScopeId) :
    writeBlock final (piece.stmt.alone.canonicalAt keywords flag supply)
      = writeBlock (piece.after keywords).registry.sourceMap (piece.out keywords) := by
  calc writeBlock final (piece.stmt.alone.canonicalAt keywords flag supply)
      = writeBlock final ((piece.stmt.alone.canonicalAt keywords flag supply).rehandle id) :=
        (writeBlock_relocate fun _ _ => rfl).symm
    _ = writeBlock final ((piece.out keywords).rehandle
          (Handle.extend piece.registry.sourceMap.size piece.embed flag)) := by
        rw [piece.canonicalAt_rehandle keywords flag supply]
    _ = writeBlock (piece.after keywords).registry.sourceMap (piece.out keywords) :=
        writeBlock_relocate fun handle hhandle => piece.position?_extend hwell hkept hflags hhandle

end Written

end Desugared

end Piece

/-! ### Putting the statements together -/

section Pieces

open Definition

variable {map final : SourceMap} {keywords : Keywords}

theorem definitions_pieces (scope : ScopeId) (pieces : List (Piece map)) :
    Block.definitions keywords ⟨scope, pieces.map Piece.stmt⟩
      = pieces.flatMap (·.definitions keywords) := by
  induction pieces with
  | nil => rfl
  | cons piece pieces ih => rw [List.map_cons, Block.definitions_cons, ih, List.flatMap_cons]

/-- Each statement of the result has the surface text that it has alone. -/
theorem surfaces_pieces (scope : ScopeId) (flag : Nat → Handle) (supply : Nat → ScopeId)
    (width : Nat) (pieces : List (Piece map)) :
    (Block.canonicalAt keywords flag supply ⟨scope, pieces.map Piece.stmt⟩).stmts.map
        (·.alone.surfaceAt width)
      = pieces.map fun piece => (piece.out keywords).surfaceAt width := by
  induction pieces generalizing flag supply with
  | nil => rfl
  | cons piece pieces ih =>
    rw [List.map_cons, List.map_cons, Block.stmts_canonicalAt_cons, List.map_append, ih,
      ← piece.surfaceAt_eq keywords flag supply width]
    rfl

/-- What is written of the result is what is written of the statements, each alone. -/
theorem writeBlock_pieces
    (hkept : ∀ handle, map.Knows handle → final.position? handle = map.position? handle)
    (scope : ScopeId) {flag : Nat → Handle} (supply : Nat → ScopeId) {pieces : List (Piece map)}
    (hwell : ∀ piece ∈ pieces, ∀ d ∈ piece.definitions keywords, d.WellFormed)
    (hflags : ∀ i d, (pieces.flatMap (·.definitions keywords))[i]? = some d →
      final.position? (flag i) = map.position? d.loc) :
    writeBlock final (Block.canonicalAt keywords flag supply ⟨scope, pieces.map Piece.stmt⟩)
      = pieces.flatMap fun piece =>
        writeBlock (piece.after keywords).registry.sourceMap (piece.out keywords) := by
  induction pieces generalizing flag supply with
  | nil => rfl
  | cons piece pieces ih =>
    obtain ⟨hfirst, hrest⟩ := List.forall_mem_cons.mp hwell
    -- the first statement takes the first flags, and the others take those behind
    have hown : ∀ i d, (piece.definitions keywords)[i]? = some d →
        final.position? (flag i) = map.position? d.loc := by
      intro i d hd
      refine hflags i d ?_
      rw [List.flatMap_cons, List.getElem?_append_left (List.getElem?_eq_some_iff.mp hd).1, hd]
    have hothers : ∀ i d, (pieces.flatMap (·.definitions keywords))[i]? = some d →
        final.position? (flag ((piece.definitions keywords).length + i)) = map.position? d.loc := by
      intro i d hd
      refine hflags _ d ?_
      rw [List.flatMap_cons, List.getElem?_append_right (Nat.le_add_right _ _),
        Nat.add_sub_cancel_left, hd]
    rw [List.map_cons, writeBlock_eq_flatMap, Block.stmts_canonicalAt_cons, List.flatMap_append,
      ← writeBlock_eq_flatMap, ← writeBlock_eq_flatMap, ih _ hrest hothers, List.flatMap_cons,
      piece.writeBlock_eq hfirst hkept hown]

end Pieces

/-! ### Whole documents -/

/-- The document can be read and desugared; `out` is the result, and `after` the state that the pass
leaves. -/
def Translates (keywords : Keywords) (value : Value) (out : Block) (after : Progress) : Prop :=
  ∃ document registry, (documentOf value).run {} = .ok (document, registry) ∧
    (document.body.desugar keywords).run { registry } = (.ok out, after)

/-- The statements of a document. -/
def statementsOf : Value → List Value
  | .object fields => itemsOf fields "statements"
  | _ => []

/-- The result of a translation is put together from pieces. -/
structure Assembled {map : SourceMap} (pieces : List (Piece map)) (keywords : Keywords)
    (out : Block) (after : Progress) : Prop where
  wellFormed : ∀ piece ∈ pieces, ∀ d ∈ piece.definitions keywords, d.WellFormed
  kept : ∀ handle, map.Knows handle →
    after.registry.sourceMap.position? handle = map.position? handle
  flags : ∀ i d, (pieces.flatMap (·.definitions keywords))[i]? = some d →
    after.registry.sourceMap.position? (.entry (map.size + i)) = map.position? d.loc
  out_eq : ∃ supply, out = Block.canonicalAt keywords (fun i => .entry (map.size + i)) supply
    ⟨Scopes.root, pieces.map Piece.stmt⟩
  records_eq : after.records
    = (pieces.flatMap (·.definitions keywords)).filterMap Definition.summary?
  reports_eq : after.reports = (pieces.flatMap (·.definitions keywords)).filterMap fun d =>
    d.problem?.map (Report.ofProblem map)

/-- **A translated document is put together** from the pieces that it was read as. -/
theorem Translates.assembled {keywords : Keywords} {value : Value} {out : Block} {after : Progress}
    (h : Translates keywords value out after) :
    ∃ (map : SourceMap) (pieces : List (Piece map)), pieces.map Piece.value = statementsOf value ∧
      Assembled pieces keywords out after := by
  obtain ⟨document, registry, hread, hrun⟩ := h
  have hknown := knows_of_documentOf hread
  obtain ⟨fields, stmts, rfl, -, hbody, hstmts⟩ := documentOf_eq_ok.mp hread
  obtain ⟨values, hvalues, hlist⟩ := readBody_eq_ok.mp hstmts
  have hmap : registry.sourceMap.entries.toList = registry.sourceMap.entries.toList ++ [] :=
    (List.append_nil _).symm
  obtain ⟨⟨pieces, hpieces, rfl⟩, -⟩ := exists_pieces hlist hmap
  rw [hbody] at hrun hknown
  have hwell := (Block.desugar_succeeds_iff keywords _ { registry }).mp ⟨out, after, hrun⟩
  rw [definitions_pieces] at hwell
  refine ⟨registry.sourceMap, pieces, ?_, ?_⟩
  · rw [hpieces]
    exact (itemsOf_eq hvalues).symm
  constructor
  case wellFormed =>
    intro piece hpiece d hd
    exact hwell d (List.mem_flatMap.mpr ⟨piece, hpiece, hd⟩)
  case kept =>
    intro handle hhandle
    exact Block.position?_of_desugar hrun hhandle
  case flags =>
    intro i d hd
    rw [← definitions_pieces Scopes.root] at hd
    exact Block.position?_flag_of_desugar hrun hknown hd
  case out_eq => exact ⟨_, Block.eq_canonicalAt_of_desugar hrun⟩
  case records_eq =>
    obtain ⟨calls, -, hlaw⟩ := Block.desugar_closed hrun
    rw [hlaw.records_eq, List.nil_append, definitions_pieces]
  case reports_eq =>
    rw [Block.reports_eq_of_desugar hrun hknown, List.nil_append, definitions_pieces]

namespace Assembled

variable {map : SourceMap} {pieces : List (Piece map)} {keywords : Keywords} {out : Block}
  {after : Progress} (h : Assembled pieces keywords out after)

include h

theorem writeBlock_eq : writeBlock after.registry.sourceMap out = pieces.flatMap fun piece =>
    writeBlock (piece.after keywords).registry.sourceMap (piece.out keywords) := by
  obtain ⟨supply, rfl⟩ := h.out_eq
  exact writeBlock_pieces h.kept Scopes.root supply h.wellFormed h.flags

theorem surfaceAt_eq (hne : pieces ≠ []) (width : Nat) :
    out.surfaceAt width
      = String.join (pieces.map fun piece => (piece.out keywords).surfaceAt width) := by
  obtain ⟨supply, rfl⟩ := h.out_eq
  have hsurfaces : _ = pieces.map fun piece => (piece.out keywords).surfaceAt width :=
    surfaces_pieces Scopes.root (fun i => .entry (map.size + i)) supply width pieces
  rw [Block.surfaceAt_eq_join, hsurfaces]
  intro hnil
  rw [hnil] at hsurfaces
  exact hne (List.map_eq_nil_iff.mp hsurfaces.symm)

theorem records_eq_flatMap :
    after.records.map (DefinitionSummary.located after.registry.sourceMap)
      = pieces.flatMap fun piece => (piece.after keywords).records.map
        (DefinitionSummary.located (piece.after keywords).registry.sourceMap) := by
  rw [h.records_eq, List.filterMap_flatMap, List.map_flatMap]
  exact List.flatMap_congr fun piece hpiece =>
    piece.records_eq (h.wellFormed piece hpiece) h.kept

theorem reports_eq_flatMap :
    after.reports = pieces.flatMap fun piece => (piece.after keywords).reports := by
  rw [h.reports_eq, List.filterMap_flatMap]
  exact List.flatMap_congr fun piece hpiece => piece.reports_eq (h.wellFormed piece hpiece)

end Assembled

/-- **Statements are independent of one another.** If a document with statements can be translated,
so can the document of each of its statements. What is written of the statements of the whole is
what is written of each alone, one after another, and the same holds of the surface text at every
width, of the records with the positions of the definitions, and of the reports. -/
theorem desugar_by_statements {keywords : Keywords} {value : Value} {out : Block}
    {after : Progress} (h : Translates keywords value out after) (hne : statementsOf value ≠ []) :
    ∃ singles : List (Block × Progress),
      List.Forall₂ (fun stmt single =>
        Translates keywords (statementDocument stmt) single.1 single.2)
        (statementsOf value) singles ∧
      writeBlock after.registry.sourceMap out
        = singles.flatMap (fun single => writeBlock single.2.registry.sourceMap single.1) ∧
      (∀ width, out.surfaceAt width
        = String.join (singles.map fun single => single.1.surfaceAt width)) ∧
      after.records.map (DefinitionSummary.located after.registry.sourceMap)
        = singles.flatMap (fun single =>
          single.2.records.map (DefinitionSummary.located single.2.registry.sourceMap)) ∧
      after.reports = singles.flatMap (fun single => single.2.reports) := by
  obtain ⟨map, pieces, hvalues, hassembled⟩ := h.assembled
  refine ⟨pieces.map fun piece => (piece.out keywords, piece.after keywords), ?_, ?_, ?_, ?_, ?_⟩
  · rw [← hvalues, List.forall₂_map_left_iff, List.forall₂_map_right_iff, List.forall₂_same]
    intro piece hpiece
    exact ⟨_, _, piece.read_alone, piece.run_eq (hassembled.wellFormed piece hpiece)⟩
  · rw [hassembled.writeBlock_eq, List.flatMap_map]
  · intro width
    have hpieces : pieces ≠ [] := by
      rintro rfl
      exact hne hvalues.symm
    rw [hassembled.surfaceAt_eq hpieces width, List.map_map]
    rfl
  · rw [hassembled.records_eq_flatMap, List.flatMap_map]
  · rw [hassembled.reports_eq_flatMap, List.flatMap_map]

/-- A statement that defines `name`, with the statements of its body, on a line. -/
def sampleLocated (name : String) (line : UInt64) (body : List Value) : Value :=
  let place : Fields := [("line", .number (.natural line))]
  let inner : Value := .object (("kind", .string "call") :: ("method", .string name) ::
    ("args", .array [.object (("kind", .string "closure") :: ("statements", .array body) :: place)])
    :: place)
  .object (("kind", .string "expr") :: ("expr", .object (("kind", .string "call") ::
    ("method", .string "process") :: ("args", .array [inner]) :: place)) :: place)

/-- Two definitions, of which the first has no script and the second has one. -/
def sampleDefinitions : Value :=
  let script : Value := .object [("kind", .string "expr"), ("expr", .object
    [("kind", .string "str"), ("value", .string "ls"), ("line", .number (.natural 3))])]
  .object [("statements", .array [sampleLocated "foo" 1 [], sampleLocated "bar" 2 [script]])]

theorem desugar_by_statements_definitions :
    statementsOf sampleDefinitions ≠ [] ∧
    ∃ out after, Translates .default sampleDefinitions out after ∧
      after.reports.map Report.line = [1] ∧
      after.records.map (DefinitionSummary.located after.registry.sourceMap)
        = [("process", "foo", some ⟨1, 0⟩, false), ("process", "bar", some ⟨2, 0⟩, true)] ∧
      ∃ singles : List (Block × Progress), singles.length = 2 ∧
        after.reports = singles.flatMap (fun single => single.2.reports) ∧
        after.records.map (DefinitionSummary.located after.registry.sourceMap)
          = singles.flatMap (fun single =>
            single.2.records.map (DefinitionSummary.located single.2.registry.sourceMap)) := by
  have hne : statementsOf sampleDefinitions ≠ [] := List.cons_ne_nil _ _
  obtain ⟨out, after, h, hlines, hrecords⟩ : ∃ out after,
      Translates .default sampleDefinitions out after ∧
      after.reports.map Report.line = [1] ∧
      after.records.map (DefinitionSummary.located after.registry.sourceMap)
        = [("process", "foo", some ⟨1, 0⟩, false), ("process", "bar", some ⟨2, 0⟩, true)] :=
    ⟨_, _, ⟨_, _, rfl, rfl⟩, rfl, rfl⟩
  obtain ⟨singles, hsingles, -, -, hrecords', hreports⟩ := desugar_by_statements h hne
  exact ⟨hne, out, after, h, hlines, hrecords, singles, hsingles.length_eq.symm, hreports,
    hrecords'⟩

end Interchange

end FlowDesugar
