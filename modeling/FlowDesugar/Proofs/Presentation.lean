import FlowDesugar.Interchange.Export
import FlowDesugar.Proofs.Relocated
import FlowDesugar.Tree.Surface

/-!
# What is shown of a relocated tree

A tree is shown in two forms. Its surface text has neither handles nor scopes, so relocation does
not change it (`Block.surfaceAt_relocate`). A document shows the positions that the handles stand
for, and nothing else of them: it stays the same if every handle is mapped to one that stands for
the same position, perhaps in another source map (`Interchange.writeBlock_relocate`).
-/

namespace FlowDesugar

section Relocate

variable {f : Handle → Handle} {g : ScopeId → ScopeId}

/-! ### Surface text -/

namespace Expr

theorem isBinary_relocate (e : Expr) : (e.relocate f g).isBinary = e.isBinary := by
  cases e <;> rfl

/-- Relocating the expression does not change its document. -/
private abbrev KeepsDoc (f : Handle → Handle) (g : ScopeId → ScopeId) (e : Expr) : Prop :=
  (e.relocate f g).doc = e.doc

private theorem exprDocs_relocate {es : List Expr} (h : ∀ e ∈ es, e.KeepsDoc f g) :
    exprDocs (relocateExprs f g es) = exprDocs es := by
  induction es with
  | nil => rfl
  | cons e es ih =>
    obtain ⟨hfirst, hrest⟩ := List.forall_mem_cons.mp h
    rw [relocateExprs, exprDocs, exprDocs, hfirst, ih hrest]

private theorem chunkDocs_relocate {chunks : List Chunk}
    (h : ∀ e ∈ chunks.filterMap Chunk.expr?, e.KeepsDoc f g) :
    chunkDocs (relocateChunks f g chunks) = chunkDocs chunks := by
  induction chunks with
  | nil => rfl
  | cons chunk chunks ih =>
    cases chunk with
    | text value =>
      rw [interpolated_text] at h
      rw [relocateChunks, chunkDocs, chunkDocs, ih h]
    | interpolation e =>
      rw [interpolated_interpolation] at h
      obtain ⟨hfirst, hrest⟩ := List.forall_mem_cons.mp h
      rw [relocateChunks, chunkDocs, chunkDocs, hfirst, ih hrest]

private theorem entryDocs_relocate {entries : List Entry}
    (h : ∀ e ∈ entries.map Entry.value, e.KeepsDoc f g) :
    entryDocs (relocateEntries f g entries) = entryDocs entries := by
  induction entries with
  | nil => rfl
  | cons entry entries ih =>
    obtain ⟨key, value⟩ := entry
    obtain ⟨hfirst, hrest⟩ := List.forall_mem_cons.mp h
    rw [relocateEntries, entryDocs, entryDocs, hfirst, ih hrest]

private theorem stmtDocs_relocate {stmts : List Stmt}
    (h : ∀ e ∈ stmts.map Stmt.expr, e.KeepsDoc f g) :
    stmtDocs (relocateStmts f g stmts) = stmtDocs stmts := by
  induction stmts with
  | nil => rfl
  | cons stmt stmts ih =>
    obtain ⟨returns, loc, label, e⟩ := stmt
    obtain ⟨hfirst, hrest⟩ := List.forall_mem_cons.mp h
    rw [relocateStmts, stmtDocs, stmtDocs, hfirst, ih hrest]

/-- **Surface text does not show handles and scopes.** -/
theorem doc_relocate (e : Expr) : (e.relocate f g).doc = e.doc := by
  induction e using inductionOnChildren with
  | node e ih =>
    cases e with
    | literal loc value => rfl
    | gstring loc chunks => rw [relocate, doc, doc, chunkDocs_relocate ih]
    | var loc name => rfl
    | property loc target name => rw [relocate, doc, doc, ih target List.mem_cons_self]
    | call loc receiver method args =>
      have hreceiver : receiverDoc (relocateReceiver f g receiver) = receiverDoc receiver := by
        cases receiver with
        | none => rfl
        | some receiver =>
          rw [relocateReceiver, receiverDoc, receiverDoc, ih receiver List.mem_cons_self]
      have hargs : exprDocs (relocateExprs f g args) = exprDocs args :=
        exprDocs_relocate fun arg harg => ih arg (List.mem_append_right _ harg)
      rw [relocate, doc, doc, hreceiver, hargs]
    | map loc entries =>
      -- an empty map has a notation of its own
      cases entries with
      | nil => rfl
      | cons entry entries =>
        have hentries := entryDocs_relocate ih
        obtain ⟨key, value⟩ := entry
        exact congrArg (fun docs => Doc.text "[" ++ Doc.commas docs ++ Doc.text "]") hentries
    | list loc items =>
      have hitems : exprDocs (relocateExprs f g items) = exprDocs items := exprDocs_relocate ih
      rw [relocate, doc, doc, hitems]
    | binary loc op left right =>
      rw [relocate, doc, doc, isBinary_relocate, isBinary_relocate, ih left List.mem_cons_self,
        ih right (List.mem_cons_of_mem _ List.mem_cons_self)]
    | closure loc params body =>
      cases body
      exact congrArg (Doc.braced params) (stmtDocs_relocate ih)
    | thunk loc body =>
      cases body
      exact congrArg (Doc.braced []) (stmtDocs_relocate ih)

end Expr

theorem Block.surfaceAt_relocate (width : Nat) (block : Block) :
    (block.relocate f g).surfaceAt width = block.surfaceAt width := by
  obtain ⟨scope, stmts⟩ := block
  have hdocs : stmtDocs (relocateStmts f g stmts) = stmtDocs stmts :=
    Expr.stmtDocs_relocate fun e _ => e.doc_relocate
  unfold surfaceAt doc
  rw [relocate, hdocs]

/-! ### Documents -/

namespace Interchange

variable {map map' : SourceMap}

theorem node_relocate {kind : String} {loc : Handle} {fields fields' : Json.Fields}
    (hloc : map'.position? (f loc) = map.position? loc) (hfields : fields = fields') :
    node map' kind (f loc) fields = node map kind loc fields' := by
  unfold node
  rw [hloc, hfields]

/-- Relocating the expression for another source map does not change what is written of it. -/
private abbrev KeepsNode (f : Handle → Handle) (g : ScopeId → ScopeId) (map map' : SourceMap)
    (e : Expr) : Prop :=
  writeExpr map' (e.relocate f g) = writeExpr map e

private theorem writeExprs_relocate {es : List Expr} (h : ∀ e ∈ es, KeepsNode f g map map' e) :
    writeExprs map' (relocateExprs f g es) = writeExprs map es := by
  induction es with
  | nil => rfl
  | cons e es ih =>
    obtain ⟨hfirst, hrest⟩ := List.forall_mem_cons.mp h
    exact congrArg₂ List.cons hfirst (ih hrest)

private theorem writeChunks_relocate {chunks : List Chunk}
    (h : ∀ e ∈ chunks.filterMap Chunk.expr?, KeepsNode f g map map' e) :
    writeChunks map' (relocateChunks f g chunks) = writeChunks map chunks := by
  induction chunks with
  | nil => rfl
  | cons chunk chunks ih =>
    cases chunk with
    | text value =>
      rw [interpolated_text] at h
      exact congrArg (Json.Value.string value :: ·) (ih h)
    | interpolation e =>
      rw [interpolated_interpolation] at h
      obtain ⟨hfirst, hrest⟩ := List.forall_mem_cons.mp h
      exact congrArg₂ List.cons hfirst (ih hrest)

private theorem writeEntries_relocate {entries : List Entry}
    (h : ∀ e ∈ entries.map Entry.value, KeepsNode f g map map' e) :
    writeEntries map' (relocateEntries f g entries) = writeEntries map entries := by
  induction entries with
  | nil => rfl
  | cons entry entries ih =>
    obtain ⟨key, value⟩ := entry
    obtain ⟨hfirst, hrest⟩ := List.forall_mem_cons.mp h
    exact congrArg₂ (fun value entries => (key, value) :: entries) hfirst (ih hrest)

private theorem writeStmts_relocate {stmts : List Stmt}
    (hlocs : ∀ stmt ∈ stmts, map'.position? (f stmt.loc) = map.position? stmt.loc)
    (h : ∀ e ∈ stmts.map Stmt.expr, KeepsNode f g map map' e) :
    writeStmts map' (relocateStmts f g stmts) = writeStmts map stmts := by
  induction stmts with
  | nil => rfl
  | cons stmt stmts ih =>
    obtain ⟨returns, loc, label, e⟩ := stmt
    obtain ⟨hloc, hlocs⟩ := List.forall_mem_cons.mp hlocs
    obtain ⟨hfirst, hrest⟩ := List.forall_mem_cons.mp h
    refine congrArg₂ List.cons (node_relocate hloc ?_) (ih hlocs hrest)
    exact congrArg (fun value => _ ++ [("expr", value)]) hfirst

/-- **A document shows the positions of handles** and nothing else of them. -/
theorem writeExpr_relocate {e : Expr}
    (h : ∀ handle ∈ e.handles, map'.position? (f handle) = map.position? handle) :
    writeExpr map' (e.relocate f g) = writeExpr map e := by
  induction e using Expr.inductionOnChildren with
  | node e ih =>
    have hloc : map'.position? (f e.loc) = map.position? e.loc := h e.loc e.loc_mem_handles
    have hchildren : ∀ c ∈ e.children, KeepsNode f g map map' c := fun c hc =>
      ih c hc fun handle hhandle => h handle (Expr.handles_child hc hhandle)
    have hbody : ∀ body, e.body? = some body →
        writeBlock map' (body.relocate f g) = writeBlock map body := by
      intro body hbody
      rw [Expr.handles_of_some hbody, body.handles_eq_stmts] at h
      rw [Expr.children_of_some hbody] at hchildren
      cases body
      refine writeStmts_relocate (fun stmt hstmt => h stmt.loc ?_) hchildren
      exact List.mem_cons_of_mem _ (List.mem_flatMap.mpr ⟨stmt, hstmt, List.mem_cons_self⟩)
    cases e with
    | literal loc value => cases value <;> exact node_relocate hloc rfl
    | gstring loc chunks =>
      refine node_relocate hloc ?_
      rw [writeChunks_relocate hchildren]
    | var loc name => exact node_relocate hloc rfl
    | property loc target name =>
      refine node_relocate hloc ?_
      rw [hchildren target List.mem_cons_self]
    | call loc receiver method args =>
      have hreceiver : writeReceiver map' (relocateReceiver f g receiver)
          = writeReceiver map receiver := by
        cases receiver with
        | none => rfl
        | some receiver =>
          have hnode := hchildren receiver List.mem_cons_self
          exact congrArg (fun receiver => [("receiver", receiver)]) hnode
      have hargs : writeExprs map' (relocateExprs f g args) = writeExprs map args :=
        writeExprs_relocate fun arg harg => hchildren arg (List.mem_append_right _ harg)
      refine node_relocate hloc ?_
      rw [hreceiver, hargs]
    | map loc entries =>
      refine node_relocate hloc ?_
      rw [writeEntries_relocate hchildren]
    | list loc items =>
      have hitems : writeExprs map' (relocateExprs f g items) = writeExprs map items :=
        writeExprs_relocate hchildren
      refine node_relocate hloc ?_
      rw [hitems]
    | binary loc op left right =>
      refine node_relocate hloc ?_
      rw [hchildren left List.mem_cons_self,
        hchildren right (List.mem_cons_of_mem _ List.mem_cons_self)]
    | closure loc params body =>
      refine node_relocate hloc ?_
      rw [hbody body rfl]
    | thunk loc body =>
      refine node_relocate hloc ?_
      rw [hbody body rfl]

theorem writeBlock_relocate {block : Block}
    (h : ∀ handle ∈ block.handles, map'.position? (f handle) = map.position? handle) :
    writeBlock map' (block.relocate f g) = writeBlock map block := by
  rw [block.handles_eq_stmts] at h
  obtain ⟨scope, stmts⟩ := block
  have hstmt : ∀ stmt ∈ stmts, ∀ handle ∈ stmt.handles,
      map'.position? (f handle) = map.position? handle := fun stmt hstmt handle hhandle =>
    h handle (List.mem_flatMap.mpr ⟨stmt, hstmt, hhandle⟩)
  refine writeStmts_relocate (fun stmt hmem => hstmt stmt hmem stmt.loc List.mem_cons_self) ?_
  refine List.forall_mem_map.mpr fun stmt hmem => writeExpr_relocate fun handle hhandle => ?_
  exact hstmt stmt hmem handle (List.mem_cons_of_mem _ hhandle)

end Interchange

end Relocate

end FlowDesugar
