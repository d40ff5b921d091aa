import FlowDesugar.Proofs.Letters
import FlowDesugar.Proofs.Presentation
import FlowDesugar.Proofs.Provenance

/-!
# Statement by statement

What becomes of a block is put together from what becomes of its statements, each in a block of its
own (`Stmt.alone`).

* `Block.surfaceAt_eq_join` — the surface text of a block is that of its statements, one after
  another. A newline stands between them, so that whether something fits on its line never depends
  on another statement;
* `Interchange.writeBlock_eq_flatMap` — the same for documents;
* `Block.stmts_canonicalAt_cons` — in the canonical form of a block the first statement takes what
  it needs from the supply of handles and scopes, and the others take what comes after.
-/

namespace FlowDesugar

/-- The block that holds one statement alone. -/
def Stmt.alone (stmt : Stmt) : Block :=
  ⟨Scopes.root, [stmt]⟩

/-! ### Surface text -/

namespace Doc

/-- **A hard line cuts a page in two.** What is in front of it is laid out with room for all that
follows, and what is behind it starts in the first column. -/
theorem page_append_hardline (width : Nat) (doc rest : Doc) :
    (doc ++ hardline ++ rest).page width = doc.page width ++ rest.page width := by
  have hrender : ((doc ++ hardline ++ rest).render width .broken 0 (fun _ => true) 0).1
      = ((doc.render width .broken 0 (fun _ => true) 0).1 ++ ['\n'])
        ++ (rest.render width .broken 0 (fun _ => true) 0).1 := rfl
  rw [page_eq, page_eq, page_eq, hrender, List.append_assoc, String.ofList_append]

theorem page_intersperse_hardline (width : Nat) {docs : List Doc} (h : docs ≠ []) :
    (intersperse hardline docs).page width = String.join (docs.map (page width)) := by
  induction docs with
  | nil => exact absurd rfl h
  | cons doc docs ih =>
    cases docs with
    | nil => simp [intersperse, String.join]
    | cons next docs =>
      have hrest := ih (List.cons_ne_nil _ _)
      rw [List.map_cons (a := doc), String.join_cons, ← hrest]
      exact page_append_hardline width doc _

end Doc

theorem stmtDocs_eq (stmts : List Stmt) : stmtDocs stmts = stmts.map Stmt.doc := by
  induction stmts with
  | nil => rfl
  | cons stmt stmts ih =>
    cases stmt
    rw [stmtDocs, ih, List.map_cons]
    rfl

theorem Stmt.surfaceAt_alone (width : Nat) (stmt : Stmt) :
    stmt.alone.surfaceAt width = stmt.doc.page width := by
  cases stmt
  rfl

/-- **The surface text of a block** is that of its statements, one after another. -/
theorem Block.surfaceAt_eq_join (width : Nat) {block : Block} (h : block.stmts ≠ []) :
    block.surfaceAt width = String.join (block.stmts.map (·.alone.surfaceAt width)) := by
  have hdocs : block.stmts.map Stmt.doc ≠ [] := fun hnil => h (List.map_eq_nil_iff.mp hnil)
  unfold surfaceAt doc
  rw [stmtDocs_eq, Doc.page_intersperse_hardline width hdocs, List.map_map]
  refine congrArg String.join (List.map_congr_left fun stmt _ => ?_)
  exact (stmt.surfaceAt_alone width).symm

/-! ### Documents -/

theorem Interchange.writeBlock_eq_flatMap (map : SourceMap) (block : Block) :
    writeBlock map block = block.stmts.flatMap fun stmt => writeBlock map stmt.alone := by
  obtain ⟨scope, stmts⟩ := block
  change writeStmts map stmts = _
  induction stmts with
  | nil => rfl
  | cons stmt stmts ih =>
    cases stmt
    rw [List.flatMap_cons, ← ih]
    rfl

/-! ### Canonical forms -/

namespace Definition

theorem length_canonicalsAt (flag : Nat → Handle) (scope : Nat → ScopeId) (ds : List Definition) :
    (canonicalsAt flag scope ds).length = ds.length := by
  induction ds generalizing flag scope with
  | nil => rfl
  | cons d ds ih => rw [canonicalsAt, List.length_cons, List.length_cons, ih]

/-- Definitions one after another take one part of the supply after another. -/
theorem canonicalsAt_append (flag : Nat → Handle) (scope : Nat → ScopeId)
    (ds ds' : List Definition) :
    canonicalsAt flag scope (ds ++ ds')
      = canonicalsAt flag scope ds
        ++ canonicalsAt (fun i => flag (ds.length + i))
          (fun i => scope (ds.countP opensScope + i)) ds' := by
  induction ds generalizing flag scope with
  | nil => simp [canonicalsAt]
  | cons d ds ih =>
    -- the first definition takes one handle, and a scope if it opens one
    have hflag : ∀ i, ds.length + i + 1 = (d :: ds).length + i := by
      intro i
      rw [List.length_cons]
      omega
    have hscope : ∀ i, ds.countP opensScope + i + (if d.opensScope then 1 else 0)
        = (d :: ds).countP opensScope + i := by
      intro i
      rw [List.countP_cons]
      omega
    rw [List.cons_append, canonicalsAt, canonicalsAt, ih, List.cons_append]
    simp only [hflag, hscope]

end Definition

open Definition

namespace Block

variable {keywords : Keywords}

theorem definitions_cons (scope : ScopeId) (stmt : Stmt) (stmts : List Stmt) :
    definitions keywords ⟨scope, stmt :: stmts⟩
      = definitions keywords stmt.alone ++ definitions keywords ⟨scope, stmts⟩ := by
  change stmt.expr.definitions keywords ++ definitions keywords ⟨scope, stmts⟩
    = (stmt.expr.definitions keywords ++ []) ++ definitions keywords ⟨scope, stmts⟩
  rw [List.append_nil]

/-- Calls are dealt out to the first statement and then to the others. -/
theorem stmts_fill_cons (scope : ScopeId) (stmt : Stmt) (stmts : List Stmt)
    {calls calls' : List Expr} (h : calls.length = (definitions keywords stmt.alone).length) :
    (fill keywords ⟨scope, stmt :: stmts⟩ (calls ++ calls')).stmts
      = (fill keywords stmt.alone calls).stmts ++ (fill keywords ⟨scope, stmts⟩ calls').stmts := by
  -- the block of the statement alone has the definitions of its expression and no others
  have hcount : (stmt.expr.definitions keywords).length = calls.length := by
    change calls.length = (stmt.expr.definitions keywords ++ []).length at h
    rw [h, List.append_nil]
  change stmt.withExpr (stmt.expr.fill keywords
        ((calls ++ calls').take (stmt.expr.definitions keywords).length))
      :: (fill keywords ⟨scope, stmts⟩
        ((calls ++ calls').drop (stmt.expr.definitions keywords).length)).stmts
    = stmt.withExpr (stmt.expr.fill keywords
        (calls.take (stmt.expr.definitions keywords).length))
      :: (fill keywords ⟨scope, stmts⟩ calls').stmts
  rw [hcount, List.take_left, List.drop_left, List.take_length]

/-- **The canonical form of a block**, statement by statement. -/
theorem stmts_canonicalAt_cons (flag : Nat → Handle) (supply : Nat → ScopeId) (scope : ScopeId)
    (stmt : Stmt) (stmts : List Stmt) :
    (canonicalAt keywords flag supply ⟨scope, stmt :: stmts⟩).stmts
      = (canonicalAt keywords flag supply stmt.alone).stmts
        ++ (canonicalAt keywords
          (fun i => flag ((definitions keywords stmt.alone).length + i))
          (fun i => supply ((definitions keywords stmt.alone).countP opensScope + i))
          ⟨scope, stmts⟩).stmts := by
  unfold canonicalAt
  rw [definitions_cons, canonicalsAt_append, List.map_append]
  refine stmts_fill_cons scope stmt stmts ?_
  rw [List.length_map, length_canonicalsAt]

end Block

end FlowDesugar
