import FlowDesugar.Interchange.Export
import FlowDesugar.Proofs.Arenas
import FlowDesugar.Proofs.Everywhere
import FlowDesugar.Proofs.Reading
import FlowDesugar.Proofs.Relocation

/-!
# Reading back what was written

A document that was written for a tree is read as the same tree. The reader mints handles and opens
scopes of its own, so that the two trees agree up to these (`Expr.bare`), and every node has the
position that it had (`SamePlaces`). Both are proved together: `Interchange.Recovers` says them of a
reader, for expressions, lists of them and statements alike.

The one thing that is lost is the difference between a thunk and a closure without parameters. A
tree that was read holds no such closure, and neither does what becomes of it by desugaring.

* `Interchange.recoverable_of_namesParams` — an expression that was written is recovered;
* `Interchange.documentOf_writeDocument` — so is a document.
-/

namespace FlowDesugar

/-! ### The same places -/

/-- Handles `new` that a reader gave out stand for the same positions as the handles `old` do in
`map`, one by one. The reader had the locations `before` and has the locations `after`. -/
structure SamePlaces (map : SourceMap) (old : List Handle) (before after : SourceMap)
    (new : List Handle) : Prop where
  grows : after.Extends before
  /-- Later readings do not change what the handles stand for. -/
  knows : ∀ handle ∈ new, after.Knows handle
  positions_eq : new.map after.position? = old.map map.position?

namespace SamePlaces

variable {map before middle after : SourceMap} {old old' new new' : List Handle}

theorem nil : SamePlaces map [] before before [] :=
  ⟨.refl before, nofun, rfl⟩

/-- One reading after another. -/
theorem append (h : SamePlaces map old before middle new)
    (h' : SamePlaces map old' middle after new') :
    SamePlaces map (old ++ old') before after (new ++ new') where
  grows := h.grows.trans h'.grows
  knows := List.forall_mem_append.mpr
    ⟨fun handle hmem => h'.grows.knows (h.knows handle hmem), h'.knows⟩
  positions_eq := by
    -- what was noted first is known by then, and keeps its position
    have hkept : new.map after.position? = new.map middle.position? :=
      List.map_congr_left fun handle hmem => h'.grows.position?_eq (h.knows handle hmem)
    rw [List.map_append, List.map_append, hkept, h.positions_eq, h'.positions_eq]

end SamePlaces

/-! ### Named parameters -/

/-- The node is no closure without parameters. -/
def Expr.NamesParams : Expr → Prop
  | .closure _ params _ => params ≠ []
  | _ => True

theorem persists_namesParams : Persists Expr.NamesParams where
  text _ _ := trivial
  bool _ _ := trivial
  call _ _ _ _ := trivial
  thunk _ _ := trivial
  withChildren e exprs h := by
    cases e with
    | closure loc params body => exact h
    | call loc receiver method args =>
      cases receiver with
      | none => trivial
      | some receiver => cases exprs <;> trivial
    | property loc target name =>
      match exprs with
      | [] | [_] | _ :: _ :: _ => trivial
    | binary loc op left right =>
      match exprs with
      | [] | [_] | [_, _] | _ :: _ :: _ :: _ => trivial
    | _ => trivial

namespace Interchange

open Json (Value Fields Path)

/-! ### Written nodes -/

/-- The fields of a written node. -/
def nodeFields (map : SourceMap) (kind : String) (loc : Handle) (fields : Fields) : Fields :=
  let position := match map.position? loc with
    | some position =>
      [("line", .number (.natural position.line)), ("column", .number (.natural position.column))]
    | none => []
  ("kind", .string kind) :: position ++ fields

variable {map : SourceMap} {kind : String} {loc : Handle} {fields : Fields}

theorem node_eq : node map kind loc fields = .object (nodeFields map kind loc fields) := rfl

theorem get?_nodeFields_kind : (nodeFields map kind loc fields).get? "kind" = some (.string kind) :=
  rfl

/-- The fields of a kind are found behind those that every node has. -/
theorem get?_nodeFields {name : String} (h : name ∉ ["kind", "line", "column"]) :
    (nodeFields map kind loc fields).get? name = fields.get? name := by
  have hkind : "kind" ≠ name := fun h' => h (by simp [← h'])
  have hline : "line" ≠ name := fun h' => h (by simp [← h'])
  have hcolumn : "column" ≠ name := fun h' => h (by simp [← h'])
  unfold nodeFields
  cases map.position? loc with
  | some position => simp [Fields.get?, hkind, hline, hcolumn]
  | none => simp [Fields.get?, hkind]

/-- **The location of a written node** is noted at the position where it was. -/
theorem noteLocation_nodeFields (map : SourceMap) (kind : String) (loc : Handle)
    (hline : fields.get? "line" = none) (before : Registry) :
    ∃ loc' after, (noteLocation (nodeFields map kind loc fields)).run before = .ok (loc', after) ∧
      SamePlaces map [loc] before.sourceMap after.sourceMap [loc'] := by
  cases hposition : map.position? loc with
  | some position =>
    -- the new location is the last one, and has the position that was written
    have hrun : (noteLocation (nodeFields map kind loc fields)).run before =
        .ok ((before.sourceMap.add position).1,
          { before with sourceMap := (before.sourceMap.add position).2 }) := by
      unfold noteLocation nodeFields
      rw [hposition]
      rfl
    refine ⟨_, _, hrun, SourceMap.extends_mint _ _, ?_, ?_⟩
    · refine List.forall_mem_singleton.mpr ?_
      change before.sourceMap.size < (before.sourceMap.mint _).2.size
      rw [SourceMap.size_mint]
      exact Nat.lt_succ_self _
    · have hnew : (before.sourceMap.add position).2.position? (before.sourceMap.add position).1
          = some position := by
        unfold SourceMap.position? SourceMap.add
        rw [SourceMap.info?_mint_self]
        rfl
      rw [List.map_singleton, List.map_singleton, hposition, hnew]
  | none =>
    -- no line was written, neither by the node nor by its kind
    have hrun : (noteLocation (nodeFields map kind loc fields)).run before
        = .ok (.unknown, before) := by
      have hget : (nodeFields map kind loc fields).get? "line" = none := by
        unfold nodeFields
        rw [hposition]
        exact hline
      change noteLocation _ before = _
      unfold noteLocation
      rw [hget]
      rfl
    refine ⟨_, _, hrun, .refl _, List.forall_mem_singleton.mpr trivial, ?_⟩
    rw [List.map_singleton, List.map_singleton, hposition]
    rfl

/-- Opening a scope leaves the locations alone. -/
theorem openScope_run (parent : ScopeId) (before : Registry) :
    ∃ inner opened, (openScope parent).run before = .ok (inner, opened) ∧
      opened.sourceMap = before.sourceMap :=
  ⟨_, _, rfl, rfl⟩

/-! ### Names -/

theorem ofName?_name (kind : Kind) : Kind.ofName? kind.name = some kind := by
  cases kind <;> rfl

theorem ofSymbol?_symbol (op : Operator) : Operator.ofSymbol? op.symbol = some op := by
  cases op <;> rfl

theorem stmtReturns?_stmtKind (returns : Bool) :
    stmtReturns? (stmtKind returns) = some returns := by
  cases returns <;> rfl

theorem strings?_map_string (texts : List String) : strings? (texts.map .string) = some texts := by
  induction texts with
  | nil => rfl
  | cons text texts ih => rw [List.map_cons, strings?, ih, Option.map_some]

/-! ### Recovering what was written -/

/-- The reader has a result, whatever the registry. The result is `a` up to handles and scopes, and
its handles stand for the positions that those of `a` have in `map`. -/
def Recovers {α : Type} (map : SourceMap)
    (relocate : (Handle → Handle) → (ScopeId → ScopeId) → α → α) (handles : α → List Handle) (a : α)
    (reader : Import α) : Prop :=
  ∀ before : Registry, ∃ a' after, reader.run before = .ok (a', after) ∧
    relocate (fun _ => .unknown) (fun _ => Scopes.root) a'
      = relocate (fun _ => .unknown) (fun _ => Scopes.root) a ∧
    SamePlaces map (handles a) before.sourceMap after.sourceMap (handles a')

/-- A node is recovered if the fields of its kind are, whatever handle the node itself gets. They
are found among the fields that were written. -/
theorem recovers_node {path : Path} {scope : ScopeId} {kind : Kind} {e : Expr}
    {inside : List Handle} (hline : fields.get? "line" = none)
    (hhandles : e.handles = loc :: inside)
    (hread : ∀ written : Fields,
      (∀ name, name ∉ ["kind", "line", "column"] → written.get? name = fields.get? name) →
      ∀ loc' (before : Registry), ∃ e' after inside',
        ReadNode path scope written loc' before kind e' after ∧ e'.bare = e.bare ∧
        e'.handles = loc' :: inside' ∧
        SamePlaces map inside before.sourceMap after.sourceMap inside') :
    Recovers map Expr.relocate Expr.handles e
      (readExpr path scope (node map kind.name loc fields)) := by
  intro before
  obtain ⟨loc', middle, hloc, hplace⟩ :=
    noteLocation_nodeFields map kind.name loc hline before
  obtain ⟨e', after, inside', hnode, hbare, hhandles', hplaces⟩ :=
    hread (nodeFields map kind.name loc fields) (fun _ hname => get?_nodeFields hname) loc' middle
  have hkind : kindOf? (nodeFields map kind.name loc fields) = some kind :=
    kindOf?_eq_some.mpr ⟨kind.name, get?_nodeFields_kind, ofName?_name kind⟩
  refine ⟨e', after, ?_, hbare, ?_⟩
  · exact readExpr_eq_ok.mpr ⟨_, loc', middle, kind, node_eq, hloc, hkind, hnode⟩
  · rw [hhandles, hhandles']
    exact hplace.append hplaces

/-- Every reading of what is written for the expression recovers it. -/
def Recoverable (map : SourceMap) (e : Expr) : Prop :=
  ∀ path scope, Recovers map Expr.relocate Expr.handles e (readExpr path scope (writeExpr map e))

variable (path : Path) (scope : ScopeId)

theorem recovers_readExprs {es : List Expr} (h : ∀ e ∈ es, Recoverable map e) (index : Nat) :
    Recovers map relocateExprs handlesInExprs es
      (readExprs path scope index (writeExprs map es)) := by
  induction es generalizing index with
  | nil => exact fun before => ⟨[], before, rfl, rfl, .nil⟩
  | cons e es ih =>
    intro before
    obtain ⟨hfirst, hrest⟩ := List.forall_mem_cons.mp h
    obtain ⟨e', middle, he, hbare, hplaces⟩ := hfirst (path.item index) scope before
    obtain ⟨es', after, hes, hbares, hplaces'⟩ := ih hrest (index + 1) middle
    refine ⟨e' :: es', after, readExprs_cons_eq_ok.mpr ⟨e', es', middle, rfl, he, hes⟩, ?_, ?_⟩
    · rw [relocateExprs, hbare, hbares, ← relocateExprs]
    · exact hplaces.append hplaces'

theorem recovers_readChunks {chunks : List Chunk}
    (h : ∀ e ∈ chunks.filterMap Chunk.expr?, Recoverable map e) (index : Nat) :
    Recovers map relocateChunks handlesInChunks chunks
      (readChunks path scope index (writeChunks map chunks)) := by
  induction chunks generalizing index with
  | nil => exact fun before => ⟨[], before, rfl, rfl, .nil⟩
  | cons chunk chunks ih =>
    intro before
    cases chunk with
    | text value =>
      obtain ⟨cs, after, hcs, hbares, hplaces⟩ := ih h (index + 1) before
      refine ⟨.text value :: cs, after,
        readChunks_cons_eq_ok.mpr ⟨_, cs, before, rfl, .text, hcs⟩, ?_, hplaces⟩
      rw [relocateChunks, hbares, ← relocateChunks]
    | interpolation e =>
      obtain ⟨hfirst, hrest⟩ := List.forall_mem_cons.mp h
      obtain ⟨e', middle, he, hbare, hplaces⟩ := hfirst (path.item index) scope before
      obtain ⟨cs, after, hcs, hbares, hplaces'⟩ := ih hrest (index + 1) middle
      refine ⟨.interpolation e' :: cs, after,
        readChunks_cons_eq_ok.mpr ⟨_, cs, middle, rfl, .interpolation he, hcs⟩, ?_, ?_⟩
      · rw [relocateChunks, hbare, hbares, ← relocateChunks]
      · exact hplaces.append hplaces'

theorem recovers_readValues {entries : List Entry}
    (h : ∀ e ∈ entries.map Entry.value, Recoverable map e) :
    Recovers map relocateEntries handlesInEntries entries
      (readValues path scope (writeEntries map entries)) := by
  induction entries with
  | nil => exact fun before => ⟨[], before, rfl, rfl, .nil⟩
  | cons entry entries ih =>
    intro before
    obtain ⟨key, e⟩ := entry
    obtain ⟨hfirst, hrest⟩ := List.forall_mem_cons.mp h
    obtain ⟨e', middle, he, hbare, hplaces⟩ := hfirst (path.field key) scope before
    obtain ⟨es, after, hes, hbares, hplaces'⟩ := ih hrest middle
    refine ⟨⟨key, e'⟩ :: es, after,
      readValues_cons_eq_ok.mpr ⟨e', es, middle, rfl, he, hes⟩, ?_, ?_⟩
    · rw [relocateEntries, hbare, hbares, ← relocateEntries]
    · exact hplaces.append hplaces'

/-- The fields of a statement besides those that every node has. -/
def stmtFields (map : SourceMap) (stmt : Stmt) : Fields :=
  (match stmt.label with
    | some label => [("label", Value.string label)]
    | none => []) ++ [("expr", writeExpr map stmt.expr)]

theorem writeStmts_cons (stmt : Stmt) (stmts : List Stmt) :
    writeStmts map (stmt :: stmts) =
      node map (stmtKind stmt.returns) stmt.loc (stmtFields map stmt) :: writeStmts map stmts := by
  cases stmt
  rfl

theorem get?_stmtFields_line (stmt : Stmt) : (stmtFields map stmt).get? "line" = none := by
  unfold stmtFields
  cases stmt.label <;> rfl

theorem get?_stmtFields_expr (stmt : Stmt) :
    (stmtFields map stmt).get? "expr" = some (writeExpr map stmt.expr) := by
  unfold stmtFields
  cases stmt.label <;> rfl

theorem optionalText_stmtFields (stmt : Stmt) :
    OptionalText (nodeFields map kind loc (stmtFields map stmt)) "label" stmt.label := by
  have hget : (nodeFields map kind loc (stmtFields map stmt)).get? "label"
      = (stmtFields map stmt).get? "label" := get?_nodeFields (by decide)
  unfold stmtFields at hget ⊢
  cases hlabel : stmt.label with
  | some label =>
    rw [hlabel] at hget
    exact .text hget
  | none =>
    rw [hlabel] at hget
    exact .missing hget

theorem recovers_readStmts {stmts : List Stmt} (h : ∀ e ∈ stmts.map Stmt.expr, Recoverable map e)
    (index : Nat) :
    Recovers map relocateStmts handlesInStmts stmts
      (readStmts path scope index (writeStmts map stmts)) := by
  induction stmts generalizing index with
  | nil => exact fun before => ⟨[], before, rfl, rfl, .nil⟩
  | cons stmt stmts ih =>
    intro before
    obtain ⟨hfirst, hrest⟩ := List.forall_mem_cons.mp h
    -- first the statement gets its handle, then its expression is read, then the other statements
    obtain ⟨loc', noted, hloc, hplace⟩ :=
      noteLocation_nodeFields map (stmtKind stmt.returns) stmt.loc (get?_stmtFields_line stmt) before
    obtain ⟨e', middle, he, hbare, hplaces⟩ := hfirst ((path.item index).field "expr") scope noted
    obtain ⟨stmts', after, hstmts, hbares, hplaces'⟩ := ih hrest (index + 1) middle
    have hexpr : (readField (path.item index) scope "expr"
        (nodeFields map (stmtKind stmt.returns) stmt.loc (stmtFields map stmt))).run noted
          = .ok (e', middle) := by
      refine readField_eq_ok.mpr ⟨_, ?_, he⟩
      rw [get?_nodeFields (by decide), get?_stmtFields_expr]
    have hread : ReadStmt (path.item index) scope before
        (nodeFields map (stmtKind stmt.returns) stmt.loc (stmtFields map stmt))
        ⟨stmt.returns, loc', stmt.label, e'⟩ middle :=
      ⟨optionalText_stmtFields stmt, ⟨_, get?_nodeFields_kind, stmtReturns?_stmtKind _⟩,
        ⟨noted, hloc, hexpr⟩⟩
    refine ⟨⟨stmt.returns, loc', stmt.label, e'⟩ :: stmts', after, ?_, ?_, ?_⟩
    · rw [writeStmts_cons]
      exact readStmts_cons_eq_ok.mpr ⟨_, _, stmts', middle, node_eq, rfl, hread, hstmts⟩
    · cases stmt
      rw [relocateStmts, hbare, hbares]
      rfl
    · cases stmt
      exact hplace.append (hplaces.append hplaces')

/-- The statements of a block in the fields of a node. -/
theorem recovers_readBody {block : Block} (h : ∀ e ∈ block.children, Recoverable map e)
    (hfield : fields.get? "statements" = some (.array (writeBlock map block))) :
    Recovers map relocateStmts handlesInStmts block.stmts (readBody path scope fields) := by
  intro before
  obtain ⟨stmts', after, hstmts, hrest⟩ :=
    recovers_readStmts (path.field "statements") scope h 0 before
  cases block
  exact ⟨stmts', after, readBody_eq_ok.mpr ⟨_, hfield, hstmts⟩, hrest⟩

/-! ### Expressions, kind by kind

The receiver and the arguments, the two sides of an operator and so on are read one after another,
each from the registry that the one before has left. -/

theorem recoverable_literal (value : Literal) : Recoverable map (.literal loc value) := by
  intro path scope
  cases value with
  | text value =>
    refine recovers_node rfl rfl fun written hget loc' before => ?_
    exact ⟨_, before, [], .str (hget "value" (by decide)), rfl, rfl, .nil⟩
  | number value =>
    refine recovers_node rfl rfl fun written hget loc' before => ?_
    exact ⟨_, before, [], .num (hget "value" (by decide)), rfl, rfl, .nil⟩
  | bool value =>
    refine recovers_node rfl rfl fun written hget loc' before => ?_
    exact ⟨_, before, [], .bool (hget "value" (by decide)), rfl, rfl, .nil⟩
  | null =>
    refine recovers_node rfl rfl fun written hget loc' before => ?_
    exact ⟨_, before, [], .null, rfl, rfl, .nil⟩

theorem recoverable_gstring {chunks : List Chunk}
    (h : ∀ e ∈ chunks.filterMap Chunk.expr?, Recoverable map e) :
    Recoverable map (.gstring loc chunks) := by
  intro path scope
  refine recovers_node rfl rfl fun written hget loc' before => ?_
  obtain ⟨chunks', after, hchunks, hbare, hplaces⟩ :=
    recovers_readChunks (path.field "parts") scope h 0 before
  have hparts := readParts_eq_ok.mpr ⟨_, hget "parts" (by decide), hchunks⟩
  refine ⟨.gstring loc' chunks', after, _, .gstring hparts, ?_, rfl, hplaces⟩
  exact congrArg (Expr.gstring .unknown) hbare

theorem recoverable_var (name : String) : Recoverable map (.var loc name) := by
  intro path scope
  refine recovers_node rfl rfl fun written hget loc' before => ?_
  exact ⟨_, before, [], .var (hget "name" (by decide)), rfl, rfl, .nil⟩

theorem recoverable_property {target : Expr} {name : String} (h : Recoverable map target) :
    Recoverable map (.property loc target name) := by
  intro path scope
  refine recovers_node rfl rfl fun written hget loc' before => ?_
  obtain ⟨target', after, htarget, hbare, hplaces⟩ := h (path.field "target") scope before
  have hfield := readField_eq_ok.mpr ⟨_, hget "target" (by decide), htarget⟩
  refine ⟨.property loc' target' name, after, _,
    .property hfield (hget "name" (by decide)), ?_, rfl, hplaces⟩
  exact congrArg (Expr.property .unknown · name) hbare

/-- A call without a receiver is written without the field of one. -/
theorem recoverable_call_none {method : String} {args : List Expr}
    (h : ∀ e ∈ args, Recoverable map e) : Recoverable map (.call loc none method args) := by
  intro path scope
  refine recovers_node rfl rfl fun written hget loc' before => ?_
  obtain ⟨args', after, hexprs, hbare, hplaces⟩ :=
    recovers_readExprs (path.field "args") scope h 0 before
  have hnone : (readReceiver path scope written).run before = .ok (none, before) :=
    readReceiver_eq_ok.mpr (.missing (hget "receiver" (by decide)))
  have hargs := readArgs_eq_ok.mpr (.nodes (hget "args" (by decide)) hexprs)
  refine ⟨.call loc' none method args', after, _,
    .call hnone (hget "method" (by decide)) hargs, ?_, rfl, hplaces⟩
  exact congrArg (Expr.call .unknown none method) hbare

theorem recoverable_call_some {receiver : Expr} {method : String} {args : List Expr}
    (h : Recoverable map receiver) (h' : ∀ e ∈ args, Recoverable map e) :
    Recoverable map (.call loc (some receiver) method args) := by
  intro path scope
  refine recovers_node rfl rfl fun written hget loc' before => ?_
  obtain ⟨receiver', middle, hreceiver, hbare, hplaces⟩ := h (path.field "receiver") scope before
  obtain ⟨args', after, hexprs, hbare', hplaces'⟩ :=
    recovers_readExprs (path.field "args") scope h' 0 middle
  have hsome := readReceiver_eq_ok.mpr (.node (hget "receiver" (by decide)) hreceiver)
  have hargs := readArgs_eq_ok.mpr (.nodes (hget "args" (by decide)) hexprs)
  refine ⟨.call loc' (some receiver') method args', after, _,
    .call hsome (hget "method" (by decide)) hargs, ?_, rfl, hplaces.append hplaces'⟩
  rw [Expr.bare, Expr.relocate, relocateReceiver, hbare, hbare']
  rfl

theorem recoverable_map {entries : List Entry}
    (h : ∀ e ∈ entries.map Entry.value, Recoverable map e) :
    Recoverable map (.map loc entries) := by
  intro path scope
  refine recovers_node rfl rfl fun written hget loc' before => ?_
  obtain ⟨entries', after, hvalues, hbare, hplaces⟩ :=
    recovers_readValues (path.field "entries") scope h before
  have hentries := readEntries_eq_ok.mpr ⟨_, hget "entries" (by decide), hvalues⟩
  refine ⟨.map loc' entries', after, _, .map hentries, ?_, rfl, hplaces⟩
  exact congrArg (Expr.map .unknown) hbare

theorem recoverable_list {items : List Expr} (h : ∀ e ∈ items, Recoverable map e) :
    Recoverable map (.list loc items) := by
  intro path scope
  refine recovers_node rfl rfl fun written hget loc' before => ?_
  obtain ⟨items', after, hexprs, hbare, hplaces⟩ :=
    recovers_readExprs (path.field "items") scope h 0 before
  have hitems := readItems_eq_ok.mpr ⟨_, hget "items" (by decide), hexprs⟩
  refine ⟨.list loc' items', after, _, .list hitems, ?_, rfl, hplaces⟩
  exact congrArg (Expr.list .unknown) hbare

theorem recoverable_binary {op : Operator} {left right : Expr} (h : Recoverable map left)
    (h' : Recoverable map right) : Recoverable map (.binary loc op left right) := by
  intro path scope
  refine recovers_node rfl rfl fun written hget loc' before => ?_
  obtain ⟨left', middle, hleft, hbare, hplaces⟩ := h (path.field "left") scope before
  obtain ⟨right', after, hright, hbare', hplaces'⟩ := h' (path.field "right") scope middle
  have hfield := readField_eq_ok.mpr ⟨_, hget "left" (by decide), hleft⟩
  have hfield' := readField_eq_ok.mpr ⟨_, hget "right" (by decide), hright⟩
  refine ⟨.binary loc' op left' right', after, _,
    .binary (hget "op" (by decide)) (ofSymbol?_symbol op) hfield hfield', ?_, rfl,
    hplaces.append hplaces'⟩
  rw [Expr.bare, Expr.relocate, hbare, hbare']
  rfl

theorem recoverable_closure {params : List String} {body : Block} (hne : params ≠ [])
    (h : ∀ e ∈ body.children, Recoverable map e) : Recoverable map (.closure loc params body) := by
  intro path scope
  obtain ⟨bodyScope, stmts⟩ := body
  refine recovers_node rfl rfl fun written hget loc' before => ?_
  -- the body is read in the scope that the closure opens, which leaves the locations alone
  obtain ⟨inner, opened, hopen, hmap⟩ := openScope_run scope before
  obtain ⟨stmts', after, hstmts, hbare, hplaces⟩ :=
    recovers_readBody path inner h (hget "statements" (by decide)) opened
  have hparams : Params written params :=
    .names (hget "params" (by decide)) (strings?_map_string params)
  refine ⟨.closure loc' params ⟨inner, stmts'⟩, after, _,
    .closure hne hparams hopen hstmts, ?_, rfl, hmap ▸ hplaces⟩
  exact congrArg (fun stmts => Expr.closure .unknown params ⟨Scopes.root, stmts⟩) hbare

/-- A thunk is written as a closure without the field of parameters, and so is read as a thunk. -/
theorem recoverable_thunk {body : Block} (h : ∀ e ∈ body.children, Recoverable map e) :
    Recoverable map (.thunk loc body) := by
  intro path scope
  obtain ⟨bodyScope, stmts⟩ := body
  refine recovers_node rfl rfl fun written hget loc' before => ?_
  obtain ⟨inner, opened, hopen, hmap⟩ := openScope_run scope before
  obtain ⟨stmts', after, hstmts, hbare, hplaces⟩ :=
    recovers_readBody path inner h (hget "statements" (by decide)) opened
  have hparams : Params written [] := .missing (hget "params" (by decide))
  refine ⟨.thunk loc' ⟨inner, stmts'⟩, after, _,
    .thunk hparams hopen hstmts, ?_, rfl, hmap ▸ hplaces⟩
  exact congrArg (fun stmts => Expr.thunk .unknown ⟨Scopes.root, stmts⟩) hbare

/-- **An expression that was written is recovered** if every closure in it names its parameters. -/
theorem recoverable_of_namesParams {e : Expr} (h : e.Everywhere Expr.NamesParams) :
    Recoverable map e := by
  induction e using Expr.inductionOnChildren with
  | node e ih =>
    have hchildren : ∀ c ∈ e.children, Recoverable map c := fun c hc => ih c hc (h.children c hc)
    cases e with
    | literal loc value => exact recoverable_literal value
    | gstring loc chunks => exact recoverable_gstring hchildren
    | var loc name => exact recoverable_var name
    | property loc target name =>
      exact recoverable_property (hchildren target List.mem_cons_self)
    | call loc receiver method args =>
      obtain ⟨hreceiver, hargs⟩ := List.forall_mem_append.mp hchildren
      cases receiver with
      | none => exact recoverable_call_none hargs
      | some receiver =>
        exact recoverable_call_some (hreceiver receiver List.mem_cons_self) hargs
    | map loc entries => exact recoverable_map hchildren
    | list loc items => exact recoverable_list hchildren
    | binary loc op left right =>
      obtain ⟨hleft, hright⟩ := List.forall_mem_cons.mp hchildren
      exact recoverable_binary hleft (List.forall_mem_singleton.mp hright)
    -- the one place where the names of parameters matter
    | closure loc params body => exact recoverable_closure h.own hchildren
    | thunk loc body => exact recoverable_thunk hchildren

/-! ### Documents -/

/-- A closure that was read names its parameters, and so does every closure in what was read. -/
theorem WasRead.namesParams {e : Expr} (h : WasRead e) : e.Everywhere Expr.NamesParams := by
  induction e using Expr.inductionOnChildren with
  | node e ih =>
    refine .node ?_ fun c hc => ih c hc (h.children c hc)
    cases e with
    | closure loc params body => exact h.params_ne_nil
    | _ => trivial

theorem namesParams_of_documentOf {value : Value} {before after : Registry} {document : Document}
    (h : (documentOf value).run before = .ok (document, after)) :
    document.body.Everywhere Expr.NamesParams := by
  obtain ⟨fields, stmts, -, -, hbody, hstmts⟩ := documentOf_eq_ok.mp h
  rw [hbody]
  exact fun e he => (wasRead_of_readBody hstmts e he).namesParams

/-- The source name and the statements of a written document are found under their names. -/
theorem exists_fields_writeDocument (map : SourceMap) (source : Option String) (block : Block) :
    ∃ fields : Fields, writeDocument map source block = .object fields ∧
      OptionalText fields "source" source ∧
      fields.get? "statements" = some (.array (writeBlock map block)) := by
  cases source with
  | some source => exact ⟨_, rfl, .text rfl, rfl⟩
  | none => exact ⟨_, rfl, .missing rfl, rfl⟩

/-- **Reading undoes writing.** A document that was written for a tree whose closures name their
parameters is read, from whatever registry, with the same source name and as the same tree up to
handles and scopes, in which every statement and expression has the position that it had. The trees
that documents are read as have such closures only, before and after desugaring. -/
theorem documentOf_writeDocument :
    (∀ (map : SourceMap) (source : Option String) (block : Block) (before : Registry),
      block.Everywhere Expr.NamesParams →
      ∃ document after,
        (documentOf (writeDocument map source block)).run before = .ok (document, after) ∧
        document.source = source ∧ document.body.bare = block.bare ∧
        document.body.handles.map after.sourceMap.position? = block.handles.map map.position?) ∧
    (∀ (value : Value) (before after : Registry) (document : Document),
      (documentOf value).run before = .ok (document, after) →
      document.body.Everywhere Expr.NamesParams ∧
      ∀ (keywords : Keywords) (progress progress' : Progress) (out : Block),
        (document.body.desugar keywords).run progress = (.ok out, progress') →
        out.Everywhere Expr.NamesParams) := by
  constructor
  · intro map source block before hblock
    obtain ⟨fields, hwritten, hsource, hfield⟩ := exists_fields_writeDocument map source block
    have hchildren : ∀ e ∈ block.children, Recoverable map e :=
      fun e he => recoverable_of_namesParams (hblock e he)
    obtain ⟨stmts', after, hstmts, hbare, hplaces⟩ :=
      recovers_readBody .root Scopes.root hchildren hfield before
    obtain ⟨scope, stmts⟩ := block
    refine ⟨⟨source, ⟨Scopes.root, stmts'⟩⟩, after, ?_, rfl, ?_, hplaces.positions_eq⟩
    · exact documentOf_eq_ok.mpr ⟨fields, stmts', hwritten, hsource, rfl, hstmts⟩
    · exact congrArg (Block.mk Scopes.root) hbare
  · intro value before after document hread
    have hnames := namesParams_of_documentOf hread
    exact ⟨hnames, fun _ _ _ _ hrun => persists_namesParams.desugar hnames hrun⟩

/-- A closure with a parameter and an interpolated string in it, at the first place of a map. -/
theorem documentOf_writeDocument_closure :
    let map : SourceMap := ⟨#[⟨some ⟨3, 7⟩, none⟩]⟩
    let text : Expr := .gstring .unknown [.text "ls ", .interpolation (.var .unknown "x")]
    let block : Block :=
      ⟨Scopes.root, [.plain (.entry 0) (.closure (.entry 0) ["x"] ⟨⟨1⟩, [.plain .unknown text]⟩)]⟩
    block.Everywhere Expr.NamesParams ∧
      ∃ document after,
        (documentOf (writeDocument map (some "main.nf") block)).run {} = .ok (document, after) ∧
        document.source = some "main.nf" ∧ document.body.bare = block.bare ∧
        document.body.handles.map after.sourceMap.position? = block.handles.map map.position? := by
  intro map text block
  have htext : text.Everywhere Expr.NamesParams :=
    .node trivial (List.forall_mem_singleton.mpr (.node trivial nofun))
  have hblock : block.Everywhere Expr.NamesParams :=
    List.forall_mem_singleton.mpr
      (.node (List.cons_ne_nil _ _) (List.forall_mem_singleton.mpr htext))
  exact ⟨hblock, documentOf_writeDocument.1 map (some "main.nf") block {} hblock⟩

end Interchange

end FlowDesugar
