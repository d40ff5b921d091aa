import FlowDesugar.Proofs.RoundTrip

/-!
# Reading again what was read

The interchange format has many spellings for one tree: fields in any order, fields that nobody asks
for, optional fields that are null or missing, lines that are no natural numbers. Writing the tree
that was read chooses one of them, and this one is read with exactly the same effect. The tree is
the same down to its handles and scopes, and so is the registry that the reader leaves behind.

`Rereads` says this of a reader, with the registry before and after. It composes: a reader that
comes second starts from the registry that the first has left, in both readings. What is written
depends on the locations, which are complete only when the whole document has been read. So every
step is stated for any map that extends what is known after the step, and the final map is one of
them.

* `Interchange.rereadable` — an expression that was read is read again, by induction over the tree;
* `Interchange.documentOf_rewritten` — so is a document.
-/

namespace FlowDesugar.Interchange

open Json (Value Fields Path)

/-- The registry grew from `before` to `after` on the way to `a`; and with a map that has all
locations of `after`, the reader takes this very way. -/
structure Rereads {α : Type} (map : SourceMap) (before : Registry) (a : α) (after : Registry)
    (reader : Import α) : Prop where
  grows : after.sourceMap.Extends before.sourceMap
  run_eq : map.Extends after.sourceMap → reader.run before = .ok (a, after)

/-- However the expression was read, what is written for it is read so again. -/
def Rereadable (map : SourceMap) (e : Expr) : Prop :=
  ∀ ⦃path path' : Path⦄ ⦃scope : ScopeId⦄ ⦃value : Value⦄ ⦃before after : Registry⦄,
    (readExpr path scope value).run before = .ok (e, after) →
    Rereads map before e after (readExpr path' scope (writeExpr map e))

variable {map : SourceMap} {path path' : Path} {scope : ScopeId} {fields written : Fields}
  {loc : Handle} {before middle after : Registry}

/-! ### Locations -/

/-- A location that was noted is noted again from the position that is written for it. -/
theorem rereads_noteLocation {kind : String}
    (h : (noteLocation fields).run before = .ok (loc, after))
    (hline : written.get? "line" = none) :
    Rereads map before loc after (noteLocation (nodeFields map kind loc written)) := by
  change noteLocation fields before = _ at h
  unfold noteLocation at h
  cases hfield : (Fields.get? fields "line").bind Value.natural? with
  | none =>
    simp only [hfield] at h
    obtain ⟨rfl, rfl⟩ : Handle.unknown = loc ∧ before = after := by simpa using h
    -- the handle for no location has no position, so that no line is written
    refine ⟨.refl _, fun _ => ?_⟩
    have hget : (nodeFields map kind .unknown written).get? "line" = none := hline
    change noteLocation _ before = _
    unfold noteLocation
    rw [hget]
    rfl
  | some line =>
    simp only [hfield] at h
    generalize ((Fields.get? fields "column").bind Value.natural?).getD 0 = column at h
    obtain ⟨rfl, rfl⟩ : (before.sourceMap.add ⟨line, column⟩).1 = loc ∧
        { before with sourceMap := (before.sourceMap.add ⟨line, column⟩).2 } = after := by
      simpa using h
    refine ⟨SourceMap.extends_mint _ _, fun hmap => ?_⟩
    -- the position is known once the location is there, and later ones do not change it
    have hknown : (before.sourceMap.add ⟨line, column⟩).2.Knows
        (before.sourceMap.add ⟨line, column⟩).1 := by
      change before.sourceMap.size < (before.sourceMap.mint _).2.size
      rw [SourceMap.size_mint]
      exact Nat.lt_succ_self _
    have hposition : map.position? (before.sourceMap.add ⟨line, column⟩).1
        = some ⟨line, column⟩ := by
      rw [hmap.position?_eq hknown]
      unfold SourceMap.position? SourceMap.add
      rw [SourceMap.info?_mint_self]
      rfl
    change noteLocation _ before = _
    unfold noteLocation nodeFields
    rw [hposition]
    rfl

/-! ### Nodes -/

/-- The fields of a kind of node are read again, wherever they are found as they were written. -/
structure RereadsNode (map : SourceMap) (path : Path) (scope : ScopeId) (written : Fields)
    (loc : Handle) (before : Registry) (kind : Kind) (e : Expr) (after : Registry) : Prop where
  grows : after.sourceMap.Extends before.sourceMap
  reads : map.Extends after.sourceMap → ∀ found : Fields,
    (∀ name, name ∉ ["kind", "line", "column"] → found.get? name = written.get? name) →
    ReadNode path scope found loc before kind e after

/-- A node is read again if its location and the fields of its kind are. -/
theorem RereadsNode.rereads {kind : Kind} {e : Expr}
    (h : RereadsNode map path scope written loc middle kind e after)
    (hloc : (noteLocation fields).run before = .ok (loc, middle))
    (hline : written.get? "line" = none) :
    Rereads map before e after (readExpr path scope (node map kind.name loc written)) := by
  have hnoted : Rereads map before loc middle
      (noteLocation (nodeFields map kind.name loc written)) := rereads_noteLocation hloc hline
  refine ⟨hnoted.grows.trans h.grows, fun hmap => ?_⟩
  have hkind : kindOf? (nodeFields map kind.name loc written) = some kind :=
    kindOf?_eq_some.mpr ⟨kind.name, get?_nodeFields_kind, ofName?_name kind⟩
  have hnode := h.reads hmap (nodeFields map kind.name loc written) fun _ hname =>
    get?_nodeFields hname
  exact readExpr_eq_ok.mpr
    ⟨_, loc, middle, kind, node_eq, hnoted.run_eq (h.grows.trans hmap), hkind, hnode⟩

/-! ### Lists of nodes -/

theorem rereads_readExprs {es : List Expr} (h : ∀ e ∈ es, Rereadable map e) {index index' : Nat}
    {values : List Value}
    (hrun : (readExprs path scope index values).run before = .ok (es, after)) :
    Rereads map before es after (readExprs path' scope index' (writeExprs map es)) := by
  induction values generalizing index index' before es with
  | nil =>
    obtain ⟨rfl, rfl⟩ := Import.run_pure_eq_ok.mp hrun
    exact ⟨.refl _, fun _ => rfl⟩
  | cons value values ih =>
    obtain ⟨e, es, middle, rfl, he, hes⟩ := readExprs_cons_eq_ok.mp hrun
    obtain ⟨hfirst, hrest⟩ := List.forall_mem_cons.mp h
    have hhead : Rereads map before e middle
        (readExpr (path'.item index') scope (writeExpr map e)) := hfirst he
    have htail : Rereads map middle es after
        (readExprs path' scope (index' + 1) (writeExprs map es)) := ih hrest hes
    refine ⟨hhead.grows.trans htail.grows, fun hmap => ?_⟩
    exact readExprs_cons_eq_ok.mpr
      ⟨e, es, middle, rfl, hhead.run_eq (htail.grows.trans hmap), htail.run_eq hmap⟩

theorem rereads_readChunks {chunks : List Chunk}
    (h : ∀ e ∈ chunks.filterMap Chunk.expr?, Rereadable map e) {index index' : Nat}
    {values : List Value}
    (hrun : (readChunks path scope index values).run before = .ok (chunks, after)) :
    Rereads map before chunks after (readChunks path' scope index' (writeChunks map chunks)) := by
  induction values generalizing index index' before chunks with
  | nil =>
    obtain ⟨rfl, rfl⟩ := Import.run_pure_eq_ok.mp hrun
    exact ⟨.refl _, fun _ => rfl⟩
  | cons value values ih =>
    obtain ⟨c, cs, middle, rfl, hc, hcs⟩ := readChunks_cons_eq_ok.mp hrun
    cases hc with
    | text =>
      rw [interpolated_text] at h
      have htail : Rereads map before cs after
          (readChunks path' scope (index' + 1) (writeChunks map cs)) := ih h hcs
      refine ⟨htail.grows, fun hmap => ?_⟩
      exact readChunks_cons_eq_ok.mpr ⟨_, cs, before, rfl, .text, htail.run_eq hmap⟩
    | @interpolation _ e _ he =>
      obtain ⟨hfirst, hrest⟩ := List.forall_mem_cons.mp h
      have hhead : Rereads map before e middle
          (readExpr (path'.item index') scope (writeExpr map e)) := hfirst he
      have htail : Rereads map middle cs after
          (readChunks path' scope (index' + 1) (writeChunks map cs)) := ih hrest hcs
      refine ⟨hhead.grows.trans htail.grows, fun hmap => ?_⟩
      exact readChunks_cons_eq_ok.mpr ⟨_, cs, middle, rfl,
        .interpolation (hhead.run_eq (htail.grows.trans hmap)), htail.run_eq hmap⟩

theorem rereads_readValues {entries : List Entry}
    (h : ∀ e ∈ entries.map Entry.value, Rereadable map e)
    (hrun : (readValues path scope fields).run before = .ok (entries, after)) :
    Rereads map before entries after (readValues path' scope (writeEntries map entries)) := by
  induction fields generalizing before entries with
  | nil =>
    obtain ⟨rfl, rfl⟩ := Import.run_pure_eq_ok.mp hrun
    exact ⟨.refl _, fun _ => rfl⟩
  | cons field fields ih =>
    obtain ⟨key, value⟩ := field
    obtain ⟨e, es, middle, rfl, he, hes⟩ := readValues_cons_eq_ok.mp hrun
    obtain ⟨hfirst, hrest⟩ := List.forall_mem_cons.mp h
    have hhead : Rereads map before e middle
        (readExpr (path'.field key) scope (writeExpr map e)) := hfirst he
    have htail : Rereads map middle es after (readValues path' scope (writeEntries map es)) :=
      ih hrest hes
    refine ⟨hhead.grows.trans htail.grows, fun hmap => ?_⟩
    exact readValues_cons_eq_ok.mpr
      ⟨e, es, middle, rfl, hhead.run_eq (htail.grows.trans hmap), htail.run_eq hmap⟩

/-- One statement: its location first, then its expression. -/
theorem ReadStmt.reread {stmt : Stmt} (hs : ReadStmt path scope before fields stmt after)
    (h : Rereadable map stmt.expr) (path' : Path) :
    after.sourceMap.Extends before.sourceMap ∧ (map.Extends after.sourceMap →
      ReadStmt path' scope before
        (nodeFields map (stmtKind stmt.returns) stmt.loc (stmtFields map stmt)) stmt after) := by
  obtain ⟨noted, hloc, hexpr⟩ := hs.expr
  obtain ⟨value, -, hread⟩ := readField_eq_ok.mp hexpr
  have hnoted : Rereads map before stmt.loc noted
      (noteLocation (nodeFields map (stmtKind stmt.returns) stmt.loc (stmtFields map stmt))) :=
    rereads_noteLocation hloc (get?_stmtFields_line stmt)
  have hagain : Rereads map noted stmt.expr after
      (readExpr (path'.field "expr") scope (writeExpr map stmt.expr)) := h hread
  refine ⟨hnoted.grows.trans hagain.grows, fun hmap => ?_⟩
  constructor
  case label => exact optionalText_stmtFields stmt
  case kind => exact ⟨_, get?_nodeFields_kind, stmtReturns?_stmtKind _⟩
  case expr =>
    refine ⟨noted, hnoted.run_eq (hagain.grows.trans hmap), ?_⟩
    refine readField_eq_ok.mpr ⟨_, ?_, hagain.run_eq hmap⟩
    rw [get?_nodeFields (by decide), get?_stmtFields_expr]

theorem rereads_readStmts {stmts : List Stmt} (h : ∀ e ∈ stmts.map Stmt.expr, Rereadable map e)
    {index index' : Nat} {values : List Value}
    (hrun : (readStmts path scope index values).run before = .ok (stmts, after)) :
    Rereads map before stmts after (readStmts path' scope index' (writeStmts map stmts)) := by
  induction values generalizing index index' before stmts with
  | nil =>
    obtain ⟨rfl, rfl⟩ := Import.run_pure_eq_ok.mp hrun
    exact ⟨.refl _, fun _ => rfl⟩
  | cons value values ih =>
    obtain ⟨fields, s, ss, middle, rfl, rfl, hs, hss⟩ := readStmts_cons_eq_ok.mp hrun
    obtain ⟨hfirst, hrest⟩ := List.forall_mem_cons.mp h
    obtain ⟨hgrows, hagain⟩ := hs.reread hfirst (path'.item index')
    have htail : Rereads map middle ss after
        (readStmts path' scope (index' + 1) (writeStmts map ss)) := ih hrest hss
    refine ⟨hgrows.trans htail.grows, fun hmap => ?_⟩
    rw [writeStmts_cons]
    exact readStmts_cons_eq_ok.mpr
      ⟨_, s, ss, middle, node_eq, rfl, hagain (htail.grows.trans hmap), htail.run_eq hmap⟩

/-- The statements of a block, in the field that holds them. -/
theorem rereads_readBody {stmts : List Stmt} (h : ∀ e ∈ stmts.map Stmt.expr, Rereadable map e)
    (hrun : (readBody path scope fields).run before = .ok (stmts, after))
    (hfield : written.get? "statements" = some (.array (writeStmts map stmts))) :
    Rereads map before stmts after (readBody path' scope written) := by
  obtain ⟨values, -, hstmts⟩ := readBody_eq_ok.mp hrun
  have hagain : Rereads map before stmts after
      (readStmts (path'.field "statements") scope 0 (writeStmts map stmts)) :=
    rereads_readStmts h hstmts
  exact ⟨hagain.grows, fun hmap => readBody_eq_ok.mpr ⟨_, hfield, hagain.run_eq hmap⟩⟩

/-! ### Expressions, kind by kind -/

/-- A node that has no nodes inside is read again if its fields are found. -/
theorem rereadsNode_leaf {kind : Kind} {e : Expr}
    (h : ∀ found : Fields,
      (∀ name, name ∉ ["kind", "line", "column"] → found.get? name = written.get? name) →
      ReadNode path scope found loc before kind e before) :
    RereadsNode map path scope written loc before kind e before :=
  ⟨.refl _, fun _ => h⟩

theorem rereadsNode_property {target : Expr} {name : String} (h : Rereadable map target)
    (hrun : (readField path scope "target" fields).run before = .ok (target, after)) :
    RereadsNode map path' scope [("target", writeExpr map target), ("name", .string name)] loc
      before .property (.property loc target name) after := by
  obtain ⟨value, -, hread⟩ := readField_eq_ok.mp hrun
  have hagain : Rereads map before target after
      (readExpr (path'.field "target") scope (writeExpr map target)) := h hread
  refine ⟨hagain.grows, fun hmap found hget => ?_⟩
  have hfield := readField_eq_ok.mpr ⟨_, hget "target" (by decide), hagain.run_eq hmap⟩
  exact .property hfield (hget "name" (by decide))

/-- A receiver that is missing or null is not written, and one that was read is. -/
theorem rereads_readReceiver {receiver : Option Expr}
    (h : ∀ e ∈ receiver.toList, Rereadable map e)
    (hrun : (readReceiver path scope fields).run before = .ok (receiver, after))
    (hfield : written.get? "receiver" = receiver.map (writeExpr map)) :
    Rereads map before receiver after (readReceiver path' scope written) := by
  cases readReceiver_eq_ok.mp hrun with
  | missing | null => exact ⟨.refl _, fun _ => readReceiver_eq_ok.mpr (.missing hfield)⟩
  | @node _ e _ _ hread =>
    have hagain : Rereads map before e after
        (readExpr (path'.field "receiver") scope (writeExpr map e)) :=
      h e List.mem_cons_self hread
    exact ⟨hagain.grows, fun hmap => readReceiver_eq_ok.mpr (.node hfield (hagain.run_eq hmap))⟩

/-- Arguments that are missing are written as no arguments. -/
theorem rereads_readArgs {args : List Expr} (h : ∀ e ∈ args, Rereadable map e)
    (hrun : (readArgs path scope fields).run before = .ok (args, after))
    (hfield : written.get? "args" = some (.array (writeExprs map args))) :
    Rereads map before args after (readArgs path' scope written) := by
  cases readArgs_eq_ok.mp hrun with
  | missing => exact ⟨.refl _, fun _ => readArgs_eq_ok.mpr (.nodes hfield rfl)⟩
  | nodes _ hexprs =>
    have hagain : Rereads map before args after
        (readExprs (path'.field "args") scope 0 (writeExprs map args)) :=
      rereads_readExprs h hexprs
    exact ⟨hagain.grows, fun hmap => readArgs_eq_ok.mpr (.nodes hfield (hagain.run_eq hmap))⟩

theorem rereadsNode_call {receiver : Option Expr} {method : String} {args : List Expr}
    (h : ∀ e ∈ receiver.toList, Rereadable map e) (h' : ∀ e ∈ args, Rereadable map e)
    (hreceiver : (readReceiver path scope fields).run before = .ok (receiver, middle))
    (hargs : (readArgs path scope fields).run middle = .ok (args, after)) :
    RereadsNode map path' scope
      (writeReceiver map receiver
        ++ [("method", .string method), ("args", .array (writeExprs map args))]) loc
      before .call (.call loc receiver method args) after := by
  have hagain : Rereads map before receiver middle
      (readReceiver path' scope (writeReceiver map receiver)) := by
    refine rereads_readReceiver h hreceiver ?_
    cases receiver <;> rfl
  have hagain' : Rereads map middle args after
      (readArgs path' scope [("args", .array (writeExprs map args))]) :=
    rereads_readArgs h' hargs rfl
  refine ⟨hagain.grows.trans hagain'.grows, fun hmap found hget => ?_⟩
  have hmethod : found.get? "method" = some (.string method) := by
    rw [hget "method" (by decide)]
    cases receiver <;> rfl
  have hfield : found.get? "receiver" = receiver.map (writeExpr map) := by
    rw [hget "receiver" (by decide)]
    cases receiver <;> rfl
  have hfield' : found.get? "args" = some (.array (writeExprs map args)) := by
    rw [hget "args" (by decide)]
    cases receiver <;> rfl
  exact .call ((rereads_readReceiver h hreceiver hfield).run_eq (hagain'.grows.trans hmap)) hmethod
    ((rereads_readArgs h' hargs hfield').run_eq hmap)

theorem rereadsNode_binary {op : Operator} {left right : Expr} (h : Rereadable map left)
    (h' : Rereadable map right)
    (hleft : (readField path scope "left" fields).run before = .ok (left, middle))
    (hright : (readField path scope "right" fields).run middle = .ok (right, after)) :
    RereadsNode map path' scope
      [("op", .string op.symbol), ("left", writeExpr map left), ("right", writeExpr map right)] loc
      before .binary (.binary loc op left right) after := by
  obtain ⟨value, -, hread⟩ := readField_eq_ok.mp hleft
  obtain ⟨value', -, hread'⟩ := readField_eq_ok.mp hright
  have hagain : Rereads map before left middle
      (readExpr (path'.field "left") scope (writeExpr map left)) := h hread
  have hagain' : Rereads map middle right after
      (readExpr (path'.field "right") scope (writeExpr map right)) := h' hread'
  refine ⟨hagain.grows.trans hagain'.grows, fun hmap found hget => ?_⟩
  have hfield := readField_eq_ok.mpr
    ⟨_, hget "left" (by decide), hagain.run_eq (hagain'.grows.trans hmap)⟩
  have hfield' := readField_eq_ok.mpr ⟨_, hget "right" (by decide), hagain'.run_eq hmap⟩
  exact .binary (hget "op" (by decide)) (ofSymbol?_symbol op) hfield hfield'

/-- The body of a closure, after its scope has been opened. Opening it leaves the locations
alone. -/
theorem rereads_openedBody {inner : ScopeId} {opened : Registry} {stmts : List Stmt}
    (h : ∀ e ∈ stmts.map Stmt.expr, Rereadable map e)
    (hopen : (openScope scope).run before = .ok (inner, opened))
    (hrun : (readBody path inner fields).run opened = .ok (stmts, after)) (path' : Path) :
    after.sourceMap.Extends before.sourceMap ∧
      (map.Extends after.sourceMap → ∀ found : Fields,
        found.get? "statements" = some (.array (writeStmts map stmts)) →
        (readBody path' inner found).run opened = .ok (stmts, after)) := by
  have hmap : opened.sourceMap = before.sourceMap := by
    cases hopen
    rfl
  have hagain : Rereads map opened stmts after
      (readBody path' inner [("statements", .array (writeStmts map stmts))]) :=
    rereads_readBody h hrun rfl
  have hgrows := hagain.grows
  rw [hmap] at hgrows
  exact ⟨hgrows, fun hextends found hfield => (rereads_readBody h hrun hfield).run_eq hextends⟩

/-- **An expression that was read is read again** from what is written for it. -/
theorem rereadable (map : SourceMap) (e : Expr) : Rereadable map e := by
  induction e using Expr.inductionOnChildren with
  | node e ih =>
    intro path path' scope value before after hrun
    obtain ⟨fields, loc, noted, kind, -, hloc, -, hnode⟩ := readExpr_eq_ok.mp hrun
    cases hnode with
    | str _ =>
      refine RereadsNode.rereads (rereadsNode_leaf fun found hget => ?_) hloc rfl
      exact .str (hget "value" (by decide))
    | num _ =>
      refine RereadsNode.rereads (rereadsNode_leaf fun found hget => ?_) hloc rfl
      exact .num (hget "value" (by decide))
    | bool _ =>
      refine RereadsNode.rereads (rereadsNode_leaf fun found hget => ?_) hloc rfl
      exact .bool (hget "value" (by decide))
    | null => exact RereadsNode.rereads (rereadsNode_leaf fun found hget => .null) hloc rfl
    | @gstring chunks _ hparts =>
      obtain ⟨values, -, hchunks⟩ := readParts_eq_ok.mp hparts
      have hagain : Rereads map noted chunks after
          (readChunks (path'.field "parts") scope 0 (writeChunks map chunks)) :=
        rereads_readChunks ih hchunks
      refine RereadsNode.rereads ⟨hagain.grows, fun hmap found hget => ?_⟩ hloc rfl
      exact .gstring (readParts_eq_ok.mpr ⟨_, hget "parts" (by decide), hagain.run_eq hmap⟩)
    | var _ =>
      refine RereadsNode.rereads (rereadsNode_leaf fun found hget => ?_) hloc rfl
      exact .var (hget "name" (by decide))
    | @property target _ _ htarget _ =>
      have hfirst := ih target List.mem_cons_self
      exact (rereadsNode_property hfirst htarget).rereads hloc rfl
    | @call receiver _ args _ _ hreceiver _ hargs =>
      obtain ⟨hfirst, hrest⟩ := List.forall_mem_append.mp ih
      refine (rereadsNode_call hfirst hrest hreceiver hargs).rereads hloc ?_
      cases receiver <;> rfl
    | @map entries _ hentries =>
      obtain ⟨values, -, hvalues⟩ := readEntries_eq_ok.mp hentries
      have hagain : Rereads map noted entries after
          (readValues (path'.field "entries") scope (writeEntries map entries)) :=
        rereads_readValues ih hvalues
      refine RereadsNode.rereads ⟨hagain.grows, fun hmap found hget => ?_⟩ hloc rfl
      exact .map (readEntries_eq_ok.mpr ⟨_, hget "entries" (by decide), hagain.run_eq hmap⟩)
    | @list items _ hitems =>
      obtain ⟨values, -, hexprs⟩ := readItems_eq_ok.mp hitems
      have hagain : Rereads map noted items after
          (readExprs (path'.field "items") scope 0 (writeExprs map items)) :=
        rereads_readExprs ih hexprs
      refine RereadsNode.rereads ⟨hagain.grows, fun hmap found hget => ?_⟩ hloc rfl
      exact .list (readItems_eq_ok.mpr ⟨_, hget "items" (by decide), hagain.run_eq hmap⟩)
    | @binary _ op left right _ _ _ _ hleft hright =>
      obtain ⟨hfirst, hsecond⟩ := List.forall_mem_cons.mp ih
      have hlast := List.forall_mem_singleton.mp hsecond
      exact (rereadsNode_binary hfirst hlast hleft hright).rereads hloc rfl
    -- what was a closure without parameters, however it said so, is written without the field
    | thunk _ hopen hstmts =>
      obtain ⟨hgrows, hagain⟩ := rereads_openedBody ih hopen hstmts path'
      refine RereadsNode.rereads ⟨hgrows, fun hmap found hget => ?_⟩ hloc rfl
      exact .thunk (.missing (hget "params" (by decide))) hopen
        (hagain hmap found (hget "statements" (by decide)))
    | closure hne _ hopen hstmts =>
      obtain ⟨hgrows, hagain⟩ := rereads_openedBody ih hopen hstmts path'
      refine RereadsNode.rereads ⟨hgrows, fun hmap found hget => ?_⟩ hloc rfl
      have hparams := Params.names (hget "params" (by decide)) (strings?_map_string _)
      exact .closure hne hparams hopen (hagain hmap found (hget "statements" (by decide)))

/-! ### Documents -/

/-- **Writing what was read changes nothing.** The document that is written for one that was read is
accepted from the same registry, as the same document down to every handle, every scope and the
order of map entries, and it leaves the same locations and scopes behind. So what is written for it
in turn is the same value. -/
theorem documentOf_rewritten {value : Value} {before after : Registry} {document : Document}
    (h : (documentOf value).run before = .ok (document, after)) :
    let rewritten := writeDocument after.sourceMap document.source document.body
    (documentOf rewritten).run before = .ok (document, after) ∧
      ∀ again registry, (documentOf rewritten).run before = .ok (again, registry) →
        writeDocument registry.sourceMap again.source again.body = rewritten := by
  intro rewritten
  have hagain : (documentOf rewritten).run before = .ok (document, after) := by
    obtain ⟨fields, stmts, -, -, hbody, hstmts⟩ := documentOf_eq_ok.mp h
    obtain ⟨written, hwritten, hsource, hfield⟩ :=
      exists_fields_writeDocument after.sourceMap document.source document.body
    rw [hbody] at hfield
    have hread : Rereads after.sourceMap before stmts after
        (readBody .root Scopes.root written) :=
      rereads_readBody (fun e _ => rereadable _ e) hstmts hfield
    exact documentOf_eq_ok.mpr
      ⟨written, stmts, hwritten, hsource, hbody, hread.run_eq (.refl _)⟩
  refine ⟨hagain, fun again registry hrun => ?_⟩
  -- the second reading has one result, and it is the first one
  rw [hagain] at hrun
  cases hrun
  rfl

/-- A call under a label that is null, with fields out of order and one that nobody asks for, whose
arguments and column are missing and whose statement has no line to speak of; and a closure without
parameters that says so. -/
def sampleSpelling : Value :=
  .object [("statements", .array
    [.object [("label", .null), ("line", .string "four"), ("kind", .string "expr"),
      ("expr", .object [("line", .number (.natural 4)), ("method", .string "foo"),
        ("note", .bool true), ("receiver", .null), ("kind", .string "call")])],
     .object [("expr", .object [("statements", .array []), ("column", .number (.natural 2)),
        ("kind", .string "closure"), ("params", .array [])]),
      ("column", .number (.natural 9)), ("line", .number (.natural 5)),
      ("kind", .string "return")]]),
    ("source", .null)]

theorem documentOf_rewritten_spelling :
    ∃ document after, (documentOf sampleSpelling).run {} = .ok (document, after) ∧
      document.body.handles = [.unknown, .entry 0, .entry 1, .unknown] ∧
      (documentOf (writeDocument after.sourceMap document.source document.body)).run {}
        = .ok (document, after) := by
  obtain ⟨document, after, hread, hhandles⟩ :
      ∃ document after, (documentOf sampleSpelling).run {} = .ok (document, after) ∧
        document.body.handles = [.unknown, .entry 0, .entry 1, .unknown] :=
    ⟨_, _, rfl, rfl⟩
  exact ⟨document, after, hread, hhandles, (documentOf_rewritten hread).1⟩

end FlowDesugar.Interchange
