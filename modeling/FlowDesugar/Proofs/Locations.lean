import FlowDesugar.Proofs.Numbering
import FlowDesugar.Proofs.Origins
import FlowDesugar.Proofs.Preorder

/-!
# The locations of a document that was read

A reader numbers the nodes of a document as it meets them: a node that has a line gets the next
handle of the source map, before anything inside it is read. So the nodes of the tree that was read
and the objects of the document go together in preorder, and the handles count those among them that
have a line.

The order on the side of the document is `Interchange.objects`. It knows the fields that hold nodes,
kind by kind (`Interchange.nodesInside`), and nothing of readers.

* `Interchange.NodeRead.inner` — one step: a node gets its handle, and then the nodes immediately
  inside are read, in order, from the values immediately inside its object;
* `Interchange.NodeRead.sited` — a whole run, by induction over the tree;
* `Interchange.documentOf_numbers_preorder` — what it says of a document, with the numbering of its
  scopes.
-/

namespace FlowDesugar

/-- Mints a handle for a position, if there is one. -/
def SourceMap.note (map : SourceMap) : Option Position → Handle × SourceMap
  | none => (.unknown, map)
  | some position => map.add position

namespace Interchange

open Json (Value Fields Path)

/-! ### The objects of a document -/

/-- The natural number in a field. -/
def naturalOf? (fields : Fields) (name : String) : Option UInt64 :=
  (Fields.get? fields name).bind Value.natural?

/-- The position that an object gives: that of its line, with column zero if it has no column. -/
def positionOf? (fields : Fields) : Option Position :=
  (naturalOf? fields "line").map fun line =>
    { line, column := (naturalOf? fields "column").getD 0 }

/-- The items of the array in a field, if there is one. -/
def itemsOf (fields : Fields) (name : String) : List Value :=
  match Fields.get? fields name with
  | some (.array items) => items
  | _ => []

/-- The values in the fields of the object in a field, if there is one. -/
def valuesOf (fields : Fields) (name : String) : List Value :=
  match Fields.get? fields name with
  | some (.object entries) => entries.map Prod.snd
  | _ => []

/-- Whether a value is a string. -/
def isText (value : Value) : Bool :=
  value.string?.isSome

/-- Whether a value is null. -/
def isNull : Value → Bool
  | .null => true
  | _ => false

/-- The values immediately inside an object that stand for nodes, in the order in which they are
met. An object that names no kind of expression is that of a statement. -/
def nodesInside (fields : Fields) : List Value :=
  match kindOf? fields with
  | none => (Fields.get? fields "expr").toList
  | some .gstring => (itemsOf fields "parts").filter (!isText ·)
  | some .property => (Fields.get? fields "target").toList
  | some .call =>
    (Fields.get? fields "receiver").toList.filter (!isNull ·) ++ itemsOf fields "args"
  | some .map => valuesOf fields "entries"
  | some .list => itemsOf fields "items"
  | some .binary => (Fields.get? fields "left").toList ++ (Fields.get? fields "right").toList
  | some .closure => itemsOf fields "statements"
  | some _ => []

section Fields

variable {fields : Fields} {name : String}

theorem itemsOf_eq {items : List Value} (h : fields.get? name = some (.array items)) :
    itemsOf fields name = items := by
  rw [itemsOf, h]

theorem valuesOf_eq {entries : Fields} (h : fields.get? name = some (.object entries)) :
    valuesOf fields name = entries.map Prod.snd := by
  rw [valuesOf, h]

private theorem inside_of_mem_get? {part : Value} (h : part ∈ (fields.get? name).toList) :
    part.Inside (.object fields) :=
  Value.inside_of_get? (Option.mem_toList.mp h)

private theorem inside_of_mem_itemsOf {part : Value} (h : part ∈ itemsOf fields name) :
    part.Inside (.object fields) := by
  unfold itemsOf at h
  split at h
  · next items hitems => exact (Value.Inside.item h).trans (Value.inside_of_get? hitems)
  · cases h

private theorem inside_of_mem_valuesOf {part : Value} (h : part ∈ valuesOf fields name) :
    part.Inside (.object fields) := by
  unfold valuesOf at h
  split at h
  · next entries hentries =>
    obtain ⟨⟨key, value⟩, hmem, rfl⟩ := List.mem_map.mp h
    exact (Value.Inside.field hmem).trans (Value.inside_of_get? hentries)
  · cases h

theorem inside_of_mem_nodesInside {part : Value} (h : part ∈ nodesInside fields) :
    part.Inside (.object fields) := by
  unfold nodesInside at h
  split at h
  · exact inside_of_mem_get? h
  · exact inside_of_mem_itemsOf (List.mem_of_mem_filter h)
  · exact inside_of_mem_get? h
  · rcases List.mem_append.mp h with h | h
    · exact inside_of_mem_get? (List.mem_of_mem_filter h)
    · exact inside_of_mem_itemsOf h
  · exact inside_of_mem_valuesOf h
  · exact inside_of_mem_itemsOf h
  · rcases List.mem_append.mp h with h | h
    · exact inside_of_mem_get? h
    · exact inside_of_mem_get? h
  · exact inside_of_mem_itemsOf h
  · cases h

end Fields

/-- The objects that stand for nodes in a value, each before those inside it. -/
def objects : Value → List Fields
  | .object fields => fields :: (nodesInside fields).attach.flatMap fun part => objects part.val
  | _ => []
termination_by value => sizeOf value
decreasing_by exact (inside_of_mem_nodesInside part.property).sizeOf_lt

theorem objects_object (fields : Fields) :
    objects (.object fields) = fields :: (nodesInside fields).flatMap objects := by
  rw [objects]
  simp

/-- The objects that stand for nodes in a document, each before those inside it. -/
def documentObjects (value : Value) : List Fields :=
  match value with
  | .object fields => (itemsOf fields "statements").flatMap objects
  | _ => []

/-! ### Values that are read as nodes -/

/-- The value is read as the node, from one registry to another. -/
inductive NodeRead : Value → Node → Registry → Registry → Prop
  | expr {path : Path} {scope : ScopeId} {value : Value} {e : Expr} {before after : Registry} :
    (readExpr path scope value).run before = .ok (e, after) → NodeRead value (.expr e) before after
  | stmt {path : Path} {scope : ScopeId} {fields : Fields} {s : Stmt} {before after : Registry} :
    ReadStmt path scope before fields s after → NodeRead (.object fields) (.stmt s) before after

/-- The values are read as the nodes, one after another. -/
inductive NodesRead : List Value → List Node → Registry → Registry → Prop
  | nil (registry : Registry) : NodesRead [] [] registry registry
  | cons {value : Value} {values : List Value} {node : Node} {nodes : List Node}
    {before middle after : Registry} : NodeRead value node before middle →
    NodesRead values nodes middle after → NodesRead (value :: values) (node :: nodes) before after

namespace NodesRead

variable {values values' : List Value} {nodes nodes' : List Node} {before middle after : Registry}

theorem singleton {value : Value} {node : Node} (h : NodeRead value node before after) :
    NodesRead [value] [node] before after :=
  .cons h (.nil after)

theorem append (h : NodesRead values nodes before middle)
    (h' : NodesRead values' nodes' middle after) :
    NodesRead (values ++ values') (nodes ++ nodes') before after := by
  induction h with
  | nil registry => exact h'
  | cons hfirst _ ih => exact .cons hfirst (ih h')

end NodesRead

section Readers

variable {path : Path} {scope : ScopeId} {fields : Fields} {before after : Registry} {index : Nat}
  {values : List Value}

theorem nodesRead_of_readField {name : String} {e : Expr}
    (h : (readField path scope name fields).run before = .ok (e, after)) :
    NodesRead (fields.get? name).toList [.expr e] before after := by
  obtain ⟨value, hvalue, hread⟩ := readField_eq_ok.mp h
  rw [hvalue]
  exact .singleton (.expr hread)

theorem nodesRead_of_readExprs {es : List Expr}
    (h : (readExprs path scope index values).run before = .ok (es, after)) :
    NodesRead values (es.map .expr) before after := by
  induction values generalizing index before es with
  | nil =>
    obtain ⟨rfl, rfl⟩ := Import.run_pure_eq_ok.mp h
    exact .nil _
  | cons value values ih =>
    obtain ⟨e, es, middle, rfl, he, hes⟩ := readExprs_cons_eq_ok.mp h
    exact .cons (.expr he) (ih hes)

theorem nodesRead_of_readChunks {chunks : List Chunk}
    (h : (readChunks path scope index values).run before = .ok (chunks, after)) :
    NodesRead (values.filter (!isText ·)) ((chunks.filterMap Chunk.expr?).map .expr)
      before after := by
  induction values generalizing index before chunks with
  | nil =>
    obtain ⟨rfl, rfl⟩ := Import.run_pure_eq_ok.mp h
    exact .nil _
  | cons value values ih =>
    obtain ⟨c, cs, middle, rfl, hc, hcs⟩ := readChunks_cons_eq_ok.mp h
    cases hc with
    | text =>
      rw [interpolated_text]
      exact ih hcs
    | interpolation he =>
      -- an interpolation is an object, which the filter keeps
      obtain ⟨fields, _, _, _, rfl, -⟩ := readExpr_eq_ok.mp he
      exact .cons (.expr he) (ih hcs)

theorem nodesRead_of_readValues {entries : List Entry}
    (h : (readValues path scope fields).run before = .ok (entries, after)) :
    NodesRead (fields.map Prod.snd) ((entries.map Entry.value).map .expr) before after := by
  induction fields generalizing before entries with
  | nil =>
    obtain ⟨rfl, rfl⟩ := Import.run_pure_eq_ok.mp h
    exact .nil _
  | cons entry fields ih =>
    obtain ⟨e, es, middle, rfl, he, hes⟩ := readValues_cons_eq_ok.mp h
    exact .cons (.expr he) (ih hes)

theorem nodesRead_of_readStmts {stmts : List Stmt}
    (h : (readStmts path scope index values).run before = .ok (stmts, after)) :
    NodesRead values (stmts.map .stmt) before after := by
  induction values generalizing index before stmts with
  | nil =>
    obtain ⟨rfl, rfl⟩ := Import.run_pure_eq_ok.mp h
    exact .nil _
  | cons value values ih =>
    obtain ⟨fields, s, ss, middle, rfl, rfl, hs, hss⟩ := readStmts_cons_eq_ok.mp h
    exact .cons (.stmt hs) (ih hss)

theorem nodesRead_of_readReceiver {receiver : Option Expr}
    (h : (readReceiver path scope fields).run before = .ok (receiver, after)) :
    NodesRead ((fields.get? "receiver").toList.filter (!isNull ·)) (receiver.toList.map .expr)
      before after := by
  cases readReceiver_eq_ok.mp h with
  | missing hfield =>
    rw [hfield]
    exact .nil _
  | null hfield =>
    rw [hfield]
    exact .nil _
  | node hfield hread =>
    rw [hfield]
    -- what is read is an object, not null
    obtain ⟨inner, _, _, _, rfl, -⟩ := readExpr_eq_ok.mp hread
    exact .singleton (.expr hread)

theorem nodesRead_of_readArgs {args : List Expr}
    (h : (readArgs path scope fields).run before = .ok (args, after)) :
    NodesRead (itemsOf fields "args") (args.map .expr) before after := by
  cases readArgs_eq_ok.mp h with
  | missing hfield =>
    rw [itemsOf, hfield]
    exact .nil _
  | nodes hfield hread =>
    rw [itemsOf_eq hfield]
    exact nodesRead_of_readExprs hread

theorem nodesRead_of_readBody {stmts : List Stmt}
    (h : (readBody path scope fields).run before = .ok (stmts, after)) :
    NodesRead (itemsOf fields "statements") (stmts.map .stmt) before after := by
  obtain ⟨values, hvalues, hread⟩ := readBody_eq_ok.mp h
  rw [itemsOf_eq hvalues]
  exact nodesRead_of_readStmts hread

/-- Once a node has its handle, the nodes immediately inside it are read. A closure opens its scope
first, which leaves the locations alone. -/
theorem nodesRead_of_readNode {loc : Handle} {kind : Kind} {e : Expr}
    (hkind : kindOf? fields = some kind) (h : ReadNode path scope fields loc before kind e after) :
    e.loc = loc ∧ ∃ opened : Registry, opened.sourceMap = before.sourceMap ∧
      NodesRead (nodesInside fields) (Node.expr e).inner opened after := by
  cases h with
  | str | num | bool | null | var =>
    rw [nodesInside, hkind]
    exact ⟨rfl, _, rfl, .nil _⟩
  | gstring hparts =>
    obtain ⟨values, hvalues, hchunks⟩ := readParts_eq_ok.mp hparts
    rw [nodesInside, hkind]
    refine ⟨rfl, _, rfl, ?_⟩
    rw [itemsOf_eq hvalues]
    exact nodesRead_of_readChunks hchunks
  | property htarget =>
    rw [nodesInside, hkind]
    exact ⟨rfl, _, rfl, nodesRead_of_readField htarget⟩
  | call hreceiver _ hargs =>
    have hboth := (nodesRead_of_readReceiver hreceiver).append (nodesRead_of_readArgs hargs)
    rw [← List.map_append] at hboth
    rw [nodesInside, hkind]
    exact ⟨rfl, _, rfl, hboth⟩
  | map hentries =>
    obtain ⟨values, hvalues, hread⟩ := readEntries_eq_ok.mp hentries
    rw [nodesInside, hkind]
    refine ⟨rfl, _, rfl, ?_⟩
    rw [valuesOf_eq hvalues]
    exact nodesRead_of_readValues hread
  | list hitems =>
    obtain ⟨values, hvalues, hread⟩ := readItems_eq_ok.mp hitems
    rw [nodesInside, hkind]
    refine ⟨rfl, _, rfl, ?_⟩
    rw [itemsOf_eq hvalues]
    exact nodesRead_of_readExprs hread
  | binary _ _ hleft hright =>
    rw [nodesInside, hkind]
    exact ⟨rfl, _, rfl, (nodesRead_of_readField hleft).append (nodesRead_of_readField hright)⟩
  | thunk _ hopen hstmts =>
    rw [nodesInside, hkind]
    refine ⟨rfl, _, ?_, nodesRead_of_readBody hstmts⟩
    cases hopen
    rfl
  | closure _ _ hopen hstmts =>
    rw [nodesInside, hkind]
    refine ⟨rfl, _, ?_, nodesRead_of_readBody hstmts⟩
    cases hopen
    rfl

/-- The kinds of statements are no kinds of expressions. -/
theorem kindOf?_of_stmtReturns? {name : String} {returns : Bool}
    (hname : fields.get? "kind" = some (.string name)) (h : stmtReturns? name = some returns) :
    kindOf? fields = none := by
  unfold kindOf?
  rw [hname]
  unfold stmtReturns? at h
  split at h
  · next heq => rw [heq]; decide
  · split at h
    · next heq => rw [heq]; decide
    · cases h

/-- Noting the location of an object mints a handle for its position. -/
theorem noteLocation_run (fields : Fields) (registry : Registry) :
    (noteLocation fields).run registry
      = .ok ((registry.sourceMap.note (positionOf? fields)).1,
          { registry with sourceMap := (registry.sourceMap.note (positionOf? fields)).2 }) := by
  change noteLocation fields registry = _
  unfold noteLocation positionOf? naturalOf?
  cases (fields.get? "line").bind Value.natural? with
  | none => rfl
  | some line => rfl

theorem note_of_noteLocation {loc : Handle}
    (h : (noteLocation fields).run before = .ok (loc, after)) :
    before.sourceMap.note (positionOf? fields) = (loc, after.sourceMap) := by
  rw [noteLocation_run] at h
  cases h
  rfl

end Readers

/-! ### Objects and the nodes that they are read as -/

/-- The object is read as the node. -/
inductive NodeFrom (fields : Fields) : Node → Prop
  | expr {e : Expr} : ReadFrom (.object fields) e → NodeFrom fields (.expr e)
  | stmt {s : Stmt} : StmtFrom (.object fields) s → NodeFrom fields (.stmt s)

/-- An object of a document with the node that it is read as. -/
structure Site where
  fields : Fields
  node : Node
  origin : NodeFrom fields node

/-- The position that the object of a site gives. -/
def Site.position? (site : Site) : Option Position :=
  positionOf? site.fields

/-- The node of the site got its handle for the position of its object. -/
def Site.Noted (site : Site) (before after : SourceMap) : Prop :=
  before.note site.position? = (site.node.loc, after)

/-- **One step of reading.** A node gets its handle first, for the position of its object; then the
nodes immediately inside it are read, in order. -/
theorem NodeRead.inner {value : Value} {node : Node} {before after : Registry}
    (h : NodeRead value node before after) :
    ∃ (site : Site) (opened : Registry), value = .object site.fields ∧ node = site.node ∧
      site.Noted before.sourceMap opened.sourceMap ∧
      NodesRead (nodesInside site.fields) node.inner opened after := by
  cases h with
  | @expr path scope value e before after hread =>
    obtain ⟨fields, loc, noted, kind, rfl, hloc, hkind, hnode⟩ := readExpr_eq_ok.mp hread
    obtain ⟨rfl, opened, hopened, hinner⟩ := nodesRead_of_readNode hkind hnode
    have hnoted := note_of_noteLocation hloc
    rw [← hopened] at hnoted
    exact ⟨⟨fields, .expr e, .expr ⟨_, _, _, _, hread⟩⟩, opened, rfl, rfl, hnoted, hinner⟩
  | @stmt path scope fields s before after hread =>
    obtain ⟨name, hname, hreturns⟩ := hread.kind
    obtain ⟨noted, hloc, hexpr⟩ := hread.expr
    obtain ⟨part, hpart, he⟩ := readField_eq_ok.mp hexpr
    have horigin : StmtFrom (.object fields) s :=
      .stmt hread.label hname hreturns hpart ⟨_, _, _, _, he⟩
    have hinner : NodesRead (nodesInside fields) (Node.stmt s).inner noted after := by
      rw [nodesInside, kindOf?_of_stmtReturns? hname hreturns]
      exact nodesRead_of_readField hexpr
    exact ⟨⟨fields, .stmt s, .stmt horigin⟩, noted, rfl, rfl, note_of_noteLocation hloc, hinner⟩

/-- The objects and the nodes are those of sites, whose nodes got their handles in this order. -/
def Sited (objects : List Fields) (nodes : List Node) (before after : SourceMap) : Prop :=
  ∃ sites : List Site, sites.map Site.fields = objects ∧ sites.map Site.node = nodes ∧
    Threaded Site.Noted sites before after

namespace Sited

variable {objs objs' : List Fields} {nodes nodes' : List Node} {before middle after : SourceMap}

theorem nil : Sited [] [] before before :=
  ⟨[], rfl, rfl, .nil before⟩

theorem append (h : Sited objs nodes before middle) (h' : Sited objs' nodes' middle after) :
    Sited (objs ++ objs') (nodes ++ nodes') before after := by
  obtain ⟨sites, rfl, rfl, hnoted⟩ := h
  obtain ⟨sites', rfl, rfl, hnoted'⟩ := h'
  exact ⟨sites ++ sites', List.map_append, List.map_append, hnoted.append hnoted'⟩

/-- A site in front of others. -/
theorem cons (site : Site) (hsite : site.Noted before middle) (h : Sited objs nodes middle after) :
    Sited (site.fields :: objs) (site.node :: nodes) before after := by
  obtain ⟨sites, rfl, rfl, hnoted⟩ := h
  exact ⟨site :: sites, rfl, rfl, .cons hsite hnoted⟩

/-- Values that are read one after another, each of which is sited. -/
theorem flatMap {values : List Value} {nodes : List Node} {before after : Registry}
    (h : NodesRead values nodes before after)
    (hsited : ∀ node ∈ nodes, ∀ {value : Value} {before after : Registry},
      NodeRead value node before after →
        Sited (objects value) node.preorder before.sourceMap after.sourceMap) :
    Sited (values.flatMap objects) (nodes.flatMap Node.preorder) before.sourceMap
      after.sourceMap := by
  induction h with
  | nil registry => exact .nil
  | cons hfirst _ ih =>
    obtain ⟨hhead, htail⟩ := List.forall_mem_cons.mp hsited
    rw [List.flatMap_cons, List.flatMap_cons]
    exact (hhead hfirst).append (ih htail)

end Sited

/-- **Reading goes in preorder**, over the objects of a value and over the nodes of the tree that it
is read as. -/
theorem NodeRead.sited {value : Value} {node : Node} {before after : Registry}
    (h : NodeRead value node before after) :
    Sited (objects value) node.preorder before.sourceMap after.sourceMap := by
  induction node using Node.inductionOnInner generalizing value before after with
  | node node ih =>
    obtain ⟨site, opened, rfl, rfl, hnoted, hinner⟩ := h.inner
    rw [objects_object, Node.preorder_eq]
    exact .cons site hnoted (.flatMap hinner ih)

/-! ### The numbering -/

/-- The sites whose objects give a position. -/
def placed (sites : List Site) : List Site :=
  sites.filter (·.position?.isSome)

/-- Between two source maps the positions of sites were noted, in order, and nothing else. -/
structure Numbered (sites : List Site) (before after : SourceMap) : Prop where
  grows : after.Extends before
  /-- The nodes with a position are numbered from the next free handle on, and each handle stands
  for the position of its object. -/
  handle_eq : ∀ (i : Nat) (site : Site), (placed sites)[i]? = some site →
    site.node.loc = .entry (before.size + i) ∧ after.position? site.node.loc = site.position?
  handle_unknown : ∀ site ∈ sites, site.position? = none → site.node.loc = .unknown
  entries_eq : after.entries.toList = before.entries.toList
    ++ (sites.filterMap Site.position?).map fun position => ⟨some position, none⟩

namespace Numbered

variable {site : Site} {sites : List Site} {before middle after : SourceMap}

theorem nil (map : SourceMap) : Numbered [] map map where
  grows := .refl map
  handle_eq := nofun
  handle_unknown := nofun
  entries_eq := (List.append_nil _).symm

/-- A site without a position leaves the map as it is. -/
theorem cons_unplaced (hposition : site.position? = none) (hloc : site.node.loc = .unknown)
    (h : Numbered sites before after) : Numbered (site :: sites) before after where
  grows := h.grows
  handle_eq := by
    have hplaced : placed (site :: sites) = placed sites := by simp [placed, hposition]
    rw [hplaced]
    exact h.handle_eq
  handle_unknown := List.forall_mem_cons.mpr ⟨fun _ => hloc, h.handle_unknown⟩
  entries_eq := by
    rw [List.filterMap_cons_none hposition]
    exact h.entries_eq

/-- A site with a position takes the next handle. -/
theorem cons_placed {position : Position} (hposition : site.position? = some position)
    (hloc : site.node.loc = .entry before.size) (h : Numbered sites (before.add position).2 after) :
    Numbered (site :: sites) before after where
  grows := (before.extends_mint _).trans h.grows
  handle_eq := by
    have hplaced : placed (site :: sites) = site :: placed sites := by simp [placed, hposition]
    have hsize : (before.add position).2.size = before.size + 1 := before.size_mint _
    rw [hplaced]
    intro i other hother
    cases i with
    | zero =>
      obtain rfl := Option.some.inj hother
      refine ⟨hloc, ?_⟩
      -- the handle is known at once, and what is noted later does not change its position
      have hknown : (before.add position).2.Knows site.node.loc := by
        rw [hloc]
        exact Nat.lt_of_lt_of_eq (Nat.lt_succ_self _) hsize.symm
      have hinfo : (before.add position).2.info? (.entry before.size)
          = some ⟨some position, none⟩ := before.info?_mint_self _
      rw [h.grows.position?_eq hknown, hloc, SourceMap.position?, hinfo, hposition]
      rfl
    | succ i =>
      have hrest := h.handle_eq i other hother
      rw [hsize, Nat.add_assoc, Nat.add_comm 1 i] at hrest
      exact hrest
  handle_unknown := by
    refine List.forall_mem_cons.mpr ⟨fun hnone => ?_, h.handle_unknown⟩
    rw [hposition] at hnone
    cases hnone
  entries_eq := by
    have hfirst : (before.add position).2.entries.toList
        = before.entries.toList ++ [⟨some position, none⟩] := Array.toList_push
    rw [h.entries_eq, hfirst, List.filterMap_cons_some hposition, List.map_cons, List.append_assoc]
    rfl

end Numbered

theorem numbered_of_threaded {sites : List Site} {before after : SourceMap}
    (h : Threaded Site.Noted sites before after) : Numbered sites before after := by
  induction h with
  | nil map => exact .nil map
  | @cons site sites before middle after hnoted _ ih =>
    unfold Site.Noted at hnoted
    cases hposition : site.position? with
    | none =>
      rw [hposition] at hnoted
      obtain ⟨hloc, rfl⟩ := Prod.mk.inj hnoted
      exact ih.cons_unplaced hposition hloc.symm
    | some position =>
      rw [hposition] at hnoted
      obtain ⟨hloc, rfl⟩ := Prod.mk.inj hnoted
      exact ih.cons_placed hposition hloc.symm

theorem sited_of_documentOf {value : Value} {document : Document} {before after : Registry}
    (h : (documentOf value).run before = .ok (document, after)) :
    Sited (documentObjects value) document.body.preorder before.sourceMap after.sourceMap := by
  obtain ⟨fields, stmts, rfl, -, hbody, hstmts⟩ := documentOf_eq_ok.mp h
  rw [hbody]
  exact .flatMap (nodesRead_of_readBody hstmts) fun _ _ _ _ _ hread => hread.sited

/-- **A document is numbered in preorder.** The blocks of the tree that it is read as have the
scopes of the arena, one after another, and the scope of every block but the outermost was opened
inside the scope of the block around it. The nodes of the tree go together with the objects of the
document, each read from its own; those whose object gives a position are numbered one after
another, each handle stands for the position of its object, and the other nodes have no handle. The
source map and the arena hold nothing else. -/
theorem documentOf_numbers_preorder {value : Value} {document : Document} {after : Registry}
    (h : (documentOf value).run {} = .ok (document, after)) :
    document.body.nested.map Block.scope = (List.range after.scopes.size).map ScopeId.mk ∧
    after.scopes.parent? document.body.scope = none ∧
    (∀ block ∈ document.body.nested, block = document.body ∨
      ∃ outer ∈ document.body.nested, block ∈ outer.immediate ∧
        after.scopes.parent? block.scope = some outer.scope) ∧
    ∃ sites : List Site,
      sites.map Site.fields = documentObjects value ∧
      sites.map Site.node = document.body.preorder ∧
      (∀ (i : Nat) (site : Site), (sites.filter (·.position?.isSome))[i]? = some site →
        site.node.loc = .entry i ∧ after.sourceMap.position? site.node.loc = site.position?) ∧
      (∀ site ∈ sites, site.position? = none → site.node.loc = .unknown) ∧
      after.sourceMap.entries.toList
        = (sites.filterMap Site.position?).map fun position => ⟨some position, none⟩ := by
  have hroot : after.scopes.parent? document.body.scope = none := by
    rw [scope_of_documentOf h, (opens_of_documentOf h).grows.parent?_eq Scopes.root Nat.one_pos]
    rfl
  have houter : ∀ block ∈ document.body.nested, block = document.body ∨
      ∃ outer ∈ document.body.nested, block ∈ outer.immediate ∧
        after.scopes.parent? block.scope = some outer.scope := by
    intro block hblock
    refine (Block.exists_outer hblock).imp_right fun ⟨outer, houter, himmediate⟩ => ?_
    exact ⟨outer, houter, himmediate, nests_of_documentOf h outer houter block himmediate⟩
  obtain ⟨sites, hfields, hnodes, hnoted⟩ := sited_of_documentOf h
  have hnumbered := numbered_of_threaded hnoted
  refine ⟨nested_scopes_of_documentOf h, hroot, houter, sites, hfields, hnodes, ?_,
    hnumbered.handle_unknown, hnumbered.entries_eq⟩
  intro i site hsite
  -- the map was empty, so that the numbers start at zero
  have hhandle := hnumbered.handle_eq i site hsite
  rw [show SourceMap.size ({} : Registry).sourceMap = 0 from rfl, Nat.zero_add] at hhandle
  exact hhandle

/-- A call on a receiver, with a closure and a string among its arguments. The closure has no line,
the statement in it has no column, and the line of the call is no number. -/
def sampleLocations : Value :=
  let place (line column : UInt64) : Fields :=
    [("line", .number (.natural line)), ("column", .number (.natural column))]
  let closure : Value := .object [("kind", .string "closure"), ("params", .array [.string "it"]),
    ("statements", .array
      [.object [("kind", .string "return"), ("line", .number (.natural 2)),
        ("expr", .object (("kind", .string "null") :: place 2 8))]])]
  let string : Value := .object (("kind", .string "gstring") :: ("parts", .array
    [.string "at ", .object (("kind", .string "var") :: ("name", .string "here") :: place 3 4)])
    :: place 3 1)
  .object [("statements", .array
    [.object (("kind", .string "expr") :: ("expr", .object
      [("kind", .string "call"), ("line", .string "one"), ("method", .string "map"),
        ("args", .array [closure, string]),
        ("receiver", .object (("kind", .string "list") :: ("items", .array []) :: place 1 1))])
      :: place 1 0)])]

theorem documentOf_numbers_preorder_call :
    ∃ document after, (documentOf sampleLocations).run {} = .ok (document, after) ∧
      document.body.handles = [.entry 0, .unknown, .entry 1, .unknown, .entry 2, .entry 3, .entry 4,
        .entry 5] ∧
      document.body.nested.map Block.scope = [⟨0⟩, ⟨1⟩] ∧
      ∃ sites : List Site, sites.map Site.fields = documentObjects sampleLocations ∧
        sites.map Site.node = document.body.preorder ∧
        (sites.filterMap Site.position?).length = 6 := by
  obtain ⟨document, after, hread, hhandles, hsize, hentries⟩ :
      ∃ document after, (documentOf sampleLocations).run {} = .ok (document, after) ∧
        document.body.handles = [.entry 0, .unknown, .entry 1, .unknown, .entry 2, .entry 3,
          .entry 4, .entry 5] ∧ after.scopes.size = 2 ∧ after.sourceMap.entries.toList.length = 6 :=
    ⟨_, _, rfl, rfl, rfl, rfl⟩
  obtain ⟨hscopes, -, -, sites, hfields, hnodes, -, -, hpositions⟩ :=
    documentOf_numbers_preorder hread
  refine ⟨document, after, hread, hhandles, ?_, sites, hfields, hnodes, ?_⟩
  · rw [hscopes, hsize]
    rfl
  · rw [← hentries, hpositions, List.length_map]

end Interchange

end FlowDesugar
