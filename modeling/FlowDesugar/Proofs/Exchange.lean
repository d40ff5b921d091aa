import FlowDesugar.OutputFormat
import FlowDesugar.Proofs.Growth
import FlowDesugar.Proofs.JsonKeys
import FlowDesugar.Proofs.JsonText

/-!
# Handing a desugared tree on as a text

What is written for a desugared tree is meant to be read again, here or elsewhere. Two things can
get lost between a value and its text: a second field of the same name, and the last digits of a
double. A value without either is `Lossless`. A text is read as a value without the first, and what
a tree has of either comes from the document that it was read from and goes into the document that
is written for it:

* `Interchange.ReadFrom.lossless` — reading a document;
* `persists_lossless` — desugaring;
* `Interchange.lossless_writeExpr`, `Interchange.lossless_writeDocument` — writing.

What remains is the depth. Texts are read down to a fixed depth, and a document may get two levels
deeper on its way.
-/

namespace FlowDesugar

open Json (Value Fields Path)

/-! ### Nothing to lose -/

/-- The value is no object in which two fields have the same name, and no double. -/
def Json.Value.Lossless (value : Value) : Prop :=
  value.DistinctKeys ∧ value.Integral

/-- The node is no map in which two entries have the same key, and no double. -/
def Expr.Lossless : Expr → Prop
  | .literal _ (.number value) => (Value.number value).Integral
  | .map _ entries => (entries.map Entry.key).Nodup
  | _ => True

theorem Json.Value.Everywhere.distinctKeys {value : Value} (h : value.Everywhere Value.Lossless) :
    value.Everywhere Value.DistinctKeys :=
  ⟨h.own.1, fun part hpart => (h.parts part hpart).1⟩

theorem Json.Value.Everywhere.integral {value : Value} (h : value.Everywhere Value.Lossless) :
    value.Everywhere Value.Integral :=
  ⟨h.own.2, fun part hpart => (h.parts part hpart).2⟩

/-! ### Desugaring -/

/-- Other values, or fewer, leave the keys of a map apart. -/
theorem nodup_keys_withValues {entries : List Entry} (h : (entries.map Entry.key).Nodup)
    (values : List Expr) :
    ((entries.zipWith Entry.withValue values).map Entry.key).Nodup := by
  have hkeys : (entries.zipWith Entry.withValue values).map Entry.key
      = (entries.map Entry.key).take values.length := by
    induction entries generalizing values with
    | nil => simp
    | cons entry entries ih =>
      cases values with
      | nil => rfl
      | cons value values =>
        have hrest := ih (List.nodup_cons.mp h).2 values
        rw [List.zipWith_cons_cons, List.map_cons, hrest]
        rfl
  rw [hkeys]
  exact h.sublist (List.take_sublist _ _)

theorem persists_lossless : Persists Expr.Lossless where
  text _ _ := trivial
  bool _ _ := trivial
  call _ _ _ _ := trivial
  thunk _ _ := trivial
  withChildren e exprs h := by
    cases e with
    | literal loc value => exact h
    | map loc entries => exact nodup_keys_withValues h exprs
    | call loc receiver method args =>
      cases receiver with
      | none => trivial
      | some receiver => cases exprs <;> trivial
    | property loc target name =>
      match exprs with
      | [] | [_] | _ :: _ :: _ => trivial
    | binary loc op left right =>
      match exprs with
      | [] | [_] | [_, _] | _ :: _ :: _ :: _ => trivial
    | _ => trivial

namespace Interchange

/-! ### Reading -/

/-- **Nothing that can get lost comes from elsewhere** than the value that was read. -/
theorem ReadFrom.lossless {value : Value} {e : Expr} (h : ReadFrom value e)
    (hvalue : value.Everywhere Value.Lossless) : e.Everywhere Expr.Lossless := by
  induction e using Expr.inductionOnChildren generalizing value with
  | node e ih =>
    refine .node ?_ fun c hc => ?_
    · obtain ⟨path, scope, before, after, hrun⟩ := h
      obtain ⟨fields, loc, noted, kind, rfl, -, -, hnode⟩ := readExpr_eq_ok.mp hrun
      cases hnode with
      | num hget => exact (hvalue.get? hget).own.2
      | map hentries =>
        -- the entries of a map have the names of the fields of one object
        obtain ⟨values, hget, hvalues⟩ := readEntries_eq_ok.mp hentries
        have hdistinct := (hvalue.get? hget).own.1
        rw [Expr.Lossless, keys_of_readValues hvalues]
        exact hdistinct
      | _ => trivial
    · obtain ⟨gap, hstep⟩ := Expr.exists_gap hc
      obtain ⟨part, hwithin, hread⟩ := h.steps _ hstep
      exact ih c hc hread (hvalue.inside hwithin.inside)

theorem lossless_of_documentOf {value : Value} {before after : Registry} {document : Document}
    (h : (documentOf value).run before = .ok (document, after))
    (hvalue : value.Everywhere Value.Lossless) : document.body.Everywhere Expr.Lossless := by
  intro e he
  obtain ⟨part, hwithin, hread⟩ := within_of_documentOf h e he
  exact hread.lossless (hvalue.inside hwithin.inside)

/-! ### Writing -/

section

variable {map : SourceMap}

theorem lossless_string (text : String) : (Value.string text).Everywhere Value.Lossless :=
  ⟨⟨trivial, trivial⟩, nofun⟩

theorem lossless_natural (value : UInt64) :
    (Value.number (.natural value)).Everywhere Value.Lossless :=
  ⟨⟨trivial, trivial⟩, nofun⟩

theorem lossless_array {items : List Value} (h : ∀ item ∈ items, item.Everywhere Value.Lossless) :
    (Value.array items).Everywhere Value.Lossless :=
  Value.everywhere_array.mpr ⟨⟨trivial, trivial⟩, h⟩

theorem lossless_object {fields : Fields} (names : List String)
    (hnames : fields.map Prod.fst = names) (hapart : names.Nodup)
    (h : ∀ field ∈ fields, field.2.Everywhere Value.Lossless) :
    (Value.object fields).Everywhere Value.Lossless := by
  refine Value.everywhere_object.mpr ⟨⟨?_, trivial⟩, h⟩
  rw [← hnames] at hapart
  exact hapart

/-- A node is lossless if the fields of its kind are, and have names of their own. -/
theorem lossless_node {kind : String} {loc : Handle} {fields : Fields} (names : List String)
    (hnames : fields.map Prod.fst = names) (hapart : (["kind", "line", "column"] ++ names).Nodup)
    (h : ∀ field ∈ fields, field.2.Everywhere Value.Lossless) :
    (node map kind loc fields).Everywhere Value.Lossless := by
  rw [node_eq]
  unfold nodeFields
  cases map.position? loc with
  | some position =>
    refine lossless_object (["kind", "line", "column"] ++ names) ?_ hapart ?_
    · rw [← hnames]
      rfl
    · refine List.forall_mem_cons.mpr ⟨lossless_string kind, ?_⟩
      refine List.forall_mem_cons.mpr ⟨lossless_natural position.line, ?_⟩
      exact List.forall_mem_cons.mpr ⟨lossless_natural position.column, h⟩
  | none =>
    -- without a position, two of the names are missing
    have hsublist : ("kind" :: names).Sublist (["kind", "line", "column"] ++ names) :=
      .cons_cons _ (.cons _ (.cons _ (.refl _)))
    refine lossless_object ("kind" :: names) ?_ (hapart.sublist hsublist) ?_
    · rw [← hnames]
      rfl
    · exact List.forall_mem_cons.mpr ⟨lossless_string kind, h⟩

/-- The value that is written for the expression is lossless. -/
abbrev WritesLossless (map : SourceMap) (e : Expr) : Prop :=
  (writeExpr map e).Everywhere Value.Lossless

theorem lossless_writeExprs {es : List Expr} (h : ∀ e ∈ es, WritesLossless map e) :
    (Value.array (writeExprs map es)).Everywhere Value.Lossless := by
  refine lossless_array ?_
  induction es with
  | nil => exact List.forall_mem_nil _
  | cons e es ih =>
    obtain ⟨hfirst, hrest⟩ := List.forall_mem_cons.mp h
    exact List.forall_mem_cons.mpr ⟨hfirst, ih hrest⟩

theorem lossless_writeChunks {chunks : List Chunk}
    (h : ∀ e ∈ chunks.filterMap Chunk.expr?, WritesLossless map e) :
    (Value.array (writeChunks map chunks)).Everywhere Value.Lossless := by
  refine lossless_array ?_
  induction chunks with
  | nil => exact List.forall_mem_nil _
  | cons chunk chunks ih =>
    cases chunk with
    | text value => exact List.forall_mem_cons.mpr ⟨lossless_string value, ih h⟩
    | interpolation e =>
      obtain ⟨hfirst, hrest⟩ := List.forall_mem_cons.mp h
      exact List.forall_mem_cons.mpr ⟨hfirst, ih hrest⟩

theorem lossless_writeEntries {entries : List Entry} (hkeys : (entries.map Entry.key).Nodup)
    (h : ∀ e ∈ entries.map Entry.value, WritesLossless map e) :
    (Value.object (writeEntries map entries)).Everywhere Value.Lossless := by
  have hfields : ∀ entries : List Entry, writeEntries map entries
      = entries.map fun entry => (entry.key, writeExpr map entry.value) := by
    intro entries
    induction entries with
    | nil => rfl
    | cons entry entries ih =>
      cases entry
      rw [writeEntries, ih, List.map_cons]
  rw [hfields]
  refine lossless_object (entries.map Entry.key) ?_ hkeys ?_
  · rw [List.map_map]
    rfl
  · refine List.forall_mem_map.mpr fun entry hentry => ?_
    exact h entry.value (List.mem_map_of_mem hentry)

theorem lossless_writeBlock {body : Block} (h : ∀ e ∈ body.children, WritesLossless map e) :
    (Value.array (writeBlock map body)).Everywhere Value.Lossless := by
  obtain ⟨scope, stmts⟩ := body
  refine lossless_array ?_
  rw [writeBlock]
  induction stmts with
  | nil => exact List.forall_mem_nil _
  | cons stmt stmts ih =>
    obtain ⟨hfirst, hrest⟩ := List.forall_mem_cons.mp h
    rw [writeStmts_cons]
    refine List.forall_mem_cons.mpr ⟨?_, ih hrest⟩
    unfold stmtFields
    cases stmt.label with
    | none => exact lossless_node ["expr"] rfl (by decide) (List.forall_mem_singleton.mpr hfirst)
    | some label =>
      exact lossless_node ["label", "expr"] rfl (by decide) (List.forall_mem_cons.mpr
        ⟨lossless_string label, List.forall_mem_singleton.mpr hfirst⟩)

/-- **A lossless tree is written as a lossless value.** -/
theorem lossless_writeExpr {e : Expr} (h : e.Everywhere Expr.Lossless) :
    (writeExpr map e).Everywhere Value.Lossless := by
  induction e using Expr.inductionOnChildren with
  | node e ih =>
    have hchildren : ∀ c ∈ e.children, WritesLossless map c := fun c hc => ih c hc (h.children c hc)
    cases e with
    | literal loc value =>
      cases value with
      | text value =>
        have hvalue := lossless_string value
        exact lossless_node ["value"] rfl (by decide) (List.forall_mem_singleton.mpr hvalue)
      | number value =>
        have hvalue : (Value.number value).Everywhere Value.Lossless := ⟨⟨trivial, h.own⟩, nofun⟩
        exact lossless_node ["value"] rfl (by decide) (List.forall_mem_singleton.mpr hvalue)
      | bool value =>
        have hvalue : (Value.bool value).Everywhere Value.Lossless := ⟨⟨trivial, trivial⟩, nofun⟩
        exact lossless_node ["value"] rfl (by decide) (List.forall_mem_singleton.mpr hvalue)
      | null => exact lossless_node [] rfl (by decide) nofun
    | gstring loc chunks =>
      have hparts := lossless_writeChunks hchildren
      exact lossless_node ["parts"] rfl (by decide) (List.forall_mem_singleton.mpr hparts)
    | var loc name =>
      have hname := lossless_string name
      exact lossless_node ["name"] rfl (by decide) (List.forall_mem_singleton.mpr hname)
    | property loc target name =>
      have htarget := hchildren target List.mem_cons_self
      exact lossless_node ["target", "name"] rfl (by decide) (List.forall_mem_cons.mpr
        ⟨htarget, List.forall_mem_singleton.mpr (lossless_string name)⟩)
    | call loc receiver method args =>
      obtain ⟨hreceiver, hargs⟩ := List.forall_mem_append.mp hchildren
      have hrest : ∀ field ∈ ([("method", .string method), ("args", .array (writeExprs map args))] :
          Fields), field.2.Everywhere Value.Lossless :=
        List.forall_mem_cons.mpr ⟨lossless_string method,
          List.forall_mem_singleton.mpr (lossless_writeExprs hargs)⟩
      cases receiver with
      | none => exact lossless_node ["method", "args"] rfl (by decide) hrest
      | some receiver =>
        have hfirst := hreceiver receiver List.mem_cons_self
        exact lossless_node ["receiver", "method", "args"] rfl (by decide)
          (List.forall_mem_cons.mpr ⟨hfirst, hrest⟩)
    | map loc entries =>
      have hentries := lossless_writeEntries h.own hchildren
      exact lossless_node ["entries"] rfl (by decide) (List.forall_mem_singleton.mpr hentries)
    | list loc items =>
      have hitems := lossless_writeExprs hchildren
      exact lossless_node ["items"] rfl (by decide) (List.forall_mem_singleton.mpr hitems)
    | binary loc op left right =>
      obtain ⟨hleft, hrest⟩ := List.forall_mem_cons.mp hchildren
      have hright := List.forall_mem_singleton.mp hrest
      exact lossless_node ["op", "left", "right"] rfl (by decide) (List.forall_mem_cons.mpr
        ⟨lossless_string op.symbol, List.forall_mem_cons.mpr
          ⟨hleft, List.forall_mem_singleton.mpr hright⟩⟩)
    | closure loc params body =>
      have hparams : (Value.array (params.map Value.string)).Everywhere Value.Lossless :=
        lossless_array (List.forall_mem_map.mpr fun param _ => lossless_string param)
      have hbody := lossless_writeBlock hchildren
      exact lossless_node ["params", "statements"] rfl (by decide) (List.forall_mem_cons.mpr
        ⟨hparams, List.forall_mem_singleton.mpr hbody⟩)
    | thunk loc body =>
      have hbody := lossless_writeBlock hchildren
      exact lossless_node ["statements"] rfl (by decide) (List.forall_mem_singleton.mpr hbody)

theorem lossless_writeDocument {source : Option String} {body : Block}
    (h : body.Everywhere Expr.Lossless) :
    (writeDocument map source body).Everywhere Value.Lossless := by
  have hbody : (Value.array (writeBlock map body)).Everywhere Value.Lossless :=
    lossless_writeBlock fun e he => lossless_writeExpr (h e he)
  unfold writeDocument
  cases source with
  | none =>
    exact lossless_object ["statements"] rfl (by decide) (List.forall_mem_singleton.mpr hbody)
  | some source =>
    exact lossless_object ["source", "statements"] rfl (by decide) (List.forall_mem_cons.mpr
      ⟨lossless_string source, List.forall_mem_singleton.mpr hbody⟩)

end

/-! ### Texts -/

theorem parseDocument_of_read {text : String} {value : Value} (h : Json.read text = .ok value) :
    parseDocument "json" text = documentOf value := by
  unfold parseDocument
  rw [if_pos rfl, h]

theorem parseDocument_of_error {text : String} {error : Json.ReadError}
    (h : Json.read text = .error error) (before : Registry) :
    (parseDocument "json" text).run before = .error (.invalidJson error) := by
  unfold parseDocument
  rw [if_pos rfl, h]
  rfl

/-- What is written for a tree whose closures name their parameters is read as the same tree. -/
theorem documentOf_written {block : Block} (h : block.Everywhere Expr.NamesParams)
    (map : SourceMap) (source : Option String) (before : Registry) :
    ∃ document after,
      (documentOf (writeDocument map source block)).run before = .ok (document, after) ∧
      document.source = source ∧ document.body.bare = block.bare := by
  obtain ⟨fields, hwritten, hsource, hfield⟩ := exists_fields_writeDocument map source block
  have hchildren : ∀ e ∈ block.children, Recoverable map e :=
    fun e he => recoverable_of_namesParams (h e he)
  obtain ⟨stmts', after, hstmts, hbare, -⟩ :=
    recovers_readBody .root Scopes.root hchildren hfield before
  obtain ⟨scope, stmts⟩ := block
  refine ⟨⟨source, ⟨Scopes.root, stmts'⟩⟩, after, ?_, rfl, ?_⟩
  · exact documentOf_eq_ok.mpr ⟨fields, stmts', hwritten, hsource, rfl, hstmts⟩
  · exact congrArg (Block.mk Scopes.root) hbare

/-- **The text of a desugared tree can be read** as far as texts are read at all. Take a text that
is accepted and has no doubles in it, and desugar what it is read as. The text that is written for
the result is accepted if it is nested no deeper than the limit, as the same tree up to handles and
scopes, and is refused for its depth otherwise. It is nested at most two levels deeper than the
first text. -/
theorem parseDocument_write_desugar {text : String} {value : Value} {start registry : Registry}
    {document : Document} {keywords : Keywords} {before after : Progress} {out : Block}
    (htext : Json.read text = .ok value) (hintegral : value.Everywhere Value.Integral)
    (hread : (parseDocument "json" text).run start = .ok (document, registry))
    (hrun : (document.body.desugar keywords).run before = (.ok out, after))
    (map : SourceMap) (source : Option String) (again : Registry) :
    let depth := (writeDocument map source out).depth
    let outcome := (parseDocument "json" (OutputFormat.json.write map source out)).run again
    (depth ≤ Json.depthLimit → ∃ document' registry', outcome = .ok (document', registry') ∧
        document'.source = source ∧ document'.body.bare = out.bare) ∧
      (Json.depthLimit < depth →
        ∃ error, outcome = .error (.invalidJson error) ∧ error.fault = .tooDeep) ∧
      depth ≤ value.depth + 2 := by
  intro depth outcome
  rw [parseDocument_of_read htext] at hread
  -- what may get lost is followed from the text through the tree to the document
  have hdistinct := Json.distinctKeys_of_read htext
  have hvalue : value.Everywhere Value.Lossless :=
    ⟨⟨hdistinct.own, hintegral.own⟩, fun part hpart =>
      ⟨hdistinct.parts part hpart, hintegral.parts part hpart⟩⟩
  have hout : out.Everywhere Expr.Lossless :=
    persists_lossless.desugar (lossless_of_documentOf hread hvalue) hrun
  have hwritten : (writeDocument map source out).Everywhere Value.Lossless :=
    lossless_writeDocument hout
  have hnames : out.Everywhere Expr.NamesParams :=
    persists_namesParams.desugar (namesParams_of_documentOf hread) hrun
  refine ⟨fun hle => ?_, fun hgt => ?_, depth_writeDocument_of_desugar hread hrun map source⟩
  · have hback := Json.read_write_of_depth_le hwritten.distinctKeys hwritten.integral hle
    have houtcome : outcome = (documentOf (writeDocument map source out)).run again :=
      congrArg (fun read => read.run again) (parseDocument_of_read hback)
    rw [houtcome]
    exact documentOf_written hnames map source again
  · obtain ⟨error, hrefused, hfault⟩ :=
      Json.read_write_of_depth_gt hwritten.distinctKeys hwritten.integral hgt
    exact ⟨error, parseDocument_of_error hrefused again, hfault⟩

/-- A map with a negative number, under a key that has to be escaped, as the script of a
definition. -/
def sampleScript : Block :=
  ⟨Scopes.root, [.plain .unknown (.call .unknown none "process" [.call .unknown none "one"
    [.thunk .unknown ⟨⟨1⟩, [⟨false, .unknown, some "exec", .map .unknown
      [⟨"a\n\"b\"", .literal .unknown (.number (.negative 7 (by decide)))⟩,
       ⟨"c", .literal .unknown (.text "\t")⟩]⟩]⟩]])]⟩

theorem lossless_sampleScript : sampleScript.Everywhere Expr.Lossless := by
  have hkeys : ["a\n\"b\"", "c"].Nodup := by decide
  have hvalues : ∀ e ∈ [Expr.literal .unknown (.number (.negative 7 (by decide))),
      .literal .unknown (.text "\t")], e.Everywhere Expr.Lossless :=
    List.forall_mem_cons.mpr
      ⟨.node trivial nofun, List.forall_mem_singleton.mpr (.node trivial nofun)⟩
  -- the definition, the call in it and the thunk in that have one child each
  refine List.forall_mem_singleton.mpr (.node trivial (List.forall_mem_singleton.mpr ?_))
  refine .node trivial (List.forall_mem_singleton.mpr (.node trivial ?_))
  exact List.forall_mem_singleton.mpr (.node hkeys hvalues)

/-- The text of `sampleScript` goes through, with the script in its thunk. -/
theorem parseDocument_write_desugar_script :
    let value := writeDocument .empty (some "main.nf") sampleScript
    let text := Json.write value
    ∃ document before out after,
      Json.read text = .ok value ∧ value.Everywhere Value.Integral ∧
      (parseDocument "json" text).run {} = .ok (document, before.registry) ∧
      (document.body.desugar .default).run before = (.ok out, after) ∧
      ∃ document' registry',
        (parseDocument "json" (OutputFormat.json.write after.registry.sourceMap document.source
          out)).run {} = .ok (document', registry') ∧
        document'.source = some "main.nf" ∧ document'.body.bare = out.bare := by
  intro value text
  have hvalue : value.Everywhere Value.Lossless := lossless_writeDocument lossless_sampleScript
  have htext : Json.read text = .ok value :=
    Json.read_write_of_depth_le hvalue.distinctKeys hvalue.integral (by decide)
  obtain ⟨document, registry, hdocument, hsource, out, after, hrun⟩ :
      ∃ document registry, (documentOf value).run {} = .ok (document, registry) ∧
        document.source = some "main.nf" ∧
        ∃ out after, (document.body.desugar .default).run { registry } = (.ok out, after) :=
    ⟨_, _, rfl, rfl, _, _, rfl⟩
  have hread : (parseDocument "json" text).run {} = .ok (document, registry) := by
    rw [parseDocument_of_read htext, hdocument]
  obtain ⟨haccepted, -, hdepth⟩ := parseDocument_write_desugar htext hvalue.integral hread hrun
    after.registry.sourceMap document.source {}
  -- the first text is far from the limit, and so is the second
  have hlimit : value.depth + 2 ≤ Json.depthLimit := by decide
  obtain ⟨document', registry', hagain, hsource', hbare⟩ :=
    haccepted (Nat.le_trans hdepth hlimit)
  exact ⟨document, { registry }, out, after, htext, hvalue.integral, hread, hrun, document',
    registry', hagain, hsource'.trans hsource, hbare⟩

/-- Properties of one another, so many, the last of them of a call that has no field for its
arguments. -/
def sampleChain : Nat → Value
  | 0 => .object [("kind", .string "call"), ("method", .string "size")]
  | n + 1 =>
    .object [("kind", .string "property"), ("target", sampleChain n), ("name", .string "x")]

/-- A document with such a chain in it, which is as deep as it can be for 123 of them. -/
def sampleDeep (n : Nat) : Value :=
  .object [("statements", .array [.object [("kind", .string "expr"), ("expr", sampleChain n)]])]

/-- What a chain is read as, and stays when it is desugared. -/
def sampleLinks : Nat → Expr
  | 0 => .call .unknown none "size" []
  | n + 1 => .property .unknown (sampleLinks n) "x"

def sampleBody (n : Nat) : Block :=
  ⟨Scopes.root, [.plain .unknown (sampleLinks n)]⟩

theorem lossless_sampleDeep (n : Nat) : (sampleDeep n).Everywhere Value.Lossless := by
  have hchain : (sampleChain n).Everywhere Value.Lossless := by
    induction n with
    | zero =>
      exact lossless_object ["kind", "method"] rfl (by decide) (List.forall_mem_cons.mpr
        ⟨lossless_string _, List.forall_mem_singleton.mpr (lossless_string _)⟩)
    | succ n ih =>
      exact lossless_object ["kind", "target", "name"] rfl (by decide) (List.forall_mem_cons.mpr
        ⟨lossless_string _, List.forall_mem_cons.mpr
          ⟨ih, List.forall_mem_singleton.mpr (lossless_string _)⟩⟩)
  refine lossless_object ["statements"] rfl (by decide) (List.forall_mem_singleton.mpr ?_)
  refine lossless_array (List.forall_mem_singleton.mpr ?_)
  exact lossless_object ["kind", "expr"] rfl (by decide) (List.forall_mem_cons.mpr
    ⟨lossless_string _, List.forall_mem_singleton.mpr hchain⟩)

theorem depth_sampleDeep (n : Nat) : (sampleDeep n).depth = n + 4 := by
  have hchain : (sampleChain n).depth = n + 1 := by
    induction n with
    | zero => rfl
    | succ n ih =>
      simp only [sampleChain, Value.depth, Json.depthOfFields, ih]
      omega
  simp only [sampleDeep, Value.depth, Json.depthOfFields, Json.depthOfItems, hchain]
  omega

theorem documentOf_sampleDeep (n : Nat) :
    (documentOf (sampleDeep n)).run {} = .ok (⟨none, sampleBody n⟩, {}) := by
  have hchain : ∀ path scope before,
      (readExpr path scope (sampleChain n)).run before = .ok (sampleLinks n, before) := by
    induction n with
    | zero => exact fun _ _ _ => rfl
    | succ n ih =>
      intro path scope before
      have htarget : (readField path scope "target" [("kind", .string "property"),
          ("target", sampleChain n), ("name", .string "x")]).run before
            = .ok (sampleLinks n, before) :=
        readField_eq_ok.mpr ⟨_, rfl, ih _ _ _⟩
      exact readExpr_eq_ok.mpr
        ⟨_, .unknown, before, .property, rfl, rfl, rfl, .property htarget rfl⟩
  have hstmt : ReadStmt ((Path.root.field "statements").item 0) Scopes.root {}
      [("kind", .string "expr"), ("expr", sampleChain n)] (.plain .unknown (sampleLinks n)) {} :=
    ⟨.missing rfl, ⟨"expr", rfl, rfl⟩, ⟨{}, rfl, readField_eq_ok.mpr ⟨_, rfl, hchain _ _ _⟩⟩⟩
  refine documentOf_eq_ok.mpr ⟨_, _, rfl, .missing rfl, rfl, readBody_eq_ok.mpr ⟨_, rfl, ?_⟩⟩
  exact readStmts_cons_eq_ok.mpr ⟨_, _, [], {}, rfl, rfl, hstmt, rfl⟩

theorem desugar_sampleBody (n : Nat) (before : Progress) :
    ((sampleBody n).desugar .default).run before = (.ok (sampleBody n), before) := by
  have hlinks : ((sampleLinks n).desugar .default).run before = (.ok (sampleLinks n), before) := by
    induction n with
    | zero => rfl
    | succ n ih =>
      rw [sampleLinks, Expr.desugar, Pass.run_bind_of_ok ih]
      rfl
  have hstmts : (desugarStmts .default (sampleBody n).stmts).run before
      = (.ok (sampleBody n).stmts, before) := by
    change (desugarStmts .default [.plain .unknown (sampleLinks n)]).run before = _
    rw [Stmt.plain, desugarStmts, Pass.run_bind_of_ok hlinks]
    rfl
  rw [Block.desugar, Pass.run_bind_of_ok hstmts]
  rfl

theorem depth_sampleLinks (n : Nat) : (sampleLinks n).depth = n + 2 := by
  induction n with
  | zero => rfl
  | succ n ih =>
    rw [sampleLinks, Expr.depth, depth_writeExpr_property, depth_writeExpr, ih]
    omega

/-- **Not every text of a desugared tree can be read.** A text that is nested as deep as it may be
has no room for an empty array of arguments that it does not have. -/
theorem desugared_text_not_always_read :
    ¬ ∀ (text : String) (value : Value) (document : Document) (keywords : Keywords)
      (before after : Progress) (out : Block), Json.read text = .ok value →
      value.Everywhere Value.Integral →
      (parseDocument "json" text).run {} = .ok (document, before.registry) →
      (document.body.desugar keywords).run before = (.ok out, after) →
      ∃ document' registry', (parseDocument "json" (OutputFormat.json.write
          after.registry.sourceMap document.source out)).run {} = .ok (document', registry') ∧
        document'.body.bare = out.bare := by
  intro h
  have hlossless := lossless_sampleDeep 123
  have htext : Json.read (Json.write (sampleDeep 123)) = .ok (sampleDeep 123) := by
    refine Json.read_write_of_depth_le hlossless.distinctKeys hlossless.integral ?_
    rw [depth_sampleDeep]
    decide
  have hread : (parseDocument "json" (Json.write (sampleDeep 123))).run {}
      = .ok (⟨none, sampleBody 123⟩, {}) := by
    rw [parseDocument_of_read htext]
    exact documentOf_sampleDeep 123
  have hrun : ((sampleBody 123).desugar .default).run {} = (.ok (sampleBody 123), {}) :=
    desugar_sampleBody 123 {}
  obtain ⟨document', registry', hagain, -⟩ := h _ _ _ _ {} _ _ htext hlossless.integral hread hrun
  -- the written document is one level deeper than the limit
  have hdeep : Json.depthLimit < (writeDocument .empty none (sampleBody 123)).depth := by
    refine Nat.lt_of_not_le fun hle => ?_
    have hlinks := (depth_writeDocument_le.mp hle).2 (sampleLinks 123) List.mem_cons_self
    rw [depth_sampleLinks] at hlinks
    exact absurd hlinks (by decide)
  have hwritten : (writeDocument .empty none (sampleBody 123)).Everywhere Value.Lossless :=
    lossless_writeDocument (lossless_of_documentOf (documentOf_sampleDeep 123) hlossless)
  obtain ⟨error, hrefused, -⟩ :=
    Json.read_write_of_depth_gt hwritten.distinctKeys hwritten.integral hdeep
  have hrejected := parseDocument_of_error hrefused {}
  cases hagain.symm.trans hrejected

end Interchange

end FlowDesugar
