import FlowDesugar.Proofs.Origins
import FlowDesugar.Proofs.RoundTrip

/-!
# The grammar of the interchange format

`IsDocument`, `IsStmt` and `IsExpr` say which values are documents, statements and expressions of
the format. They look at a value through `Fields.get?` only, and only at the fields that the format
names: whatever else an object holds, and in which order, is of no concern to them. They know
nothing of readers either. An optional field is a condition on what is found under its name, if
anything is.

That reading accepts exactly these values goes in two halves, each by an induction of its own:

* `ReadFrom.isExpr` — what was read, in some place and from some registry, is an expression of
  the grammar, by induction over the value;
* `IsExpr.readable` — an expression of the grammar is read, in every place and from every registry,
  by induction over the grammar.
-/

namespace FlowDesugar.Interchange

open Json (Value Fields Path)

/-! ### Names -/

/-- The names of the two kinds of statements. -/
def stmtKinds : List String :=
  ["expr", "return"]

/-- The names of the twelve kinds of expressions. -/
def exprKinds : List String :=
  ["str", "num", "bool", "null", "gstring", "var", "property", "call", "map", "list", "binary",
   "closure"]

/-- The symbols of the thirteen operators. -/
def operatorSymbols : List String :=
  ["+", "-", "*", "/", "%", "==", "!=", "<", ">", "<=", ">=", "&&", "||"]

theorem mem_stmtKinds {name : String} :
    name ∈ stmtKinds ↔ ∃ returns, stmtReturns? name = some returns := by
  constructor
  · intro hmem
    rcases List.mem_cons.mp hmem with rfl | hmem
    · exact ⟨false, rfl⟩
    · obtain rfl := List.mem_singleton.mp hmem
      exact ⟨true, rfl⟩
  · rintro ⟨returns, h⟩
    unfold stmtReturns? at h
    split at h
    · next heq =>
      rw [heq]
      exact List.mem_cons_self
    · split at h
      · next heq =>
        rw [heq]
        exact List.mem_cons_of_mem _ List.mem_cons_self
      · cases h

theorem mem_exprKinds {name : String} :
    name ∈ exprKinds ↔ ∃ kind, Kind.ofName? name = some kind := by
  have hnames : exprKinds = Kind.all.map Kind.name := rfl
  rw [hnames, List.mem_map, ← Option.isSome_iff_exists, Kind.ofName?, List.find?_isSome]
  simp only [beq_iff_eq]

theorem mem_operatorSymbols {symbol : String} :
    symbol ∈ operatorSymbols ↔ ∃ op, Operator.ofSymbol? symbol = some op := by
  have hsymbols : operatorSymbols = Operator.all.map Operator.symbol := rfl
  rw [hsymbols, List.mem_map, ← Option.isSome_iff_exists, Operator.ofSymbol?, List.find?_isSome]
  simp only [beq_iff_eq]

theorem name_of_ofName? {name : String} {kind : Kind} (h : Kind.ofName? name = some kind) :
    kind.name = name := by
  rw [Kind.ofName?] at h
  have hfound := List.find?_some h
  exact beq_iff_eq.mp hfound

/-! ### The grammar -/

/-- The field is there and holds a text. -/
def HasText (fields : Fields) (name : String) : Prop :=
  ∃ text, fields.get? name = some (.string text)

/-- The field, if it is there, is null or holds a text. -/
def MayHoldText (fields : Fields) (name : String) : Prop :=
  ∀ value, fields.get? name = some value → value = .null ∨ ∃ text, value = .string text

/-- The field, if it is there, is null or holds an array of texts. -/
def MayHoldTexts (fields : Fields) (name : String) : Prop :=
  ∀ value, fields.get? name = some value →
    value = .null ∨ ∃ texts : List String, value = .array (texts.map .string)

mutual

/-- The value is an expression of the format. -/
inductive IsExpr : Value → Prop
  | str {fields : Fields} : fields.get? "kind" = some (.string "str") →
    HasText fields "value" →
    IsExpr (.object fields)
  | num {fields : Fields} {number : Number} : fields.get? "kind" = some (.string "num") →
    fields.get? "value" = some (.number number) →
    IsExpr (.object fields)
  | bool {fields : Fields} {truth : Bool} : fields.get? "kind" = some (.string "bool") →
    fields.get? "value" = some (.bool truth) →
    IsExpr (.object fields)
  | null {fields : Fields} : fields.get? "kind" = some (.string "null") →
    IsExpr (.object fields)
  | gstring {fields : Fields} {parts : List Value} :
    fields.get? "kind" = some (.string "gstring") →
    fields.get? "parts" = some (.array parts) →
    (∀ part ∈ parts, (∀ text, part ≠ .string text) → IsExpr part) →
    IsExpr (.object fields)
  | var {fields : Fields} : fields.get? "kind" = some (.string "var") →
    HasText fields "name" →
    IsExpr (.object fields)
  | property {fields : Fields} {target : Value} :
    fields.get? "kind" = some (.string "property") →
    fields.get? "target" = some target → IsExpr target →
    HasText fields "name" →
    IsExpr (.object fields)
  -- a receiver may be null, arguments may not
  | call {fields : Fields} : fields.get? "kind" = some (.string "call") →
    (∀ receiver, fields.get? "receiver" = some receiver → receiver ≠ .null → IsExpr receiver) →
    HasText fields "method" →
    (∀ value, fields.get? "args" = some value → ∃ args, value = .array args) →
    (∀ args, fields.get? "args" = some (.array args) → ∀ arg ∈ args, IsExpr arg) →
    IsExpr (.object fields)
  | map {fields entries : Fields} : fields.get? "kind" = some (.string "map") →
    fields.get? "entries" = some (.object entries) →
    (∀ entry ∈ entries, IsExpr entry.2) →
    IsExpr (.object fields)
  | list {fields : Fields} {items : List Value} : fields.get? "kind" = some (.string "list") →
    fields.get? "items" = some (.array items) →
    (∀ item ∈ items, IsExpr item) →
    IsExpr (.object fields)
  | binary {fields : Fields} {symbol : String} {left right : Value} :
    fields.get? "kind" = some (.string "binary") →
    fields.get? "op" = some (.string symbol) → symbol ∈ operatorSymbols →
    fields.get? "left" = some left → IsExpr left →
    fields.get? "right" = some right → IsExpr right →
    IsExpr (.object fields)
  | closure {fields : Fields} {stmts : List Value} :
    fields.get? "kind" = some (.string "closure") →
    MayHoldTexts fields "params" →
    fields.get? "statements" = some (.array stmts) →
    (∀ stmt ∈ stmts, IsStmt stmt) →
    IsExpr (.object fields)

/-- The value is a statement of the format. -/
inductive IsStmt : Value → Prop
  | stmt {fields : Fields} {kind : String} {expr : Value} :
    MayHoldText fields "label" →
    fields.get? "kind" = some (.string kind) → kind ∈ stmtKinds →
    fields.get? "expr" = some expr → IsExpr expr →
    IsStmt (.object fields)

end

/-- The value is a document of the format. -/
inductive IsDocument : Value → Prop
  | document {fields : Fields} {stmts : List Value} :
    MayHoldText fields "source" →
    fields.get? "statements" = some (.array stmts) →
    (∀ stmt ∈ stmts, IsStmt stmt) →
    IsDocument (.object fields)

/-! ### Fields that may be missing -/

theorem mayHoldText_iff {fields : Fields} {name : String} :
    MayHoldText fields name ↔ ∃ text, OptionalText fields name text := by
  constructor
  · intro h
    cases hget : fields.get? name with
    | none => exact ⟨none, .missing hget⟩
    | some value =>
      rcases h value hget with rfl | ⟨text, rfl⟩
      · exact ⟨none, .null hget⟩
      · exact ⟨some text, .text hget⟩
  · rintro ⟨text, h⟩ value hget
    cases h with
    | missing h => rw [h] at hget; cases hget
    | null h => exact .inl (Option.some.inj (hget.symm.trans h))
    | text h => exact .inr ⟨_, Option.some.inj (hget.symm.trans h)⟩

theorem eq_map_string_of_strings? {items : List Value} {texts : List String}
    (h : strings? items = some texts) : items = texts.map .string := by
  induction items generalizing texts with
  | nil =>
    cases h
    rfl
  | cons item items ih =>
    cases item with
    | string text =>
      rw [strings?, Option.map_eq_some_iff] at h
      obtain ⟨rest, hrest, rfl⟩ := h
      rw [ih hrest, List.map_cons]
    | _ => cases h

theorem mayHoldTexts_iff {fields : Fields} :
    MayHoldTexts fields "params" ↔ ∃ params, Params fields params := by
  constructor
  · intro h
    cases hget : fields.get? "params" with
    | none => exact ⟨[], .missing hget⟩
    | some value =>
      rcases h value hget with rfl | ⟨texts, rfl⟩
      · exact ⟨[], .null hget⟩
      · exact ⟨texts, .names hget (strings?_map_string texts)⟩
  · rintro ⟨params, h⟩ value hget
    cases h with
    | missing h => rw [h] at hget; cases hget
    | null h => exact .inl (Option.some.inj (hget.symm.trans h))
    | names hitems hparams =>
      rw [eq_map_string_of_strings? hparams] at hitems
      exact .inr ⟨params, Option.some.inj (hget.symm.trans hitems)⟩

/-! ### What is read is of the grammar -/

variable {path : Path} {scope : ScopeId} {fields : Fields} {before after : Registry} {index : Nat}
  {values : List Value}

/-- The statements of a closure or a document are of the grammar as soon as what is inside them and
read is. -/
theorem exists_stmts_of_readBody {stmts : List Stmt}
    (hparts : ∀ part e, part.Inside (.object fields) → ReadFrom part e → IsExpr part)
    (h : (readBody path scope fields).run before = .ok (stmts, after)) :
    ∃ values, fields.get? "statements" = some (.array values) ∧ ∀ value ∈ values, IsStmt value := by
  obtain ⟨values, hfield, hstmts⟩ := readBody_eq_ok.mp h
  refine ⟨values, hfield, fun value hmem => ?_⟩
  obtain ⟨stmt, -, hfrom⟩ := (paired_of_readStmts hstmts).forth value hmem
  have hinside : value.Inside (.object fields) :=
    .trans (.item hmem) (Value.inside_of_get? hfield)
  cases hfrom with
  | stmt hlabel hkind hreturns hget hread =>
    have hexpr := hparts _ _ (.trans (Value.inside_of_get? hget) hinside) hread
    exact .stmt (mayHoldText_iff.mpr ⟨_, hlabel⟩) hkind (mem_stmtKinds.mpr ⟨_, hreturns⟩) hget hexpr

/-- **What is read as an expression is one of the grammar.** -/
theorem ReadFrom.isExpr {value : Value} {e : Expr} (h : ReadFrom value e) : IsExpr value := by
  induction value using Value.inductionOnInside generalizing e with
  | value value ih =>
    obtain ⟨path, scope, before, after, hrun⟩ := h
    obtain ⟨fields, loc, noted, kind, rfl, -, hkind, hnode⟩ := readExpr_eq_ok.mp hrun
    obtain ⟨name, hname, hof⟩ := kindOf?_eq_some.mp hkind
    obtain rfl := name_of_ofName? hof
    -- what is found under a name, and read, is of the grammar by induction
    have hfield : ∀ {name value path scope before e after}, Fields.get? fields name = some value →
        (readExpr path scope value).run before = .ok (e, after) → IsExpr value :=
      fun hget hread => ih _ (Value.inside_of_get? hget) ⟨_, _, _, _, hread⟩
    have hitem : ∀ {name items item e}, Fields.get? fields name = some (.array items) →
        item ∈ items → ReadFrom item e → IsExpr item :=
      fun hget hmem => ih _ (.trans (.item hmem) (Value.inside_of_get? hget))
    cases hnode with
    | str hvalue => exact .str hname ⟨_, hvalue⟩
    | num hvalue => exact .num hname hvalue
    | bool hvalue => exact .bool hname hvalue
    | null => exact .null hname
    | gstring hparts =>
      obtain ⟨parts, hget, hchunks⟩ := readParts_eq_ok.mp hparts
      refine .gstring hname hget fun part hmem hnot => ?_
      obtain ⟨chunk, -, hfrom⟩ := (paired_of_readChunks hchunks).forth part hmem
      cases hfrom with
      | text text => exact absurd rfl (hnot text)
      | interpolation hread => exact hitem hget hmem hread
    | var hvalue => exact .var hname ⟨_, hvalue⟩
    | property htarget hvalue =>
      obtain ⟨target, hget, hread⟩ := readField_eq_ok.mp htarget
      exact .property hname hget (hfield hget hread) ⟨_, hvalue⟩
    | call hreceiver hmethod hargs =>
      refine .call hname (fun receiver hget hne => ?_) ⟨_, hmethod⟩ (fun value hget => ?_)
        fun args hget arg hmem => ?_
      -- of the ways in which a receiver is read, only one has a receiver that is not null
      · cases readReceiver_eq_ok.mp hreceiver with
        | missing h => rw [h] at hget; cases hget
        | null h => exact absurd (Option.some.inj (hget.symm.trans h)) hne
        | node h hread =>
          obtain rfl := Option.some.inj (hget.symm.trans h)
          exact hfield hget hread
      · cases readArgs_eq_ok.mp hargs with
        | missing h => rw [h] at hget; cases hget
        | nodes h _ => exact ⟨_, Option.some.inj (hget.symm.trans h)⟩
      · cases readArgs_eq_ok.mp hargs with
        | missing h => rw [h] at hget; cases hget
        | nodes h hexprs =>
          cases hget.symm.trans h
          obtain ⟨e, -, hread⟩ := (paired_of_readExprs hexprs).forth arg hmem
          exact hitem hget hmem hread
    | map hentries =>
      obtain ⟨entries, hget, hvalues⟩ := readEntries_eq_ok.mp hentries
      refine .map hname hget fun entry hmem => ?_
      obtain ⟨_, -, hread⟩ := (paired_of_readValues hvalues).forth entry hmem
      exact ih _ (.trans (.field hmem) (Value.inside_of_get? hget)) hread
    | list hitems =>
      obtain ⟨items, hget, hexprs⟩ := readItems_eq_ok.mp hitems
      refine .list hname hget fun item hmem => ?_
      obtain ⟨e, -, hread⟩ := (paired_of_readExprs hexprs).forth item hmem
      exact hitem hget hmem hread
    | binary hsymbol hop hleft hright =>
      obtain ⟨left, hget, hread⟩ := readField_eq_ok.mp hleft
      obtain ⟨right, hget', hread'⟩ := readField_eq_ok.mp hright
      exact .binary hname hsymbol (mem_operatorSymbols.mpr ⟨_, hop⟩) hget (hfield hget hread) hget'
        (hfield hget' hread')
    | thunk hparams _ hbody =>
      obtain ⟨stmts, hget, hstmts⟩ :=
        exists_stmts_of_readBody (fun part e hpart => ih part hpart) hbody
      exact .closure hname (mayHoldTexts_iff.mpr ⟨_, hparams⟩) hget hstmts
    | closure _ hparams _ hbody =>
      obtain ⟨stmts, hget, hstmts⟩ :=
        exists_stmts_of_readBody (fun part e hpart => ih part hpart) hbody
      exact .closure hname (mayHoldTexts_iff.mpr ⟨_, hparams⟩) hget hstmts

/-! ### What is of the grammar is read -/

/-- The reader has a result, from whatever registry it starts. -/
def Total {α : Type} (reader : Import α) : Prop :=
  ∀ before, ∃ a after, reader.run before = .ok (a, after)

/-- The value is read as an expression, in every place. -/
def Readable (value : Value) : Prop :=
  ∀ path scope, Total (readExpr path scope value)

theorem total_noteLocation (fields : Fields) : Total (noteLocation fields) := by
  intro before
  change ∃ loc after, noteLocation fields before = .ok (loc, after)
  unfold noteLocation
  split
  · exact ⟨_, _, rfl⟩
  · exact ⟨_, _, rfl⟩

theorem total_openScope (scope : ScopeId) : Total (openScope scope) :=
  fun _ => ⟨_, _, rfl⟩

theorem total_readExprs (h : ∀ value ∈ values, Readable value) :
    Total (readExprs path scope index values) := by
  induction values generalizing index with
  | nil => exact fun before => ⟨[], before, rfl⟩
  | cons value values ih =>
    intro before
    obtain ⟨hfirst, hrest⟩ := List.forall_mem_cons.mp h
    obtain ⟨e, middle, he⟩ := hfirst (path.item index) scope before
    obtain ⟨es, after, hes⟩ := ih hrest middle
    exact ⟨e :: es, after, readExprs_cons_eq_ok.mpr ⟨e, es, middle, rfl, he, hes⟩⟩

theorem total_readChunks (h : ∀ value ∈ values, (∀ text, value ≠ .string text) → Readable value) :
    Total (readChunks path scope index values) := by
  induction values generalizing index with
  | nil => exact fun before => ⟨[], before, rfl⟩
  | cons value values ih =>
    intro before
    obtain ⟨hfirst, hrest⟩ := List.forall_mem_cons.mp h
    -- a text is a part as it is, and anything else has to be an expression
    obtain ⟨c, middle, hc⟩ :
        ∃ c middle, ReadChunk (path.item index) scope before value c middle := by
      by_cases htext : ∃ text, value = .string text
      · obtain ⟨text, rfl⟩ := htext
        exact ⟨.text text, before, .text⟩
      · obtain ⟨e, middle, he⟩ :=
          hfirst (fun text heq => htext ⟨text, heq⟩) (path.item index) scope before
        exact ⟨.interpolation e, middle, .interpolation he⟩
    obtain ⟨cs, after, hcs⟩ := ih hrest middle
    exact ⟨c :: cs, after, readChunks_cons_eq_ok.mpr ⟨c, cs, middle, rfl, hc, hcs⟩⟩

theorem total_readValues (h : ∀ field ∈ fields, Readable field.2) :
    Total (readValues path scope fields) := by
  induction fields with
  | nil => exact fun before => ⟨[], before, rfl⟩
  | cons field fields ih =>
    intro before
    obtain ⟨key, value⟩ := field
    obtain ⟨hfirst, hrest⟩ := List.forall_mem_cons.mp h
    obtain ⟨e, middle, he⟩ := hfirst (path.field key) scope before
    obtain ⟨es, after, hes⟩ := ih hrest middle
    exact ⟨⟨key, e⟩ :: es, after, readValues_cons_eq_ok.mpr ⟨e, es, middle, rfl, he, hes⟩⟩

/-- The value is an object that is read as a statement, in every place. -/
def ReadableStmt (value : Value) : Prop :=
  ∃ fields, value = .object fields ∧ ∀ path scope before, ∃ stmt after,
    ReadStmt path scope before fields stmt after

theorem total_readStmts (h : ∀ value ∈ values, ReadableStmt value) :
    Total (readStmts path scope index values) := by
  induction values generalizing index with
  | nil => exact fun before => ⟨[], before, rfl⟩
  | cons value values ih =>
    intro before
    obtain ⟨hfirst, hrest⟩ := List.forall_mem_cons.mp h
    obtain ⟨fields, rfl, hstmt⟩ := hfirst
    obtain ⟨s, middle, hs⟩ := hstmt (path.item index) scope before
    obtain ⟨ss, after, hss⟩ := ih hrest middle
    exact ⟨s :: ss, after, readStmts_cons_eq_ok.mpr ⟨fields, s, ss, middle, rfl, rfl, hs, hss⟩⟩

theorem total_readField {name : String} {value : Value} (hget : fields.get? name = some value)
    (h : Readable value) : Total (readField path scope name fields) := by
  intro before
  obtain ⟨e, after, he⟩ := h (path.field name) scope before
  exact ⟨e, after, readField_eq_ok.mpr ⟨value, hget, he⟩⟩

theorem total_readReceiver
    (h : ∀ receiver, fields.get? "receiver" = some receiver → receiver ≠ .null →
      Readable receiver) :
    Total (readReceiver path scope fields) := by
  intro before
  cases hget : fields.get? "receiver" with
  | none => exact ⟨none, before, readReceiver_eq_ok.mpr (.missing hget)⟩
  | some receiver =>
    by_cases hnull : receiver = .null
    · rw [hnull] at hget
      exact ⟨none, before, readReceiver_eq_ok.mpr (.null hget)⟩
    · obtain ⟨e, after, he⟩ := h receiver hget hnull (path.field "receiver") scope before
      exact ⟨some e, after, readReceiver_eq_ok.mpr (.node hget he)⟩

theorem total_readArgs
    (harray : ∀ value, fields.get? "args" = some value → ∃ args, value = .array args)
    (h : ∀ args, fields.get? "args" = some (.array args) → ∀ arg ∈ args, Readable arg) :
    Total (readArgs path scope fields) := by
  intro before
  cases hget : fields.get? "args" with
  | none => exact ⟨[], before, readArgs_eq_ok.mpr (.missing hget)⟩
  | some value =>
    obtain ⟨args, rfl⟩ := harray value hget
    obtain ⟨es, after, hes⟩ := total_readExprs (h args hget) before
    exact ⟨es, after, readArgs_eq_ok.mpr (.nodes hget hes)⟩

theorem total_readBody (hget : fields.get? "statements" = some (.array values))
    (h : ∀ value ∈ values, ReadableStmt value) : Total (readBody path scope fields) := by
  intro before
  obtain ⟨stmts, after, hstmts⟩ := total_readStmts h before
  exact ⟨stmts, after, readBody_eq_ok.mpr ⟨values, hget, hstmts⟩⟩

/-- A node is read if its kind is one and the fields of that kind are. -/
theorem readable_object (kind : Kind) (hkind : fields.get? "kind" = some (.string kind.name))
    (h : ∀ path scope loc before, ∃ e after, ReadNode path scope fields loc before kind e after) :
    Readable (.object fields) := by
  intro path scope before
  obtain ⟨loc, middle, hloc⟩ := total_noteLocation fields before
  obtain ⟨e, after, hnode⟩ := h path scope loc middle
  have hkind' : kindOf? fields = some kind :=
    kindOf?_eq_some.mpr ⟨kind.name, hkind, ofName?_name kind⟩
  exact ⟨e, after, readExpr_eq_ok.mpr ⟨fields, loc, middle, kind, rfl, hloc, hkind', hnode⟩⟩

mutual

/-- **An expression of the grammar is read**, in every place and from every registry. -/
theorem IsExpr.readable {value : Value} : IsExpr value → Readable value
  | .str hkind ⟨_, hvalue⟩ => readable_object .str hkind fun _ _ _ _ => ⟨_, _, .str hvalue⟩
  | .num hkind hvalue => readable_object .num hkind fun _ _ _ _ => ⟨_, _, .num hvalue⟩
  | .bool hkind hvalue => readable_object .bool hkind fun _ _ _ _ => ⟨_, _, .bool hvalue⟩
  | .null hkind => readable_object .null hkind fun _ _ _ _ => ⟨_, _, .null⟩
  | .gstring hkind hget hparts => readable_object .gstring hkind fun path scope loc before => by
    obtain ⟨chunks, after, hchunks⟩ :=
      total_readChunks (fun part hmem hnot => (hparts part hmem hnot).readable) before
    exact ⟨_, after, .gstring (readParts_eq_ok.mpr ⟨_, hget, hchunks⟩)⟩
  | .var hkind ⟨_, hname⟩ => readable_object .var hkind fun _ _ _ _ => ⟨_, _, .var hname⟩
  | .property hkind hget htarget ⟨_, hname⟩ =>
    readable_object .property hkind fun path scope loc before => by
      obtain ⟨target, after, hread⟩ := total_readField hget htarget.readable before
      exact ⟨_, after, .property hread hname⟩
  | .call hkind hreceiver ⟨_, hmethod⟩ harray hargs =>
    readable_object .call hkind fun path scope loc before => by
      obtain ⟨receiver, middle, hread⟩ :=
        total_readReceiver (fun value hget hne => (hreceiver value hget hne).readable) before
      obtain ⟨args, after, hread'⟩ :=
        total_readArgs harray (fun args hget arg hmem => (hargs args hget arg hmem).readable) middle
      exact ⟨_, after, .call hread hmethod hread'⟩
  | .map hkind hget hentries => readable_object .map hkind fun path scope loc before => by
    obtain ⟨entries, after, hvalues⟩ :=
      total_readValues (fun entry hmem => (hentries entry hmem).readable) before
    exact ⟨_, after, .map (readEntries_eq_ok.mpr ⟨_, hget, hvalues⟩)⟩
  | .list hkind hget hitems => readable_object .list hkind fun path scope loc before => by
    obtain ⟨items, after, hexprs⟩ :=
      total_readExprs (fun item hmem => (hitems item hmem).readable) before
    exact ⟨_, after, .list (readItems_eq_ok.mpr ⟨_, hget, hexprs⟩)⟩
  | .binary hkind hsymbol hop hget hleft hget' hright =>
    readable_object .binary hkind fun path scope loc before => by
      obtain ⟨op, hof⟩ := mem_operatorSymbols.mp hop
      obtain ⟨left, middle, hread⟩ := total_readField hget hleft.readable before
      obtain ⟨right, after, hread'⟩ := total_readField hget' hright.readable middle
      exact ⟨_, after, .binary hsymbol hof hread hread'⟩
  | .closure hkind hparams hget hstmts =>
    readable_object .closure hkind fun path scope loc before => by
      obtain ⟨params, hread⟩ := mayHoldTexts_iff.mp hparams
      obtain ⟨inner, opened, hopen⟩ := total_openScope scope before
      obtain ⟨stmts, after, hbody⟩ :=
        total_readBody hget (fun stmt hmem => (hstmts stmt hmem).readable) opened
      -- without parameters it is a thunk
      by_cases hempty : params = []
      · rw [hempty] at hread
        exact ⟨_, after, .thunk hread hopen hbody⟩
      · exact ⟨_, after, .closure hempty hread hopen hbody⟩

/-- **A statement of the grammar is read**, in every place and from every registry. -/
theorem IsStmt.readable {value : Value} : IsStmt value → ReadableStmt value
  | .stmt hlabel hkind hmem hget hexpr => by
    refine ⟨_, rfl, fun path scope before => ?_⟩
    obtain ⟨label, htext⟩ := mayHoldText_iff.mp hlabel
    obtain ⟨returns, hreturns⟩ := mem_stmtKinds.mp hmem
    obtain ⟨loc, middle, hloc⟩ := total_noteLocation _ before
    obtain ⟨e, after, hread⟩ := total_readField hget hexpr.readable middle
    exact ⟨⟨returns, loc, label, e⟩, after, htext, ⟨_, hkind, hreturns⟩, middle, hloc, hread⟩

end

/-! ### Fields that the format does not name -/

/-- The fields that the format names for an expression of some kind. -/
def exprNames : List String :=
  ["kind", "value", "parts", "name", "target", "receiver", "method", "args", "entries", "items",
   "op", "left", "right", "params", "statements"]

/-- The fields that the format names for a statement. -/
def stmtNames : List String :=
  ["label", "kind", "expr"]

/-- The fields that the format names for a document. -/
def documentNames : List String :=
  ["source", "statements"]

/-- Two objects hold the same under each of the names, or both nothing. -/
def Agree (names : List String) (fields fields' : Fields) : Prop :=
  ∀ name ∈ names, fields.get? name = fields'.get? name

theorem Agree.symm {names : List String} {fields fields' : Fields}
    (h : Agree names fields fields') : Agree names fields' fields :=
  fun name hmem => (h name hmem).symm

section

variable {fields' : Fields}

theorem IsExpr.of_agree (h : Agree exprNames fields fields') (hexpr : IsExpr (.object fields)) :
    IsExpr (.object fields') := by
  have hsame : ∀ {name found}, name ∈ exprNames → Fields.get? fields name = found →
      Fields.get? fields' name = found := by
    intro name found hmem hget
    rw [← h name hmem]
    exact hget
  -- where a field may be missing, the grammar asks something of what is found there
  have hback : ∀ {name found}, name ∈ exprNames → Fields.get? fields' name = found →
      Fields.get? fields name = found := by
    intro name found hmem hget
    rw [h name hmem]
    exact hget
  cases hexpr with
  | str hkind hvalue => exact .str (hsame (by decide) hkind) (hvalue.imp fun _ => hsame (by decide))
  | num hkind hvalue => exact .num (hsame (by decide) hkind) (hsame (by decide) hvalue)
  | bool hkind hvalue => exact .bool (hsame (by decide) hkind) (hsame (by decide) hvalue)
  | null hkind => exact .null (hsame (by decide) hkind)
  | gstring hkind hget hparts =>
    exact .gstring (hsame (by decide) hkind) (hsame (by decide) hget) hparts
  | var hkind hname => exact .var (hsame (by decide) hkind) (hname.imp fun _ => hsame (by decide))
  | property hkind hget htarget hname =>
    exact .property (hsame (by decide) hkind) (hsame (by decide) hget) htarget
      (hname.imp fun _ => hsame (by decide))
  | call hkind hreceiver hmethod harray hargs =>
    exact .call (hsame (by decide) hkind) (fun _ hget => hreceiver _ (hback (by decide) hget))
      (hmethod.imp fun _ => hsame (by decide)) (fun _ hget => harray _ (hback (by decide) hget))
      fun _ hget => hargs _ (hback (by decide) hget)
  | map hkind hget hentries =>
    exact .map (hsame (by decide) hkind) (hsame (by decide) hget) hentries
  | list hkind hget hitems => exact .list (hsame (by decide) hkind) (hsame (by decide) hget) hitems
  | binary hkind hsymbol hop hget hleft hget' hright =>
    exact .binary (hsame (by decide) hkind) (hsame (by decide) hsymbol) hop
      (hsame (by decide) hget) hleft (hsame (by decide) hget') hright
  | closure hkind hparams hget hstmts =>
    exact .closure (hsame (by decide) hkind) (fun _ hget => hparams _ (hback (by decide) hget))
      (hsame (by decide) hget) hstmts

theorem MayHoldText.of_agree {names : List String} {name : String} (h : Agree names fields fields')
    (hmem : name ∈ names) (htext : MayHoldText fields name) : MayHoldText fields' name := by
  intro value hget
  rw [← h name hmem] at hget
  exact htext value hget

theorem IsStmt.of_agree (h : Agree stmtNames fields fields') (hstmt : IsStmt (.object fields)) :
    IsStmt (.object fields') := by
  cases hstmt with
  | stmt hlabel hkind hmem hget hexpr =>
    rw [h "kind" (by decide)] at hkind
    rw [h "expr" (by decide)] at hget
    exact .stmt (hlabel.of_agree h (by decide)) hkind hmem hget hexpr

theorem IsDocument.of_agree (h : Agree documentNames fields fields')
    (hdocument : IsDocument (.object fields)) : IsDocument (.object fields') := by
  cases hdocument with
  | document hsource hget hstmts =>
    rw [h "statements" (by decide)] at hget
    exact .document (hsource.of_agree h (by decide)) hget hstmts

end

/-! ### Documents -/

/-- **Reading accepts exactly the grammar**, whatever was noted before. In the grammar an object
counts by the fields that the format names for its place, so that others can be there or not. -/
theorem documentOf_accepts_iff (value : Value) (before : Registry) :
    ((∃ document after, (documentOf value).run before = .ok (document, after)) ↔
      IsDocument value) ∧
    ∀ fields fields' : Fields,
      (Agree documentNames fields fields' →
        (IsDocument (.object fields) ↔ IsDocument (.object fields'))) ∧
      (Agree stmtNames fields fields' → (IsStmt (.object fields) ↔ IsStmt (.object fields'))) ∧
      (Agree exprNames fields fields' → (IsExpr (.object fields) ↔ IsExpr (.object fields'))) := by
  refine ⟨⟨?_, ?_⟩, fun fields fields' => ⟨fun h => ?_, fun h => ?_, fun h => ?_⟩⟩
  -- what is read is of the grammar, by induction over the value
  · rintro ⟨document, after, hrun⟩
    obtain ⟨fields, stmts, rfl, hsource, -, hbody⟩ := documentOf_eq_ok.mp hrun
    obtain ⟨values, hget, hstmts⟩ :=
      exists_stmts_of_readBody (fun part e _ hread => hread.isExpr) hbody
    exact .document (mayHoldText_iff.mpr ⟨_, hsource⟩) hget hstmts
  -- what is of the grammar is read, by induction over its derivation
  · rintro ⟨hsource, hget, hstmts⟩
    obtain ⟨source, htext⟩ := mayHoldText_iff.mp hsource
    obtain ⟨stmts, after, hbody⟩ :=
      total_readBody hget (fun stmt hmem => (hstmts stmt hmem).readable) before
    exact ⟨⟨source, ⟨Scopes.root, stmts⟩⟩, after,
      documentOf_eq_ok.mpr ⟨_, stmts, rfl, htext, rfl, hbody⟩⟩
  · exact ⟨.of_agree h, .of_agree h.symm⟩
  · exact ⟨.of_agree h, .of_agree h.symm⟩
  · exact ⟨.of_agree h, .of_agree h.symm⟩

/-- A script that calls a function, with more fields on the call. -/
def sampleCall (more : Fields) : Value :=
  .object [("statements", .array [.object [("kind", .string "expr"),
    ("expr", .object (("kind", .string "call") :: ("method", .string "foo") :: more))]])]

/-- A receiver may be null where arguments may not. -/
theorem documentOf_accepts_iff_null :
    IsDocument (sampleCall [("receiver", .null), ("line", .null)]) ∧
      ¬ IsDocument (sampleCall [("args", .null)]) := by
  refine ⟨(documentOf_accepts_iff _ {}).1.mp ⟨_, _, rfl⟩, fun h => ?_⟩
  obtain ⟨_, _, hrun⟩ := (documentOf_accepts_iff _ {}).1.mpr h
  cases hrun

end FlowDesugar.Interchange
