import FlowDesugar.Interchange.Import
import FlowDesugar.Proofs.Children
import FlowDesugar.Proofs.Threaded

/-!
# What reading a node asks for

The readers of the interchange format search the fields of an object and read what they find. Here
each of them is described by what it finds: `Interchange.readExpr_eq_ok` says when a node is read as
an expression, with one case of `Interchange.ReadNode` for each kind of node, and
`Interchange.readStmts_cons_eq_ok` when a statement is. Both hold in both directions, so that they
serve to read a document that was written and to look into one that was read.

The first such fact is `Interchange.ReadIn.children`: the children of an expression that was read
were read themselves, one after another, in the scope of the expression or in the one that it opens.
What holds of a node that was read therefore holds of every node of its tree
(`Interchange.WasRead.children`).
-/

namespace FlowDesugar

/-! ### Running a reader -/

namespace Import

variable {α β : Type} {x : Import α} {f : α → Import β} {before after : Registry}

theorem run_pure_eq_ok {a b : α} :
    (pure a : Import α).run before = .ok (b, after) ↔ b = a ∧ after = before := by
  change Except.ok (a, before) = .ok (b, after) ↔ _
  rw [Except.ok.injEq, Prod.mk.injEq, eq_comm, eq_comm (a := before)]

/-- A reader of two steps has a result only if both steps have one. -/
theorem run_bind_eq_ok {b : β} :
    (x >>= f).run before = .ok (b, after) ↔
      ∃ a middle, x.run before = .ok (a, middle) ∧ (f a).run middle = .ok (b, after) := by
  rw [StateT.run_bind]
  cases x.run before with
  | error error => exact ⟨nofun, nofun⟩
  | ok p =>
    constructor
    · exact fun h => ⟨p.1, p.2, rfl, h⟩
    · rintro ⟨a, middle, hx, hf⟩
      cases hx
      exact hf

/-- The result of a reader, put into a larger one. -/
theorem run_map_eq_ok {g : α → β} {b : β} :
    (x >>= fun a => pure (g a)).run before = .ok (b, after) ↔
      ∃ a, x.run before = .ok (a, after) ∧ b = g a := by
  rw [run_bind_eq_ok]
  constructor
  · rintro ⟨a, middle, hx, h⟩
    obtain ⟨rfl, rfl⟩ := run_pure_eq_ok.mp h
    exact ⟨a, hx, rfl⟩
  · rintro ⟨a, hx, rfl⟩
    exact ⟨a, after, hx, rfl⟩

/-- The results of two readers, one after another, put into a larger one. -/
theorem run_map₂_eq_ok {γ : Type} {y : Import β} {g : α → β → γ} {c : γ} :
    (x >>= fun a => y >>= fun b => pure (g a b)).run before = .ok (c, after) ↔
      ∃ a b middle, c = g a b ∧ x.run before = .ok (a, middle) ∧ y.run middle = .ok (b, after) := by
  rw [run_bind_eq_ok]
  constructor
  · rintro ⟨a, middle, hx, h⟩
    obtain ⟨b, hy, rfl⟩ := run_map_eq_ok.mp h
    exact ⟨a, b, middle, rfl, hx, hy⟩
  · rintro ⟨a, b, middle, rfl, hx, hy⟩
    exact ⟨a, middle, hx, run_map_eq_ok.mpr ⟨b, hy, rfl⟩⟩

end Import

namespace Interchange

open Json (Value Fields Path)

variable {path : Path} {scope : ScopeId} {fields : Fields} {before after : Registry}

/-! ### Fields -/

/-- A field that has to be there and to hold a value of one shape, `wrap a` for some `a`. -/
private theorem field_bind_eq_ok {α : Type} {name : String} {wrap : α → Value}
    {view : Value → Import α} {a : α}
    (hview : ∀ value, (view value).run before = .ok (a, after) ↔ value = wrap a ∧ after = before) :
    (field path name fields >>= view).run before = .ok (a, after) ↔
      Fields.get? fields name = some (wrap a) ∧ after = before := by
  unfold field
  cases Fields.get? fields name with
  | none => exact ⟨nofun, nofun⟩
  | some value =>
    rw [Option.some.injEq]
    exact hview value

theorem stringField_eq_ok {name value : String} :
    (stringField path name fields).run before = .ok (value, after) ↔
      Fields.get? fields name = some (.string value) ∧ after = before := by
  refine field_bind_eq_ok fun found => ?_
  cases found with
  | string text =>
    refine Import.run_pure_eq_ok.trans ?_
    rw [Value.string.injEq, eq_comm]
  | _ => exact ⟨nofun, nofun⟩

theorem numberField_eq_ok {name : String} {value : Number} :
    (numberField path name fields).run before = .ok (value, after) ↔
      Fields.get? fields name = some (.number value) ∧ after = before := by
  refine field_bind_eq_ok fun found => ?_
  cases found with
  | number number =>
    refine Import.run_pure_eq_ok.trans ?_
    rw [Value.number.injEq, eq_comm]
  | _ => exact ⟨nofun, nofun⟩

theorem boolField_eq_ok {name : String} {value : Bool} :
    (boolField path name fields).run before = .ok (value, after) ↔
      Fields.get? fields name = some (.bool value) ∧ after = before := by
  refine field_bind_eq_ok fun found => ?_
  cases found with
  | bool b =>
    refine Import.run_pure_eq_ok.trans ?_
    rw [Value.bool.injEq, eq_comm]
  | _ => exact ⟨nofun, nofun⟩

/-- The text that an optional field holds: none if it is missing or null. -/
inductive OptionalText (fields : Fields) (name : String) : Option String → Prop
  | missing : Fields.get? fields name = none → OptionalText fields name none
  | null : Fields.get? fields name = some .null → OptionalText fields name none
  | text {value : String} : Fields.get? fields name = some (.string value) →
    OptionalText fields name (some value)

theorem optionalString_eq_ok {name : String} {value : Option String} :
    (optionalString path name fields).run before = .ok (value, after) ↔
      OptionalText fields name value ∧ after = before := by
  unfold optionalString
  constructor
  · intro h
    split at h
    · next hnone =>
      obtain ⟨rfl, rfl⟩ := Import.run_pure_eq_ok.mp h
      exact ⟨.missing hnone, rfl⟩
    · next hnull =>
      obtain ⟨rfl, rfl⟩ := Import.run_pure_eq_ok.mp h
      exact ⟨.null hnull, rfl⟩
    · next text htext =>
      obtain ⟨rfl, rfl⟩ := Import.run_pure_eq_ok.mp h
      exact ⟨.text htext, rfl⟩
    · cases h
  · rintro ⟨h, rfl⟩
    cases h with
    | missing h => rw [h]; rfl
    | null h => rw [h]; rfl
    | text h => rw [h]; rfl

theorem operatorField_eq_ok {op : Operator} :
    (operatorField path fields).run before = .ok (op, after) ↔
      (∃ symbol, Fields.get? fields "op" = some (.string symbol) ∧
        Operator.ofSymbol? symbol = some op) ∧ after = before := by
  unfold operatorField
  rw [Import.run_bind_eq_ok]
  constructor
  · rintro ⟨symbol, middle, hrun, h⟩
    obtain ⟨hsymbol, rfl⟩ := stringField_eq_ok.mp hrun
    cases hop : Operator.ofSymbol? symbol with
    | none => rw [hop] at h; cases h
    | some op' =>
      rw [hop] at h
      obtain ⟨rfl, rfl⟩ := Import.run_pure_eq_ok.mp h
      exact ⟨⟨symbol, hsymbol, hop⟩, rfl⟩
  · rintro ⟨⟨symbol, hsymbol, hop⟩, rfl⟩
    refine ⟨symbol, after, stringField_eq_ok.mpr ⟨hsymbol, rfl⟩, ?_⟩
    rw [hop]
    rfl

/-- The parameters that a closure names: none if the field is missing or null. -/
inductive Params (fields : Fields) : List String → Prop
  | missing : Fields.get? fields "params" = none → Params fields []
  | null : Fields.get? fields "params" = some .null → Params fields []
  | names {items : List Value} {params : List String} :
    Fields.get? fields "params" = some (.array items) → strings? items = some params →
    Params fields params

theorem paramsField_eq_ok {params : List String} :
    (paramsField path fields).run before = .ok (params, after) ↔
      Params fields params ∧ after = before := by
  unfold paramsField
  constructor
  · intro h
    split at h
    · next hnone =>
      obtain ⟨rfl, rfl⟩ := Import.run_pure_eq_ok.mp h
      exact ⟨.missing hnone, rfl⟩
    · next hnull =>
      obtain ⟨rfl, rfl⟩ := Import.run_pure_eq_ok.mp h
      exact ⟨.null hnull, rfl⟩
    · next items hitems =>
      split at h
      · next params' hparams =>
        obtain ⟨rfl, rfl⟩ := Import.run_pure_eq_ok.mp h
        exact ⟨.names hitems hparams, rfl⟩
      · cases h
    · cases h
  · rintro ⟨h, rfl⟩
    cases h with
    | missing h => rw [h]; rfl
    | null h => rw [h]; rfl
    | names hitems hparams =>
      rw [hitems]
      simp only [hparams]
      rfl

/-! ### Fields that hold nodes -/

/-- A reader that goes through the fields in search of a name reads what is found under it. -/
theorem search_eq {α : Type} {name : String} {absent : Import α}
    {present : Value → Import α} {r : Fields → Import α} (hnil : r [] = absent)
    (hcons : ∀ key value fields,
      r ((key, value) :: fields) = if key = name then present value else r fields)
    (fields : Fields) : r fields = (Fields.get? fields name).elim absent present := by
  induction fields with
  | nil => exact hnil
  | cons entry fields ih =>
    obtain ⟨key, value⟩ := entry
    rw [hcons, Fields.get?, ih]
    by_cases hkey : key = name
    · rw [if_pos hkey, if_pos hkey]
      rfl
    · rw [if_neg hkey, if_neg hkey]

theorem readField_eq_ok {name : String} {e : Expr} :
    (readField path scope name fields).run before = .ok (e, after) ↔
      ∃ value, Fields.get? fields name = some value ∧
        (readExpr (path.field name) scope value).run before = .ok (e, after) := by
  rw [search_eq (r := readField path scope name) rfl fun key value fields => by rw [readField]]
  cases Fields.get? fields name with
  | none => exact ⟨nofun, nofun⟩
  | some value =>
    exact ⟨fun h => ⟨value, rfl, h⟩, fun ⟨_, hvalue, h⟩ => Option.some.inj hvalue ▸ h⟩

/-- The receiver that a call names: none if the field is missing or null. -/
inductive ReadReceiver (path : Path) (scope : ScopeId) (fields : Fields) (before : Registry) :
    Option Expr → Registry → Prop
  | missing : Fields.get? fields "receiver" = none →
    ReadReceiver path scope fields before none before
  | null : Fields.get? fields "receiver" = some .null →
    ReadReceiver path scope fields before none before
  | node {value : Value} {receiver : Expr} {after : Registry} :
    Fields.get? fields "receiver" = some value →
    (readExpr (path.field "receiver") scope value).run before = .ok (receiver, after) →
    ReadReceiver path scope fields before (some receiver) after

theorem readReceiver_eq_ok {receiver : Option Expr} :
    (readReceiver path scope fields).run before = .ok (receiver, after) ↔
      ReadReceiver path scope fields before receiver after := by
  rw [search_eq (r := readReceiver path scope) rfl fun key value fields =>
    readReceiver.eq_def path scope ((key, value) :: fields)]
  constructor
  · intro h
    cases hfield : Fields.get? fields "receiver" with
    | none =>
      rw [hfield] at h
      obtain ⟨rfl, rfl⟩ := Import.run_pure_eq_ok.mp h
      exact .missing hfield
    | some value =>
      simp only [hfield, Option.elim_some] at h
      split at h
      · obtain ⟨rfl, rfl⟩ := Import.run_pure_eq_ok.mp h
        exact .null hfield
      · obtain ⟨e, middle, hread, h⟩ := Import.run_bind_eq_ok.mp h
        obtain ⟨rfl, rfl⟩ := Import.run_pure_eq_ok.mp h
        exact .node hfield hread
  · intro h
    cases h with
    | missing hfield => rw [hfield]; rfl
    | null hfield => rw [hfield]; rfl
    | @node value e _ hfield hread =>
      simp only [hfield, Option.elim_some]
      split
      · -- null is not read as an expression
        cases hread
      · exact Import.run_bind_eq_ok.mpr ⟨e, after, hread, rfl⟩

/-- A reader that asks for an array under a name. -/
private theorem array_eq_ok {α : Type} {name : String} {missing other : ImportError}
    {readAll : List Value → Import α} {r : Fields → Import α} (hnil : r [] = throw missing)
    (hcons : ∀ key value fields, r ((key, value) :: fields) =
      if key = name then
        match value with
        | .array values => readAll values
        | _ => throw other
      else r fields) {a : α} :
    (r fields).run before = .ok (a, after) ↔
      ∃ values, Fields.get? fields name = some (.array values) ∧
        (readAll values).run before = .ok (a, after) := by
  rw [search_eq hnil hcons]
  cases Fields.get? fields name with
  | none => exact ⟨nofun, nofun⟩
  | some value =>
    cases value with
    | array values =>
      exact ⟨fun h => ⟨values, rfl, h⟩, fun ⟨_, hvalue, h⟩ => by cases hvalue; exact h⟩
    | _ => exact ⟨nofun, nofun⟩

theorem readItems_eq_ok {items : List Expr} :
    (readItems path scope fields).run before = .ok (items, after) ↔
      ∃ values, Fields.get? fields "items" = some (.array values) ∧
        (readExprs (path.field "items") scope 0 values).run before = .ok (items, after) :=
  array_eq_ok rfl fun key value fields => readItems.eq_def path scope ((key, value) :: fields)

theorem readParts_eq_ok {chunks : List Chunk} :
    (readParts path scope fields).run before = .ok (chunks, after) ↔
      ∃ values, Fields.get? fields "parts" = some (.array values) ∧
        (readChunks (path.field "parts") scope 0 values).run before = .ok (chunks, after) :=
  array_eq_ok rfl fun key value fields => readParts.eq_def path scope ((key, value) :: fields)

theorem readBody_eq_ok {stmts : List Stmt} :
    (readBody path scope fields).run before = .ok (stmts, after) ↔
      ∃ values, Fields.get? fields "statements" = some (.array values) ∧
        (readStmts (path.field "statements") scope 0 values).run before = .ok (stmts, after) :=
  array_eq_ok rfl fun key value fields => readBody.eq_def path scope ((key, value) :: fields)

/-- The arguments that a call has: none if the field is missing. -/
inductive ReadArgs (path : Path) (scope : ScopeId) (fields : Fields) (before : Registry) :
    List Expr → Registry → Prop
  | missing : Fields.get? fields "args" = none → ReadArgs path scope fields before [] before
  | nodes {values : List Value} {args : List Expr} {after : Registry} :
    Fields.get? fields "args" = some (.array values) →
    (readExprs (path.field "args") scope 0 values).run before = .ok (args, after) →
    ReadArgs path scope fields before args after

theorem readArgs_eq_ok {args : List Expr} :
    (readArgs path scope fields).run before = .ok (args, after) ↔
      ReadArgs path scope fields before args after := by
  rw [search_eq (r := readArgs path scope) rfl fun key value fields =>
    readArgs.eq_def path scope ((key, value) :: fields)]
  constructor
  · intro h
    cases hfield : Fields.get? fields "args" with
    | none =>
      rw [hfield] at h
      obtain ⟨rfl, rfl⟩ := Import.run_pure_eq_ok.mp h
      exact .missing hfield
    | some value =>
      simp only [hfield, Option.elim_some] at h
      split at h
      · exact .nodes hfield h
      · cases h
  · intro h
    cases h with
    | missing hfield => rw [hfield]; rfl
    | nodes hfield hread =>
      rw [hfield]
      exact hread

theorem readEntries_eq_ok {entries : List Entry} :
    (readEntries path scope fields).run before = .ok (entries, after) ↔
      ∃ values, Fields.get? fields "entries" = some (.object values) ∧
        (readValues (path.field "entries") scope values).run before = .ok (entries, after) := by
  rw [search_eq (r := readEntries path scope) rfl fun key value fields =>
    readEntries.eq_def path scope ((key, value) :: fields)]
  cases Fields.get? fields "entries" with
  | none => exact ⟨nofun, nofun⟩
  | some value =>
    cases value with
    | object values =>
      exact ⟨fun h => ⟨values, rfl, h⟩, fun ⟨_, hvalue, h⟩ => by cases hvalue; exact h⟩
    | _ => exact ⟨nofun, nofun⟩

/-! ### Nodes -/

/-- The kind that a node names. -/
def kindOf? (fields : Fields) : Option Kind :=
  (Fields.get? fields "kind").bind fun value => value.string?.bind Kind.ofName?

theorem kindOf?_eq_some {kind : Kind} :
    kindOf? fields = some kind ↔
      ∃ name, Fields.get? fields "kind" = some (.string name) ∧ Kind.ofName? name = some kind := by
  unfold kindOf?
  cases Fields.get? fields "kind" with
  | none => exact ⟨nofun, nofun⟩
  | some value =>
    cases value with
    | string name => exact ⟨fun h => ⟨name, rfl, h⟩, fun ⟨_, hname, h⟩ => by cases hname; exact h⟩
    | _ => exact ⟨nofun, nofun⟩

/-- What the fields of a node of a kind are read as, once the node has its handle `loc`. A closure
opens its scope after its parameters and before its statements are read; it is a thunk if it has no
parameters. -/
inductive ReadNode (path : Path) (scope : ScopeId) (fields : Fields) (loc : Handle)
    (before : Registry) : Kind → Expr → Registry → Prop
  | str {value : String} : Fields.get? fields "value" = some (.string value) →
    ReadNode path scope fields loc before .str (.literal loc (.text value)) before
  | num {value : Number} : Fields.get? fields "value" = some (.number value) →
    ReadNode path scope fields loc before .num (.literal loc (.number value)) before
  | bool {value : Bool} : Fields.get? fields "value" = some (.bool value) →
    ReadNode path scope fields loc before .bool (.literal loc (.bool value)) before
  | null : ReadNode path scope fields loc before .null (.literal loc .null) before
  | gstring {chunks : List Chunk} {after : Registry} :
    (readParts path scope fields).run before = .ok (chunks, after) →
    ReadNode path scope fields loc before .gstring (.gstring loc chunks) after
  | var {name : String} : Fields.get? fields "name" = some (.string name) →
    ReadNode path scope fields loc before .var (.var loc name) before
  | property {target : Expr} {name : String} {after : Registry} :
    (readField path scope "target" fields).run before = .ok (target, after) →
    Fields.get? fields "name" = some (.string name) →
    ReadNode path scope fields loc before .property (.property loc target name) after
  | call {receiver : Option Expr} {method : String} {args : List Expr} {middle after : Registry} :
    (readReceiver path scope fields).run before = .ok (receiver, middle) →
    Fields.get? fields "method" = some (.string method) →
    (readArgs path scope fields).run middle = .ok (args, after) →
    ReadNode path scope fields loc before .call (.call loc receiver method args) after
  | map {entries : List Entry} {after : Registry} :
    (readEntries path scope fields).run before = .ok (entries, after) →
    ReadNode path scope fields loc before .map (.map loc entries) after
  | list {items : List Expr} {after : Registry} :
    (readItems path scope fields).run before = .ok (items, after) →
    ReadNode path scope fields loc before .list (.list loc items) after
  | binary {symbol : String} {op : Operator} {left right : Expr} {middle after : Registry} :
    Fields.get? fields "op" = some (.string symbol) → Operator.ofSymbol? symbol = some op →
    (readField path scope "left" fields).run before = .ok (left, middle) →
    (readField path scope "right" fields).run middle = .ok (right, after) →
    ReadNode path scope fields loc before .binary (.binary loc op left right) after
  | thunk {inner : ScopeId} {opened : Registry} {stmts : List Stmt} {after : Registry} :
    Params fields [] → (openScope scope).run before = .ok (inner, opened) →
    (readBody path inner fields).run opened = .ok (stmts, after) →
    ReadNode path scope fields loc before .closure (.thunk loc ⟨inner, stmts⟩) after
  | closure {params : List String} {inner : ScopeId} {opened : Registry} {stmts : List Stmt}
    {after : Registry} : params ≠ [] →
    Params fields params → (openScope scope).run before = .ok (inner, opened) →
    (readBody path inner fields).run opened = .ok (stmts, after) →
    ReadNode path scope fields loc before .closure (.closure loc params ⟨inner, stmts⟩) after

/-- Reads the fields of a node of a kind, once the node has its handle `loc`. -/
def readKind (path : Path) (scope : ScopeId) (fields : Fields) (loc : Handle) : Kind → Import Expr
  | .str => return .literal loc (.text (← stringField path "value" fields))
  | .num => return .literal loc (.number (← numberField path "value" fields))
  | .bool => return .literal loc (.bool (← boolField path "value" fields))
  | .null => return .literal loc .null
  | .gstring => return .gstring loc (← readParts path scope fields)
  | .var => return .var loc (← stringField path "name" fields)
  | .property => do
    let target ← readField path scope "target" fields
    return .property loc target (← stringField path "name" fields)
  | .call => do
    let receiver ← readReceiver path scope fields
    let method ← stringField path "method" fields
    let args ← readArgs path scope fields
    return .call loc receiver method args
  | .map => return .map loc (← readEntries path scope fields)
  | .list => return .list loc (← readItems path scope fields)
  | .binary => do
    let op ← operatorField path fields
    let left ← readField path scope "left" fields
    let right ← readField path scope "right" fields
    return .binary loc op left right
  | .closure => do
    let params ← paramsField path fields
    let inner ← openScope scope
    let stmts ← readBody path inner fields
    if params.isEmpty then return .thunk loc ⟨inner, stmts⟩
    else return .closure loc params ⟨inner, stmts⟩

/-- Reading a node notes its location, looks at its kind and then reads the fields of that kind. -/
theorem readExpr_object (path : Path) (scope : ScopeId) (fields : Fields) :
    readExpr path scope (.object fields) = (do
      let loc ← noteLocation fields
      let name ← stringField path "kind" fields
      match Kind.ofName? name with
      | none => throw (.unknownExpression path name)
      | some kind => readKind path scope fields loc kind) := by
  rw [readExpr]
  -- the two agree up to where the kind is looked at, and then kind by kind
  refine bind_congr fun loc => bind_congr fun name => ?_
  cases Kind.ofName? name with
  | none => rfl
  | some kind => cases kind <;> rfl

/-- A closure without parameters is read as a thunk, and any other as a closure. -/
theorem readClosure_eq_ok {loc : Handle} {e : Expr} :
    (readKind path scope fields loc .closure).run before = .ok (e, after) ↔
      ReadNode path scope fields loc before .closure e after := by
  refine Import.run_bind_eq_ok.trans ⟨?_, ?_⟩
  · rintro ⟨params, _, hrun, hrest⟩
    obtain ⟨hparams, rfl⟩ := paramsField_eq_ok.mp hrun
    obtain ⟨inner, opened, hopen, hbody⟩ := Import.run_bind_eq_ok.mp hrest
    obtain ⟨stmts, _, hstmts, hresult⟩ := Import.run_bind_eq_ok.mp hbody
    cases params with
    | nil =>
      obtain ⟨rfl, rfl⟩ := Import.run_pure_eq_ok.mp hresult
      exact .thunk hparams hopen hstmts
    | cons param params =>
      obtain ⟨rfl, rfl⟩ := Import.run_pure_eq_ok.mp hresult
      exact .closure (List.cons_ne_nil _ _) hparams hopen hstmts
  · intro hnode
    cases hnode with
    | thunk hparams hopen hstmts =>
      refine ⟨_, _, paramsField_eq_ok.mpr ⟨hparams, rfl⟩, Import.run_bind_eq_ok.mpr ?_⟩
      exact ⟨_, _, hopen, Import.run_bind_eq_ok.mpr ⟨_, _, hstmts, rfl⟩⟩
    | closure hne hparams hopen hstmts =>
      refine ⟨_, _, paramsField_eq_ok.mpr ⟨hparams, rfl⟩, Import.run_bind_eq_ok.mpr ?_⟩
      refine ⟨_, _, hopen, Import.run_bind_eq_ok.mpr ⟨_, _, hstmts, ?_⟩⟩
      rw [if_neg (by rwa [List.isEmpty_iff])]
      rfl

/-- The fields of a node are read exactly as `ReadNode` says, kind by kind. -/
theorem readKind_eq_ok {loc : Handle} {kind : Kind} {e : Expr} :
    (readKind path scope fields loc kind).run before = .ok (e, after) ↔
      ReadNode path scope fields loc before kind e after := by
  cases kind with
  | str =>
    refine Import.run_map_eq_ok.trans ⟨?_, ?_⟩
    · rintro ⟨value, hrun, rfl⟩
      obtain ⟨hvalue, rfl⟩ := stringField_eq_ok.mp hrun
      exact .str hvalue
    · intro hnode
      cases hnode with
      | str hvalue => exact ⟨_, stringField_eq_ok.mpr ⟨hvalue, rfl⟩, rfl⟩
  | num =>
    refine Import.run_map_eq_ok.trans ⟨?_, ?_⟩
    · rintro ⟨value, hrun, rfl⟩
      obtain ⟨hvalue, rfl⟩ := numberField_eq_ok.mp hrun
      exact .num hvalue
    · intro hnode
      cases hnode with
      | num hvalue => exact ⟨_, numberField_eq_ok.mpr ⟨hvalue, rfl⟩, rfl⟩
  | bool =>
    refine Import.run_map_eq_ok.trans ⟨?_, ?_⟩
    · rintro ⟨value, hrun, rfl⟩
      obtain ⟨hvalue, rfl⟩ := boolField_eq_ok.mp hrun
      exact .bool hvalue
    · intro hnode
      cases hnode with
      | bool hvalue => exact ⟨_, boolField_eq_ok.mpr ⟨hvalue, rfl⟩, rfl⟩
  | null =>
    refine Import.run_pure_eq_ok.trans ⟨?_, ?_⟩
    · rintro ⟨rfl, rfl⟩
      exact .null
    · intro hnode
      cases hnode with
      | null => exact ⟨rfl, rfl⟩
  | gstring =>
    refine Import.run_map_eq_ok.trans ⟨?_, ?_⟩
    · rintro ⟨chunks, hchunks, rfl⟩
      exact .gstring hchunks
    · intro hnode
      cases hnode with
      | gstring hchunks => exact ⟨_, hchunks, rfl⟩
  | var =>
    refine Import.run_map_eq_ok.trans ⟨?_, ?_⟩
    · rintro ⟨name, hrun, rfl⟩
      obtain ⟨hname, rfl⟩ := stringField_eq_ok.mp hrun
      exact .var hname
    · intro hnode
      cases hnode with
      | var hname => exact ⟨_, stringField_eq_ok.mpr ⟨hname, rfl⟩, rfl⟩
  | property =>
    refine Import.run_map₂_eq_ok.trans ⟨?_, ?_⟩
    · rintro ⟨target, name, _, rfl, htarget, hrun⟩
      obtain ⟨hname, rfl⟩ := stringField_eq_ok.mp hrun
      exact .property htarget hname
    · intro hnode
      cases hnode with
      | property htarget hname => exact ⟨_, _, _, rfl, htarget, stringField_eq_ok.mpr ⟨hname, rfl⟩⟩
  | call =>
    refine Import.run_bind_eq_ok.trans ⟨?_, ?_⟩
    · rintro ⟨receiver, _, hreceiver, hrest⟩
      obtain ⟨method, args, _, rfl, hrun, hargs⟩ := Import.run_map₂_eq_ok.mp hrest
      obtain ⟨hmethod, rfl⟩ := stringField_eq_ok.mp hrun
      exact .call hreceiver hmethod hargs
    · intro hnode
      cases hnode with
      | call hreceiver hmethod hargs =>
        refine ⟨_, _, hreceiver, ?_⟩
        exact Import.run_map₂_eq_ok.mpr ⟨_, _, _, rfl, stringField_eq_ok.mpr ⟨hmethod, rfl⟩, hargs⟩
  | map =>
    refine Import.run_map_eq_ok.trans ⟨?_, ?_⟩
    · rintro ⟨entries, hentries, rfl⟩
      exact .map hentries
    · intro hnode
      cases hnode with
      | map hentries => exact ⟨_, hentries, rfl⟩
  | list =>
    refine Import.run_map_eq_ok.trans ⟨?_, ?_⟩
    · rintro ⟨items, hitems, rfl⟩
      exact .list hitems
    · intro hnode
      cases hnode with
      | list hitems => exact ⟨_, hitems, rfl⟩
  | binary =>
    refine Import.run_bind_eq_ok.trans ⟨?_, ?_⟩
    · rintro ⟨op, _, hrun, hrest⟩
      obtain ⟨⟨symbol, hsymbol, hop⟩, rfl⟩ := operatorField_eq_ok.mp hrun
      obtain ⟨left, right, _, rfl, hleft, hright⟩ := Import.run_map₂_eq_ok.mp hrest
      exact .binary hsymbol hop hleft hright
    · intro hnode
      cases hnode with
      | binary hsymbol hop hleft hright =>
        refine ⟨_, _, operatorField_eq_ok.mpr ⟨⟨_, hsymbol, hop⟩, rfl⟩, ?_⟩
        exact Import.run_map₂_eq_ok.mpr ⟨_, _, _, rfl, hleft, hright⟩
  | closure => exact readClosure_eq_ok

/-- **When a node is read** as an expression. -/
theorem readExpr_eq_ok {value : Value} {e : Expr} :
    (readExpr path scope value).run before = .ok (e, after) ↔
      ∃ fields loc middle kind, value = .object fields ∧
        (noteLocation fields).run before = .ok (loc, middle) ∧ kindOf? fields = some kind ∧
        ReadNode path scope fields loc middle kind e after := by
  constructor
  · intro hrun
    cases value with
    | object fields =>
      rw [readExpr_object, Import.run_bind_eq_ok] at hrun
      obtain ⟨loc, middle, hloc, hrest⟩ := hrun
      obtain ⟨name, _, hread, hkind⟩ := Import.run_bind_eq_ok.mp hrest
      obtain ⟨hname, rfl⟩ := stringField_eq_ok.mp hread
      cases hof : Kind.ofName? name with
      | none => rw [hof] at hkind; cases hkind
      | some kind =>
        rw [hof] at hkind
        exact ⟨fields, loc, _, kind, rfl, hloc, kindOf?_eq_some.mpr ⟨name, hname, hof⟩,
          readKind_eq_ok.mp hkind⟩
    | _ => cases hrun
  · rintro ⟨fields, loc, middle, kind, rfl, hloc, hkind, hnode⟩
    obtain ⟨name, hname, hof⟩ := kindOf?_eq_some.mp hkind
    rw [readExpr_object, Import.run_bind_eq_ok]
    refine ⟨loc, middle, hloc, Import.run_bind_eq_ok.mpr
      ⟨name, middle, stringField_eq_ok.mpr ⟨hname, rfl⟩, ?_⟩⟩
    rw [hof]
    exact readKind_eq_ok.mpr hnode

/-! ### Lists of nodes -/

variable {index : Nat} {value : Value} {values : List Value}

theorem readExprs_cons_eq_ok {exprs : List Expr} :
    (readExprs path scope index (value :: values)).run before = .ok (exprs, after) ↔
      ∃ e es middle, exprs = e :: es ∧
        (readExpr (path.item index) scope value).run before = .ok (e, middle) ∧
        (readExprs path scope (index + 1) values).run middle = .ok (es, after) := by
  rw [readExprs]
  exact Import.run_map₂_eq_ok

/-- What a part of a string is read as. -/
inductive ReadChunk (path : Path) (scope : ScopeId) (before : Registry) :
    Value → Chunk → Registry → Prop
  | text {text : String} : ReadChunk path scope before (.string text) (.text text) before
  | interpolation {value : Value} {e : Expr} {after : Registry} :
    (readExpr path scope value).run before = .ok (e, after) →
    ReadChunk path scope before value (.interpolation e) after

theorem readChunks_cons_eq_ok {chunks : List Chunk} :
    (readChunks path scope index (value :: values)).run before = .ok (chunks, after) ↔
      ∃ c cs middle, chunks = c :: cs ∧ ReadChunk (path.item index) scope before value c middle ∧
        (readChunks path scope (index + 1) values).run middle = .ok (cs, after) := by
  constructor
  · intro hrun
    rw [readChunks.eq_def] at hrun
    split at hrun
    · cases ‹_ = []›
    · next heq =>
      cases heq
      obtain ⟨cs, hcs, rfl⟩ := Import.run_map_eq_ok.mp hrun
      exact ⟨_, cs, before, rfl, .text, hcs⟩
    · next heq =>
      cases heq
      obtain ⟨e, cs, middle, rfl, he, hcs⟩ := Import.run_map₂_eq_ok.mp hrun
      exact ⟨_, cs, middle, rfl, .interpolation he, hcs⟩
  · rintro ⟨c, cs, middle, rfl, hc, hcs⟩
    cases hc with
    | text =>
      rw [readChunks]
      exact Import.run_map_eq_ok.mpr ⟨cs, hcs, rfl⟩
    | interpolation he =>
      -- only objects are read as expressions, so the value is no text
      obtain ⟨fields, _, _, _, rfl, -⟩ := readExpr_eq_ok.mp he
      rw [readChunks]
      · exact Import.run_map₂_eq_ok.mpr ⟨_, cs, middle, rfl, he, hcs⟩
      · exact nofun

theorem readValues_cons_eq_ok {key : String} {entries : List Entry} :
    (readValues path scope ((key, value) :: fields)).run before = .ok (entries, after) ↔
      ∃ e es middle, entries = ⟨key, e⟩ :: es ∧
        (readExpr (path.field key) scope value).run before = .ok (e, middle) ∧
        (readValues path scope fields).run middle = .ok (es, after) := by
  rw [readValues]
  exact Import.run_map₂_eq_ok

/-- What a node is read as where a statement is expected. -/
structure ReadStmt (path : Path) (scope : ScopeId) (before : Registry) (fields : Fields)
    (stmt : Stmt) (after : Registry) : Prop where
  label : OptionalText fields "label" stmt.label
  kind : ∃ name, Fields.get? fields "kind" = some (.string name) ∧
    stmtReturns? name = some stmt.returns
  expr : ∃ middle, (noteLocation fields).run before = .ok (stmt.loc, middle) ∧
    (readField path scope "expr" fields).run middle = .ok (stmt.expr, after)

/-- **When a node is read** as a statement. -/
theorem readStmts_cons_eq_ok {stmts : List Stmt} :
    (readStmts path scope index (value :: values)).run before = .ok (stmts, after) ↔
      ∃ fields s ss middle, value = .object fields ∧ stmts = s :: ss ∧
        ReadStmt (path.item index) scope before fields s middle ∧
        (readStmts path scope (index + 1) values).run middle = .ok (ss, after) := by
  constructor
  · intro hrun
    cases value with
    | object fields =>
      rw [readStmts, Import.run_bind_eq_ok] at hrun
      obtain ⟨loc, _, hloc, h₁⟩ := hrun
      obtain ⟨label, _, hlabel, h₂⟩ := Import.run_bind_eq_ok.mp h₁
      obtain ⟨name, _, hname, h₃⟩ := Import.run_bind_eq_ok.mp h₂
      obtain ⟨e, middle, he, h₄⟩ := Import.run_bind_eq_ok.mp h₃
      obtain ⟨hlabel', rfl⟩ := optionalString_eq_ok.mp hlabel
      obtain ⟨hname', rfl⟩ := stringField_eq_ok.mp hname
      -- the kind is looked at last, after the expression has been read
      cases hreturns : stmtReturns? name with
      | none => rw [hreturns] at h₄; cases h₄
      | some returns =>
        rw [hreturns] at h₄
        obtain ⟨ss, hss, rfl⟩ := Import.run_map_eq_ok.mp h₄
        exact ⟨fields, ⟨returns, loc, label, e⟩, ss, middle, rfl, rfl,
          ⟨hlabel', ⟨name, hname', hreturns⟩, ⟨_, hloc, he⟩⟩, hss⟩
    | _ => cases hrun
  · rintro ⟨fields, ⟨returns, loc, label, e⟩, ss, middle, rfl, rfl, hs, hss⟩
    obtain ⟨hlabel, ⟨name, hname, hreturns⟩, ⟨noted, hloc, he⟩⟩ := hs
    rw [readStmts, Import.run_bind_eq_ok]
    refine ⟨loc, noted, hloc, Import.run_bind_eq_ok.mpr
      ⟨label, noted, optionalString_eq_ok.mpr ⟨hlabel, rfl⟩, Import.run_bind_eq_ok.mpr
        ⟨name, noted, stringField_eq_ok.mpr ⟨hname, rfl⟩, Import.run_bind_eq_ok.mpr
          ⟨e, middle, he, ?_⟩⟩⟩⟩
    simp only at hreturns
    rw [hreturns]
    exact Import.run_map_eq_ok.mpr ⟨ss, hss, rfl⟩

/-! ### What was read -/

/-- The expression is the result of reading some value. -/
def WasRead (e : Expr) : Prop :=
  ∃ path scope value before after, (readExpr path scope value).run before = .ok (e, after)

/-- The expression is the result of reading some value in a scope, with the scopes that were open
before and after. -/
def ReadIn (scope : ScopeId) (e : Expr) (before after : Scopes) : Prop :=
  ∃ path value registry registry', (readExpr path scope value).run registry = .ok (e, registry') ∧
    registry.scopes = before ∧ registry'.scopes = after

theorem readIn_of_run {e : Expr} (h : (readExpr path scope value).run before = .ok (e, after)) :
    ReadIn scope e before.scopes after.scopes :=
  ⟨_, _, _, _, h, rfl, rfl⟩

theorem ReadIn.wasRead {e : Expr} {opened opened' : Scopes} (h : ReadIn scope e opened opened') :
    WasRead e := by
  obtain ⟨path, value, registry, registry', hrun, -, -⟩ := h
  exact ⟨_, _, _, _, _, hrun⟩

/-- Noting a location leaves the scopes alone. -/
theorem scopes_of_noteLocation {loc : Handle}
    (h : (noteLocation fields).run before = .ok (loc, after)) : after.scopes = before.scopes := by
  change noteLocation fields before = _ at h
  unfold noteLocation at h
  split at h
  · cases h
    rfl
  · cases h
    rfl

theorem readIn_of_readField {name : String} {e : Expr}
    (h : (readField path scope name fields).run before = .ok (e, after)) :
    ReadIn scope e before.scopes after.scopes := by
  obtain ⟨_, -, he⟩ := readField_eq_ok.mp h
  exact readIn_of_run he

theorem threaded_of_readExprs {exprs : List Expr}
    (h : (readExprs path scope index values).run before = .ok (exprs, after)) :
    Threaded (ReadIn scope) exprs before.scopes after.scopes := by
  induction values generalizing index before exprs with
  | nil =>
    obtain ⟨rfl, rfl⟩ := Import.run_pure_eq_ok.mp h
    exact .nil _
  | cons value values ih =>
    obtain ⟨e, es, middle, rfl, he, hes⟩ := readExprs_cons_eq_ok.mp h
    exact .cons (readIn_of_run he) (ih hes)

theorem threaded_of_readArgs {args : List Expr}
    (h : (readArgs path scope fields).run before = .ok (args, after)) :
    Threaded (ReadIn scope) args before.scopes after.scopes := by
  cases readArgs_eq_ok.mp h with
  | missing => exact .nil _
  | nodes _ hexprs => exact threaded_of_readExprs hexprs

theorem threaded_of_readReceiver {receiver : Option Expr}
    (h : (readReceiver path scope fields).run before = .ok (receiver, after)) :
    Threaded (ReadIn scope) receiver.toList before.scopes after.scopes := by
  cases readReceiver_eq_ok.mp h with
  | missing | null => exact .nil _
  | node _ he => exact .singleton (readIn_of_run he)

theorem threaded_of_readChunks {chunks : List Chunk}
    (h : (readChunks path scope index values).run before = .ok (chunks, after)) :
    Threaded (ReadIn scope) (chunks.filterMap Chunk.expr?) before.scopes after.scopes := by
  induction values generalizing index before chunks with
  | nil =>
    obtain ⟨rfl, rfl⟩ := Import.run_pure_eq_ok.mp h
    exact .nil _
  | cons value values ih =>
    obtain ⟨c, cs, middle, rfl, hc, hcs⟩ := readChunks_cons_eq_ok.mp h
    cases hc with
    | text =>
      rw [interpolated_text]
      exact ih hcs
    | interpolation he => exact .cons (readIn_of_run he) (ih hcs)

theorem threaded_of_readValues {entries : List Entry}
    (h : (readValues path scope fields).run before = .ok (entries, after)) :
    Threaded (ReadIn scope) (entries.map Entry.value) before.scopes after.scopes := by
  induction fields generalizing before entries with
  | nil =>
    obtain ⟨rfl, rfl⟩ := Import.run_pure_eq_ok.mp h
    exact .nil _
  | cons entry fields ih =>
    obtain ⟨e, es, middle, rfl, he, hes⟩ := readValues_cons_eq_ok.mp h
    exact .cons (readIn_of_run he) (ih hes)

theorem threaded_of_readStmts {stmts : List Stmt}
    (h : (readStmts path scope index values).run before = .ok (stmts, after)) :
    Threaded (ReadIn scope) (stmts.map Stmt.expr) before.scopes after.scopes := by
  induction values generalizing index before stmts with
  | nil =>
    obtain ⟨rfl, rfl⟩ := Import.run_pure_eq_ok.mp h
    exact .nil _
  | cons value values ih =>
    obtain ⟨fields, s, ss, middle, rfl, rfl, hs, hss⟩ := readStmts_cons_eq_ok.mp h
    -- a statement gets its handle before its expression is read
    obtain ⟨noted, hloc, hexpr⟩ := hs.expr
    have hread := readIn_of_readField hexpr
    rw [scopes_of_noteLocation hloc] at hread
    exact .cons hread (ih hss)

theorem threaded_of_readBody {stmts : List Stmt}
    (h : (readBody path scope fields).run before = .ok (stmts, after)) :
    Threaded (ReadIn scope) (stmts.map Stmt.expr) before.scopes after.scopes := by
  obtain ⟨_, -, hstmts⟩ := readBody_eq_ok.mp h
  exact threaded_of_readStmts hstmts

/-- **The children of an expression that was read** were read themselves, one after another: in the
same scope or, for the statements of a closure, in the scope that was opened for it. -/
theorem ReadIn.children {e : Expr} {opened opened' : Scopes} (h : ReadIn scope e opened opened') :
    (e.body? = none ∧ Threaded (ReadIn scope) e.children opened opened') ∨
      ∃ body, e.body? = some body ∧ body.scope = (opened.child scope).1 ∧
        Threaded (ReadIn body.scope) e.children (opened.child scope).2 opened' := by
  obtain ⟨path, value, before, after, hrun, rfl, rfl⟩ := h
  obtain ⟨fields, loc, noted, kind, -, hloc, -, hnode⟩ := readExpr_eq_ok.mp hrun
  rw [← scopes_of_noteLocation hloc]
  cases hnode with
  | str | num | bool | null | var => exact .inl ⟨rfl, .nil _⟩
  | gstring hparts =>
    obtain ⟨_, -, hchunks⟩ := readParts_eq_ok.mp hparts
    exact .inl ⟨rfl, threaded_of_readChunks hchunks⟩
  | property htarget => exact .inl ⟨rfl, .singleton (readIn_of_readField htarget)⟩
  | call hreceiver _ hargs =>
    exact .inl ⟨rfl, (threaded_of_readReceiver hreceiver).append (threaded_of_readArgs hargs)⟩
  | map hentries =>
    obtain ⟨_, -, hvalues⟩ := readEntries_eq_ok.mp hentries
    exact .inl ⟨rfl, threaded_of_readValues hvalues⟩
  | list hitems =>
    obtain ⟨_, -, hexprs⟩ := readItems_eq_ok.mp hitems
    exact .inl ⟨rfl, threaded_of_readExprs hexprs⟩
  | binary _ _ hleft hright =>
    exact .inl ⟨rfl, .cons (readIn_of_readField hleft) (.singleton (readIn_of_readField hright))⟩
  | thunk _ hopen hstmts =>
    cases hopen
    exact .inr ⟨_, rfl, rfl, threaded_of_readBody hstmts⟩
  | closure _ _ hopen hstmts =>
    cases hopen
    exact .inr ⟨_, rfl, rfl, threaded_of_readBody hstmts⟩

theorem WasRead.children {e : Expr} (h : WasRead e) : ∀ c ∈ e.children, WasRead c := by
  obtain ⟨path, scope, value, before, after, hrun⟩ := h
  intro c hc
  obtain ⟨-, hread⟩ | ⟨body, -, -, hread⟩ := (readIn_of_run hrun).children
  · obtain ⟨_, _, hstep⟩ := hread.exists_step c hc
    exact hstep.wasRead
  · obtain ⟨_, _, hstep⟩ := hread.exists_step c hc
    exact hstep.wasRead

theorem wasRead_of_readBody {stmts : List Stmt}
    (h : (readBody path scope fields).run before = .ok (stmts, after)) :
    ∀ e ∈ stmts.map Stmt.expr, WasRead e := by
  intro e he
  obtain ⟨_, _, hstep⟩ := (threaded_of_readBody h).exists_step e he
  exact hstep.wasRead

/-- The parameters of a closure that was read are there. -/
theorem WasRead.params_ne_nil {loc : Handle} {params : List String} {body : Block}
    (h : WasRead (.closure loc params body)) : params ≠ [] := by
  obtain ⟨path, scope, value, before, after, hrun⟩ := h
  obtain ⟨fields, loc, middle, kind, -, -, -, hnode⟩ := readExpr_eq_ok.mp hrun
  cases hnode with
  | closure hne => exact hne

/-- **When a value is read** as a document. -/
theorem documentOf_eq_ok {document : Document} :
    (documentOf value).run before = .ok (document, after) ↔
      ∃ fields stmts, value = .object fields ∧ OptionalText fields "source" document.source ∧
        document.body = ⟨Scopes.root, stmts⟩ ∧
        (readBody .root Scopes.root fields).run before = .ok (stmts, after) := by
  constructor
  · intro hrun
    cases value with
    | object fields =>
      obtain ⟨source, _, hsource, h⟩ := Import.run_bind_eq_ok.mp hrun
      obtain ⟨hsource', rfl⟩ := optionalString_eq_ok.mp hsource
      obtain ⟨stmts, hstmts, rfl⟩ := Import.run_map_eq_ok.mp h
      exact ⟨fields, stmts, rfl, hsource', rfl, hstmts⟩
    | _ => cases hrun
  · rintro ⟨fields, stmts, rfl, hsource, hbody, hstmts⟩
    refine Import.run_bind_eq_ok.mpr
      ⟨document.source, before, optionalString_eq_ok.mpr ⟨hsource, rfl⟩, ?_⟩
    refine Import.run_map_eq_ok.mpr ⟨stmts, hstmts, ?_⟩
    cases document
    rw [← hbody]

end Interchange

end FlowDesugar
