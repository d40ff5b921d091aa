import FlowDesugar.Proofs.Grammar

/-!
# Errors name real faults

An error of a reader carries a path. The readers build it on their way in, one step for each field
or item they enter, while the value at hand is found by other means. That the two agree is the
invariant of the whole reading: `path.get? root = some value`, where `root` is the document and
`value` is what the reader was given.

`ImportError.IsReal root error` says that the path of the error leads to a place of `root`, and that
the value there has the fault that the error states. A reader *blames rightly* if all its errors are
real. Readers that do so compose (`Blames.bind`), so that each reader of the format is gone through
once, from the fields of a node (`blames_stringField` and its like) over the lists of nodes to
`blames_readExpr`, which goes by induction over the value.

Errors name places by their keys, so that objects have to have distinct ones.
-/

namespace FlowDesugar

open Json (Value Fields Path Step)

/-! ### Faults -/

open Interchange (stmtKinds exprKinds operatorSymbols)

/-- The value is not as the shape asks. Where names of parameters are asked for, an array is given
with something else among its items. -/
def Shape.Violated : Shape → Value → Prop
  | .object, value => ∀ fields, value ≠ .object fields
  | .array, value => ∀ items, value ≠ .array items
  | .string, value => ∀ text, value ≠ .string text
  | .number, value => ∀ number, value ≠ .number number
  | .bool, value => ∀ truth, value ≠ .bool truth
  | .parameterNames, value =>
    ∃ items, value = .array items ∧ ∃ item ∈ items, ∀ text, item ≠ .string text

namespace ImportError

/-- The value `found` has the fault that the error states. -/
def HoldsOf : ImportError → Value → Prop
  | unexpectedShape _ shape, found => shape.Violated found
  | missingField _ name, found =>
    ∃ fields : Fields, found = .object fields ∧ fields.get? name = none
  | unknownStatement _ kind, found =>
    ∃ fields : Fields, found = .object fields ∧ fields.get? "kind" = some (.string kind) ∧
      kind ∉ stmtKinds
  | unknownExpression _ kind, found =>
    ∃ fields : Fields, found = .object fields ∧ fields.get? "kind" = some (.string kind) ∧
      kind ∉ exprKinds
  | unknownOperator _ symbol, found => found = .string symbol ∧ symbol ∉ operatorSymbols
  | invalidJson _, _ => False
  | unknownFormat _, _ => False

/-- The error names a place of `root` and states a fault that is there. -/
def IsReal (root : Value) (error : ImportError) : Prop :=
  ∃ path found, error.path? = some path ∧ path.get? root = some found ∧ error.HoldsOf found

end ImportError

namespace Interchange

theorem not_mem_stmtKinds {name : String} (h : stmtReturns? name = none) : name ∉ stmtKinds := by
  rw [mem_stmtKinds, h]
  exact nofun

theorem not_mem_exprKinds {name : String} (h : Kind.ofName? name = none) : name ∉ exprKinds := by
  rw [mem_exprKinds, h]
  exact nofun

theorem not_mem_operatorSymbols {symbol : String} (h : Operator.ofSymbol? symbol = none) :
    symbol ∉ operatorSymbols := by
  rw [mem_operatorSymbols, h]
  exact nofun

/-- Items that are not all strings have one among them that is none. -/
theorem exists_not_string {items : List Value} (h : strings? items = none) :
    ∃ item ∈ items, ∀ text, item ≠ .string text := by
  induction items with
  | nil => cases h
  | cons item items ih =>
    cases item with
    | string text =>
      rw [strings?, Option.map_eq_none_iff] at h
      obtain ⟨bad, hmem, hbad⟩ := ih h
      exact ⟨bad, List.mem_cons_of_mem _ hmem, hbad⟩
    | _ => exact ⟨_, List.mem_cons_self, fun text heq => by cases heq⟩

/-! ### Readers that blame rightly -/

/-- Every error of the reader is real. -/
def Blames {α : Type} (root : Value) (reader : Import α) : Prop :=
  ∀ before error, reader.run before = .error error → error.IsReal root

namespace Blames

variable {α β : Type} {root : Value}

theorem of_total {reader : Import α} (h : Total reader) : Blames root reader := by
  intro before error herror
  obtain ⟨a, after, hrun⟩ := h before
  rw [hrun] at herror
  cases herror

theorem pure (a : α) : Blames root (Pure.pure a : Import α) :=
  of_total fun before => ⟨a, before, rfl⟩

theorem throw {error : ImportError} (h : error.IsReal root) :
    Blames root (MonadExcept.throw error : Import α) := by
  intro before error' herror
  cases herror
  exact h

/-- One reader after another. The second may count on what the first has found. -/
theorem bind {x : Import α} {f : α → Import β} (hx : Blames root x)
    (hf : ∀ a before after, x.run before = .ok (a, after) → Blames root (f a)) :
    Blames root (x >>= f) := by
  intro before error herror
  rw [StateT.run_bind] at herror
  cases hrun : x.run before with
  | error error' =>
    rw [hrun] at herror
    cases herror
    exact hx before error hrun
  | ok result =>
    rw [hrun] at herror
    exact hf result.1 before result.2 hrun result.2 error herror

/-- One reader after another, whatever the first has found. -/
theorem andThen {x : Import α} {f : α → Import β} (hx : Blames root x)
    (hf : ∀ a, Blames root (f a)) : Blames root (x >>= f) :=
  hx.bind fun a _ _ _ => hf a

end Blames

variable {root : Value} {path : Path} {scope : ScopeId} {fields : Fields}

theorem blames_noteLocation (fields : Fields) : Blames root (noteLocation fields) :=
  .of_total (total_noteLocation fields)

theorem blames_openScope (scope : ScopeId) : Blames root (openScope scope) :=
  .of_total (total_openScope scope)

/-! ### Fields of a node

From here on `fields` are those of the object at `path`. -/

section

variable (hplace : path.get? root = some (.object fields))

include hplace

theorem isReal_missingField {name : String} (h : fields.get? name = none) :
    (ImportError.missingField path name).IsReal root :=
  ⟨path, _, rfl, hplace, fields, rfl, h⟩

/-- A field is found, but not in the shape that is asked for. -/
theorem isReal_unexpectedShape {name : String} {value : Value} {shape : Shape}
    (hfield : fields.get? name = some value) (h : shape.Violated value) :
    (ImportError.unexpectedShape (path.field name) shape).IsReal root :=
  ⟨path.field name, value, rfl, Path.get?_field hplace hfield, h⟩

theorem blames_field (name : String) : Blames root (field path name fields) := by
  unfold field
  cases hget : fields.get? name with
  | some value => exact .pure value
  | none => exact .throw (isReal_missingField hplace hget)

/-- A field that has to be there and of one shape. -/
theorem blames_field_bind {α : Type} {name : String} {view : Value → Import α}
    (hview : ∀ value, fields.get? name = some value → Blames root (view value)) :
    Blames root (field path name fields >>= view) := by
  refine (blames_field hplace name).bind fun value before after hrun => hview value ?_
  unfold field at hrun
  cases hget : fields.get? name with
  | some found =>
    rw [hget] at hrun
    rw [(Import.run_pure_eq_ok.mp hrun).1]
  | none =>
    rw [hget] at hrun
    cases hrun

theorem blames_stringField (name : String) : Blames root (stringField path name fields) := by
  refine blames_field_bind hplace fun value hget => ?_
  cases value with
  | string text => exact .pure text
  | _ => exact .throw (isReal_unexpectedShape hplace hget nofun)

theorem blames_numberField (name : String) : Blames root (numberField path name fields) := by
  refine blames_field_bind hplace fun value hget => ?_
  cases value with
  | number number => exact .pure number
  | _ => exact .throw (isReal_unexpectedShape hplace hget nofun)

theorem blames_boolField (name : String) : Blames root (boolField path name fields) := by
  refine blames_field_bind hplace fun value hget => ?_
  cases value with
  | bool truth => exact .pure truth
  | _ => exact .throw (isReal_unexpectedShape hplace hget nofun)

theorem blames_optionalString (name : String) :
    Blames root (optionalString path name fields) := by
  unfold optionalString
  cases hget : fields.get? name with
  | none => exact .pure none
  | some value =>
    cases value with
    | null => exact .pure none
    | string text => exact .pure (some text)
    | _ => exact .throw (isReal_unexpectedShape hplace hget fun _ heq => by cases heq)

theorem blames_operatorField : Blames root (operatorField path fields) := by
  refine (blames_stringField hplace "op").bind fun symbol before after hrun => ?_
  obtain ⟨hsymbol, -⟩ := stringField_eq_ok.mp hrun
  cases hop : Operator.ofSymbol? symbol with
  | some op => exact .pure op
  | none =>
    exact .throw ⟨path.field "op", .string symbol, rfl, Path.get?_field hplace hsymbol, rfl,
      not_mem_operatorSymbols hop⟩

theorem blames_paramsField : Blames root (paramsField path fields) := by
  unfold paramsField
  cases hget : fields.get? "params" with
  | none => exact .pure []
  | some value =>
    cases value with
    | null => exact .pure []
    | array items =>
      simp only
      cases hstrings : strings? items with
      | some params => exact .pure params
      | none =>
        have hbad := exists_not_string hstrings
        exact .throw (isReal_unexpectedShape hplace hget ⟨items, rfl, hbad⟩)
    | _ => exact .throw (isReal_unexpectedShape hplace hget fun _ heq => by cases heq)

/-! ### Fields that hold nodes -/

theorem blames_readField {name : String}
    (h : ∀ value, fields.get? name = some value →
      Blames root (readExpr (path.field name) scope value)) :
    Blames root (readField path scope name fields) := by
  rw [search_eq (r := readField path scope name) rfl fun key value fields => by rw [readField]]
  cases hget : fields.get? name with
  | none => exact .throw (isReal_missingField hplace hget)
  | some value => exact h value hget

omit hplace in
/-- A receiver that is missing or null is no fault. -/
theorem blames_readReceiver
    (h : ∀ value, fields.get? "receiver" = some value →
      Blames root (readExpr (path.field "receiver") scope value)) :
    Blames root (readReceiver path scope fields) := by
  rw [search_eq (r := readReceiver path scope) rfl fun key value fields =>
    readReceiver.eq_def path scope ((key, value) :: fields)]
  cases hget : fields.get? "receiver" with
  | none => exact .pure none
  | some value =>
    rw [Option.elim_some]
    split
    · exact .pure none
    · exact (h value hget).andThen fun receiver => .pure (some receiver)

/-- A reader that asks for an array under a name, which has to be there. -/
theorem blames_array {α : Type} {name : String} {readAll : List Value → Import α}
    {reader : Fields → Import α} (hnil : reader [] = throw (.missingField path name))
    (hcons : ∀ key value fields, reader ((key, value) :: fields) =
      if key = name then
        match value with
        | .array values => readAll values
        | _ => throw (.unexpectedShape (path.field name) .array)
      else reader fields)
    (h : ∀ values, fields.get? name = some (.array values) → Blames root (readAll values)) :
    Blames root (reader fields) := by
  rw [search_eq hnil hcons]
  cases hget : fields.get? name with
  | none => exact .throw (isReal_missingField hplace hget)
  | some value =>
    cases value with
    | array values => exact h values hget
    | _ => exact .throw (isReal_unexpectedShape hplace hget fun _ heq => by cases heq)

/-- Arguments that are missing are no fault, but null ones are. -/
theorem blames_readArgs
    (h : ∀ values, fields.get? "args" = some (.array values) →
      Blames root (readExprs (path.field "args") scope 0 values)) :
    Blames root (readArgs path scope fields) := by
  rw [search_eq (r := readArgs path scope) rfl fun key value fields =>
    readArgs.eq_def path scope ((key, value) :: fields)]
  cases hget : fields.get? "args" with
  | none => exact .pure []
  | some value =>
    cases value with
    | array values => exact h values hget
    | _ => exact .throw (isReal_unexpectedShape hplace hget fun _ heq => by cases heq)

theorem blames_readEntries
    (h : ∀ values, fields.get? "entries" = some (.object values) →
      Blames root (readValues (path.field "entries") scope values)) :
    Blames root (readEntries path scope fields) := by
  rw [search_eq (r := readEntries path scope) rfl fun key value fields =>
    readEntries.eq_def path scope ((key, value) :: fields)]
  cases hget : fields.get? "entries" with
  | none => exact .throw (isReal_missingField hplace hget)
  | some value =>
    cases value with
    | object values => exact h values hget
    | _ => exact .throw (isReal_unexpectedShape hplace hget fun _ heq => by cases heq)

end

/-! ### Lists of nodes -/

variable {index : Nat} {values : List Value}

theorem blames_readExprs
    (h : ∀ i value, values[i]? = some value →
      Blames root (readExpr (path.item (index + i)) scope value)) :
    Blames root (readExprs path scope index values) := by
  induction values generalizing index with
  | nil => exact .pure []
  | cons value values ih =>
    rw [readExprs]
    refine (h 0 value rfl).andThen fun e => Blames.andThen (ih fun i value' hitem => ?_) fun es =>
      .pure (e :: es)
    rw [Nat.add_right_comm, Nat.add_assoc]
    exact h (i + 1) value' hitem

theorem blames_readChunks
    (h : ∀ i value, values[i]? = some value →
      Blames root (readExpr (path.item (index + i)) scope value)) :
    Blames root (readChunks path scope index values) := by
  induction values generalizing index with
  | nil => exact .pure []
  | cons value values ih =>
    have hrest : Blames root (readChunks path scope (index + 1) values) := by
      refine ih fun i value' hitem => ?_
      rw [Nat.add_right_comm, Nat.add_assoc]
      exact h (i + 1) value' hitem
    rw [readChunks.eq_def]
    split
    · exact .pure []
    · next heq =>
      cases heq
      exact hrest.andThen fun chunks => .pure _
    · next heq =>
      cases heq
      exact (h 0 value rfl).andThen fun e => hrest.andThen fun chunks => .pure _

theorem blames_readValues
    (h : ∀ key value, (key, value) ∈ fields → Blames root (readExpr (path.field key) scope value)) :
    Blames root (readValues path scope fields) := by
  induction fields with
  | nil => exact .pure []
  | cons field fields ih =>
    obtain ⟨key, value⟩ := field
    rw [readValues]
    refine (h key value List.mem_cons_self).andThen fun e =>
      Blames.andThen (ih fun key' value' hmem => ?_) fun entries => .pure _
    exact h key' value' (List.mem_cons_of_mem _ hmem)

/-- A statement is an object, and its kind is looked at after its expression. -/
theorem blames_readStmts
    (hplaces : ∀ i value, values[i]? = some value → (path.item (index + i)).get? root = some value)
    (h : ∀ i fields, values[i]? = some (.object fields) →
      Blames root (readField (path.item (index + i)) scope "expr" fields)) :
    Blames root (readStmts path scope index values) := by
  induction values generalizing index with
  | nil => exact .pure []
  | cons value values ih =>
    have hplace := hplaces 0 value rfl
    have hrest : Blames root (readStmts path scope (index + 1) values) := by
      refine ih (fun i value' hitem => ?_) fun i fields hitem => ?_
      · rw [Nat.add_right_comm, Nat.add_assoc]
        exact hplaces (i + 1) value' hitem
      · rw [Nat.add_right_comm, Nat.add_assoc]
        exact h (i + 1) fields hitem
    cases value with
    | object fields =>
      rw [readStmts]
      refine (blames_noteLocation fields).andThen fun loc =>
        (blames_optionalString hplace "label").andThen fun label =>
          (blames_stringField hplace "kind").bind fun kind before after hkind =>
            (h 0 fields rfl).andThen fun e => ?_
      obtain ⟨hname, -⟩ := stringField_eq_ok.mp hkind
      cases hreturns : stmtReturns? kind with
      | some returns => exact hrest.andThen fun stmts => .pure _
      | none =>
        exact .throw ⟨path.item index, _, rfl, hplace, fields, rfl, hname,
          not_mem_stmtKinds hreturns⟩
    | _ => exact .throw ⟨path.item index, _, rfl, hplace, fun _ heq => by cases heq⟩

/-! ### Expressions -/

/-- Reading what is inside the value as an expression, at its place, blames rightly. -/
def BlamesInside (root value : Value) : Prop :=
  ∀ part, part.Inside value → ∀ path scope, path.get? root = some part →
    Blames root (readExpr path scope part)

section

variable (hplace : path.get? root = some (.object fields))
  (hinside : BlamesInside root (.object fields))

include hplace hinside

theorem blames_readField_of_inside (name : String) :
    Blames root (readField path scope name fields) :=
  blames_readField hplace fun value hget =>
    hinside value (Value.inside_of_get? hget) _ _ (Path.get?_field hplace hget)

/-- The items of an array in a field. -/
theorem blames_item_of_inside {name : String} (hget : fields.get? name = some (.array values)) :
    ∀ i value, values[i]? = some value →
      Blames root (readExpr ((path.field name).item (0 + i)) scope value) := by
  intro i value hitem
  have hpart : value.Inside (.object fields) :=
    .trans (.item (List.mem_of_getElem? hitem)) (Value.inside_of_get? hget)
  rw [Nat.zero_add]
  exact hinside value hpart _ _ (Path.get?_item (Path.get?_field hplace hget) hitem)

theorem blames_readBody : Blames root (readBody path scope fields) := by
  refine blames_array hplace rfl (fun key value fields =>
    readBody.eq_def path scope ((key, value) :: fields)) fun values hget => ?_
  have hplaces : ∀ i value, values[i]? = some value →
      ((path.field "statements").item (0 + i)).get? root = some value := by
    intro i value hitem
    rw [Nat.zero_add]
    exact Path.get?_item (Path.get?_field hplace hget) hitem
  refine blames_readStmts hplaces fun i stmt hitem => ?_
  -- the expression of a statement is inside the statement, which is inside the field
  have hstmt : (Value.object stmt).Inside (.object fields) :=
    .trans (.item (List.mem_of_getElem? hitem)) (Value.inside_of_get? hget)
  exact blames_readField_of_inside (hplaces i _ hitem)
    (fun part hpart => hinside part (.trans hpart hstmt)) "expr"

theorem blames_readKind (hkeys : (Value.object fields).Everywhere Value.DistinctKeys)
    (loc : Handle) (kind : Kind) : Blames root (readKind path scope fields loc kind) := by
  cases kind with
  | str => exact (blames_stringField hplace "value").andThen fun _ => .pure _
  | num => exact (blames_numberField hplace "value").andThen fun _ => .pure _
  | bool => exact (blames_boolField hplace "value").andThen fun _ => .pure _
  | null => exact .pure _
  | gstring =>
    refine Blames.andThen (blames_array hplace rfl (fun key value fields =>
      readParts.eq_def path scope ((key, value) :: fields)) fun values hget => ?_) fun _ => .pure _
    exact blames_readChunks (blames_item_of_inside hplace hinside hget)
  | var => exact (blames_stringField hplace "name").andThen fun _ => .pure _
  | property =>
    exact (blames_readField_of_inside hplace hinside "target").andThen fun _ =>
      (blames_stringField hplace "name").andThen fun _ => .pure _
  | call =>
    have hreceiver : Blames root (readReceiver path scope fields) :=
      blames_readReceiver fun value hget =>
        hinside value (Value.inside_of_get? hget) _ _ (Path.get?_field hplace hget)
    have hargs : Blames root (readArgs path scope fields) :=
      blames_readArgs hplace fun values hget =>
        blames_readExprs (blames_item_of_inside hplace hinside hget)
    exact hreceiver.andThen fun _ => (blames_stringField hplace "method").andThen fun _ =>
      hargs.andThen fun _ => .pure _
  | map =>
    refine Blames.andThen (blames_readEntries hplace fun values hget => ?_) fun _ => .pure _
    -- an entry is found under its key because no other has it
    have hdistinct : (values.map Prod.fst).Nodup := (hkeys.get? hget).own
    refine blames_readValues fun key value hmem => ?_
    have hfound := Fields.get?_of_mem hdistinct hmem
    have hpart : value.Inside (.object fields) := .trans (.field hmem) (Value.inside_of_get? hget)
    exact hinside value hpart _ _ (Path.get?_field (Path.get?_field hplace hget) hfound)
  | list =>
    refine Blames.andThen (blames_array hplace rfl (fun key value fields =>
      readItems.eq_def path scope ((key, value) :: fields)) fun values hget => ?_) fun _ => .pure _
    exact blames_readExprs (blames_item_of_inside hplace hinside hget)
  | binary =>
    exact (blames_operatorField hplace).andThen fun _ =>
      (blames_readField_of_inside hplace hinside "left").andThen fun _ =>
        (blames_readField_of_inside hplace hinside "right").andThen fun _ => .pure _
  | closure =>
    refine (blames_paramsField hplace).andThen fun params =>
      (blames_openScope scope).andThen fun inner =>
        (blames_readBody hplace hinside).andThen fun stmts => ?_
    split
    · exact .pure _
    · exact .pure _

end

/-- **Reading an expression blames rightly**, wherever in a document it stands. -/
theorem blames_readExpr {value : Value} (hkeys : value.Everywhere Value.DistinctKeys)
    (hplace : path.get? root = some value) : Blames root (readExpr path scope value) := by
  induction value using Value.inductionOnInside generalizing path scope with
  | value value ih =>
    cases value with
    | object fields =>
      have hinside : BlamesInside root (.object fields) :=
        fun part hpart path scope hplace => ih part hpart (hkeys.inside hpart) hplace
      rw [readExpr_object]
      refine (blames_noteLocation fields).andThen fun loc =>
        (blames_stringField hplace "kind").bind fun name before after hkind => ?_
      obtain ⟨hname, -⟩ := stringField_eq_ok.mp hkind
      cases hof : Kind.ofName? name with
      | some kind => exact blames_readKind hplace hinside hkeys loc kind
      | none => exact .throw ⟨path, _, rfl, hplace, fields, rfl, hname, not_mem_exprKinds hof⟩
    | _ => exact .throw ⟨path, _, rfl, hplace, nofun⟩

/-! ### Documents -/

/-- **A document is refused for a reason.** The error of a reader names a place of the document by
the steps that lead to it, and the value there has the fault that the error states. -/
theorem documentOf_error_isReal {value : Value} {before : Registry} {error : ImportError}
    (hkeys : value.Everywhere Value.DistinctKeys)
    (h : (documentOf value).run before = .error error) :
    ∃ path found, error.path? = some path ∧
      path.text = "$" ++ String.join (path.steps.map Step.text) ∧
      path.get? value = some found ∧ error.HoldsOf found := by
  have hblames : Blames value (documentOf value) := by
    have hplace := Path.get?_root value
    cases value with
    | object fields =>
      have hinside : BlamesInside (.object fields) (.object fields) :=
        fun part hpart path scope hpath => blames_readExpr (hkeys.inside hpart) hpath
      exact (blames_optionalString hplace "source").andThen fun source =>
        (blames_readBody hplace hinside).andThen fun stmts => .pure _
    | _ => exact .throw ⟨.root, _, rfl, hplace, nofun⟩
  obtain ⟨path, found, hpath, hplace, hholds⟩ := hblames before error h
  exact ⟨path, found, hpath, path.text_eq, hplace, hholds⟩

/-- A list with a bare null for an item, under a key of a map that has a dot in it. -/
def sampleFault : Value :=
  .object [("statements", .array [.object [("kind", .string "expr"),
    ("expr", .object [("kind", .string "map"), ("entries", .object [("a.b",
      .object [("kind", .string "list"), ("items", .array [.null])])])])]])]

theorem distinctKeys_sampleFault : sampleFault.Everywhere Value.DistinctKeys := by
  have htext : ∀ text, (Value.string text).Everywhere Value.DistinctKeys :=
    fun text => ⟨trivial, nofun⟩
  have hnull : Value.null.Everywhere Value.DistinctKeys := ⟨trivial, nofun⟩
  simp [sampleFault, Value.everywhere_array, Value.everywhere_object, Value.DistinctKeys, htext,
    hnull]

theorem documentOf_error_isReal_items :
    ∃ error path found, (documentOf sampleFault).run {} = .error error ∧
      error.path? = some path ∧ path.text = "$.statements[0].expr.entries.a.b.items[0]" ∧
      path.get? sampleFault = some found ∧ error.HoldsOf found := by
  obtain ⟨error, herror, hplace⟩ : ∃ error, (documentOf sampleFault).run {} = .error error ∧
      error.path?.map Path.text = some "$.statements[0].expr.entries.a.b.items[0]" :=
    ⟨_, rfl, by decide⟩
  obtain ⟨path, found, hpath, -, hget, hholds⟩ :=
    documentOf_error_isReal distinctKeys_sampleFault herror
  rw [hpath, Option.map_some] at hplace
  exact ⟨error, path, found, herror, hpath, Option.some.inj hplace, hget, hholds⟩

end Interchange

end FlowDesugar
