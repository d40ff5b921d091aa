import FlowDesugar.Proofs.Locations
import FlowDesugar.Proofs.Stripping

/-!
# Two documents read side by side

Two readers are run side by side on documents that say the same, the second of which may lack some
fields. They start from different registries, and so they give different handles and scopes to
corresponding nodes. A `Comparison` says how these go together, which registries correspond, and
which errors count as the same. Its laws concern the two steps that look at a registry, and these
alone: noting a location and opening a scope.

`Comparison.Alike` says that two readers do corresponding things: both fail, or both succeed with
related results and registries. It holds of one step after another (`Alike.bind`), and from there on
of the readers of fields, of lists of nodes, and of expressions and statements, by induction over
the document (`Comparison.alike_readExpr`, `Comparison.alike_readStmt`).
-/

namespace FlowDesugar.Interchange

open Json (Value Fields Path)

/-! ### Comparisons -/

/-- How two readings correspond. The second document lacks the fields called `names`. Handles and
scopes of the two are put in common terms. -/
structure Comparison where
  names : List String
  handle : Handle → Handle
  handle' : Handle → Handle
  scope : ScopeId → ScopeId
  scope' : ScopeId → ScopeId
  registries : Registry → Registry → Prop
  errors : ImportError → ImportError → Prop
  names_subset : names ⊆ placeNames
  note : ∀ {before before' : Registry} (fields : Fields), registries before before' →
    handle (before.sourceMap.note (positionOf? fields)).1
        = handle' (before'.sourceMap.note (positionOf? (stripFields names fields))).1 ∧
      registries { before with sourceMap := (before.sourceMap.note (positionOf? fields)).2 }
        { before' with
          sourceMap := (before'.sourceMap.note (positionOf? (stripFields names fields))).2 }
  child : ∀ {before before' : Registry} {parent parent' : ScopeId}, registries before before' →
    scope parent = scope' parent' →
      scope (before.scopes.child parent).1 = scope' (before'.scopes.child parent').1 ∧
      registries { before with scopes := (before.scopes.child parent).2 }
        { before' with scopes := (before'.scopes.child parent').2 }

namespace Comparison

variable (c : Comparison) {α α' β β' : Type}

/-- Two outcomes correspond: both are errors, or the results are related by `r`. -/
inductive Outcome (r : α → α' → Prop) :
    Except ImportError (α × Registry) → Except ImportError (α' × Registry) → Prop
  | ok {a : α} {a' : α'} {after after' : Registry} : r a a' → c.registries after after' →
    Outcome r (.ok (a, after)) (.ok (a', after'))
  | error {error error' : ImportError} : c.errors error error' →
    Outcome r (.error error) (.error error')

/-- Two readers correspond: from corresponding registries they have corresponding outcomes. -/
def Alike (r : α → α' → Prop) (x : Import α) (x' : Import α') : Prop :=
  ∀ before before' : Registry, c.registries before before' →
    c.Outcome r (x.run before) (x'.run before')

/-- Errors at the two places correspond. -/
def Places (path path' : Path) : Prop :=
  ∀ error : Path → ImportError, c.errors (error path) (error path')

variable {c}

theorem Places.field {path path' : Path} (h : c.Places path path') (name : String) :
    c.Places (path.field name) (path'.field name) :=
  fun error => h fun path => error (path.field name)

theorem Places.item {path path' : Path} (h : c.Places path path') (index : Nat) :
    c.Places (path.item index) (path'.item index) :=
  fun error => h fun path => error (path.item index)

namespace Alike

variable {r : α → α' → Prop} {s : β → β' → Prop} {x : Import α} {x' : Import α'}

theorem pure {a : α} {a' : α'} (h : r a a') : c.Alike r (Pure.pure a) (Pure.pure a') :=
  fun _ _ hregistries => .ok h hregistries

theorem throw {error error' : ImportError} (h : c.errors error error') :
    c.Alike r (MonadExcept.throw error : Import α) (MonadExcept.throw error' : Import α') :=
  fun _ _ _ => .error h

/-- **One step after another.** -/
theorem bind {f : α → Import β} {f' : α' → Import β'} (hx : c.Alike r x x')
    (hf : ∀ a a', r a a' → c.Alike s (f a) (f' a')) : c.Alike s (x >>= f) (x' >>= f') := by
  intro before before' hregistries
  rw [StateT.run_bind, StateT.run_bind]
  have hstep := hx before before' hregistries
  -- only the two outcomes matter from here on
  generalize x.run before = outcome at hstep ⊢
  generalize x'.run before' = outcome' at hstep ⊢
  cases hstep with
  | ok hresult hafter => exact hf _ _ hresult _ _ hafter
  | error herror => exact .error herror

end Alike

theorem alike_noteLocation (fields : Fields) :
    c.Alike (fun loc loc' => c.handle loc = c.handle' loc') (noteLocation fields)
      (noteLocation (stripFields c.names fields)) := by
  intro before before' hregistries
  obtain ⟨hhandle, hafter⟩ := c.note fields hregistries
  rw [noteLocation_run, noteLocation_run]
  exact .ok hhandle hafter

theorem alike_openScope {parent parent' : ScopeId} (h : c.scope parent = c.scope' parent') :
    c.Alike (fun scope scope' => c.scope scope = c.scope' scope') (openScope parent)
      (openScope parent') := by
  intro before before' hregistries
  obtain ⟨hscope, hafter⟩ := c.child hregistries h
  exact .ok hscope hafter

/-! ### Fields -/

/-- The name is that of a field that is there in both documents and holds no map entries. -/
def Kept (name : String) : Prop :=
  name ∉ placeNames ∧ name ≠ "entries"

instance (name : String) : Decidable (Kept name) :=
  inferInstanceAs (Decidable (_ ∧ _))

section Fields

variable {path path' : Path} {fields : Fields} {name : String}

theorem get?_kept (h : Kept name) :
    Fields.get? (stripFields c.names fields) name = (fields.get? name).map (strip c.names) :=
  get?_stripFields (fun hname => h.1 (c.names_subset hname)) h.2

theorem get?_entries :
    Fields.get? (stripFields c.names fields) "entries"
      = (fields.get? "entries").map (stripEntries c.names) :=
  get?_stripFields_entries fun hname => absurd (c.names_subset hname) (by decide)

/-- Searching for a field and going on with what is found. -/
theorem alike_search {r : α → α' → Prop} {absent : Import α} {absent' : Import α'}
    {present : Value → Import α} {present' : Value → Import α'} (hname : Kept name)
    (habsent : c.Alike r absent absent')
    (hpresent : ∀ value, fields.get? name = some value →
      c.Alike r (present value) (present' (strip c.names value))) :
    c.Alike r ((fields.get? name).elim absent present)
      ((Fields.get? (stripFields c.names fields) name).elim absent' present') := by
  rw [get?_kept hname]
  cases hget : fields.get? name with
  | none => exact habsent
  | some value => exact hpresent value hget

theorem field_bind_eq (path : Path) (name : String) (fields : Fields) (view : Value → Import α) :
    field path name fields >>= view
      = (fields.get? name).elim (throw (.missingField path name)) view := by
  unfold field
  cases fields.get? name <;> rfl

variable (hpath : c.Places path path')

include hpath

/-- Going on with a field that has to be there. -/
theorem alike_field_bind {r : α → α' → Prop} {view : Value → Import α} {view' : Value → Import α'}
    (hname : Kept name) (h : ∀ value, c.Alike r (view value) (view' (strip c.names value))) :
    c.Alike r (field path name fields >>= view)
      (field path' name (stripFields c.names fields) >>= view') := by
  rw [field_bind_eq, field_bind_eq]
  exact alike_search hname (.throw (hpath (.missingField · name))) fun value _ => h value

theorem alike_stringField (hname : Kept name) :
    c.Alike Eq (stringField path name fields)
      (stringField path' name (stripFields c.names fields)) := by
  refine alike_field_bind hpath hname fun value => ?_
  cases value with
  | string text => exact .pure rfl
  | _ => exact .throw (hpath fun path => .unexpectedShape (path.field name) .string)

theorem alike_numberField (hname : Kept name) :
    c.Alike Eq (numberField path name fields)
      (numberField path' name (stripFields c.names fields)) := by
  refine alike_field_bind hpath hname fun value => ?_
  cases value with
  | number number => exact .pure rfl
  | _ => exact .throw (hpath fun path => .unexpectedShape (path.field name) .number)

theorem alike_boolField (hname : Kept name) :
    c.Alike Eq (boolField path name fields)
      (boolField path' name (stripFields c.names fields)) := by
  refine alike_field_bind hpath hname fun value => ?_
  cases value with
  | bool truth => exact .pure rfl
  | _ => exact .throw (hpath fun path => .unexpectedShape (path.field name) .bool)

theorem alike_optionalString (hname : Kept name) :
    c.Alike Eq (optionalString path name fields)
      (optionalString path' name (stripFields c.names fields)) := by
  unfold optionalString
  rw [get?_kept hname]
  cases fields.get? name with
  | none => exact .pure rfl
  | some value =>
    cases value with
    | null => exact .pure rfl
    | string text => exact .pure rfl
    | _ => exact .throw (hpath fun path => .unexpectedShape (path.field name) .string)

theorem alike_operatorField :
    c.Alike Eq (operatorField path fields) (operatorField path' (stripFields c.names fields)) := by
  refine .bind (alike_stringField hpath (by decide)) fun symbol _ hsymbol => ?_
  subst hsymbol
  cases Operator.ofSymbol? symbol with
  | some op => exact .pure rfl
  | none => exact .throw (hpath fun path => .unknownOperator (path.field "op") symbol)

omit hpath in
theorem strings?_strip (names : List String) (items : List Value) :
    strings? (stripItems names items) = strings? items := by
  induction items with
  | nil => rfl
  | cons item items ih =>
    cases item with
    | string text => exact congrArg (Option.map (text :: ·)) ih
    | _ => rfl

theorem alike_paramsField :
    c.Alike Eq (paramsField path fields) (paramsField path' (stripFields c.names fields)) := by
  unfold paramsField
  rw [get?_kept (by decide)]
  cases fields.get? "params" with
  | none => exact .pure rfl
  | some value =>
    cases value with
    | null => exact .pure rfl
    | array items =>
      simp only [Option.map_some, strip, strings?_strip]
      cases strings? items with
      | some params => exact .pure rfl
      | none =>
        exact .throw (hpath fun path => .unexpectedShape (path.field "params") .parameterNames)
    | _ => exact .throw (hpath fun path => .unexpectedShape (path.field "params") .array)

end Fields

/-! ### Fields that hold nodes -/

/-- The value is read alike as an expression, wherever it stands. -/
def Reads (c : Comparison) (value : Value) : Prop :=
  ∀ {path path' : Path} {scope scope' : ScopeId}, c.Places path path' →
    c.scope scope = c.scope' scope' →
    c.Alike (fun e e' => e.relocate c.handle c.scope = e'.relocate c.handle' c.scope')
      (readExpr path scope value) (readExpr path' scope' (strip c.names value))

section Nodes

variable {path path' : Path} {scope scope' : ScopeId} {fields : Fields} {name : String}
  {values : List Value} {index : Nat}
  (hpath : c.Places path path') (hscope : c.scope scope = c.scope' scope')

include hpath hscope

theorem alike_readField (hname : Kept name)
    (h : ∀ value, fields.get? name = some value → c.Reads value) :
    c.Alike (fun e e' => e.relocate c.handle c.scope = e'.relocate c.handle' c.scope')
      (readField path scope name fields)
      (readField path' scope' name (stripFields c.names fields)) := by
  rw [search_eq (r := readField path scope name) rfl fun key value fields => by rw [readField],
    search_eq (r := readField path' scope' name) rfl fun key value fields => by rw [readField]]
  refine alike_search hname (.throw (hpath (.missingField · name))) fun value hget => ?_
  exact h value hget (hpath.field name) hscope

theorem alike_readReceiver (h : ∀ value, fields.get? "receiver" = some value → c.Reads value) :
    c.Alike (fun e e' => relocateReceiver c.handle c.scope e
        = relocateReceiver c.handle' c.scope' e')
      (readReceiver path scope fields)
      (readReceiver path' scope' (stripFields c.names fields)) := by
  rw [search_eq (r := readReceiver path scope) rfl fun key value fields =>
      readReceiver.eq_def path scope ((key, value) :: fields),
    search_eq (r := readReceiver path' scope') rfl fun key value fields =>
      readReceiver.eq_def path' scope' ((key, value) :: fields)]
  refine alike_search (by decide) (.pure rfl) fun value hget => ?_
  have hread := h value hget (hpath.field "receiver") hscope
  -- null stands for a receiver that is missing
  cases value with
  | null => exact .pure rfl
  | _ => exact hread.bind fun e e' he => .pure (congrArg some he)

omit hscope in
/-- A reader that asks for an array under a name, which has to be there. -/
theorem alike_array {r : α → α → Prop} (readAll : Path → ScopeId → List Value → Import α)
    {reader : Path → ScopeId → Fields → Import α}
    (hnil : ∀ path scope, reader path scope [] = throw (.missingField path name))
    (hcons : ∀ path scope key value fields, reader path scope ((key, value) :: fields) =
      if key = name then
        match value with
        | .array values => readAll (path.field name) scope values
        | _ => throw (.unexpectedShape (path.field name) .array)
      else reader path scope fields)
    (hname : Kept name)
    (h : ∀ values, fields.get? name = some (.array values) →
      c.Alike r (readAll (path.field name) scope values)
        (readAll (path'.field name) scope' (stripItems c.names values))) :
    c.Alike r (reader path scope fields) (reader path' scope' (stripFields c.names fields)) := by
  rw [search_eq (hnil path scope) (hcons path scope),
    search_eq (hnil path' scope') (hcons path' scope')]
  refine alike_search hname (.throw (hpath (.missingField · name))) fun value hget => ?_
  cases value with
  | array values => exact h values hget
  | _ => exact .throw (hpath fun path => .unexpectedShape (path.field name) .array)

theorem alike_readExprs (h : ∀ value ∈ values, c.Reads value) :
    c.Alike (fun es es' => relocateExprs c.handle c.scope es
        = relocateExprs c.handle' c.scope' es')
      (readExprs path scope index values)
      (readExprs path' scope' index (stripItems c.names values)) := by
  induction values generalizing index with
  | nil => exact .pure rfl
  | cons value values ih =>
    obtain ⟨hfirst, hrest⟩ := List.forall_mem_cons.mp h
    rw [stripItems, readExprs, readExprs]
    refine (hfirst (hpath.item index) hscope).bind fun e e' he => ?_
    refine (ih hrest).bind fun es es' hes => .pure ?_
    exact congrArg₂ List.cons he hes

theorem alike_readChunks (h : ∀ value ∈ values, c.Reads value) :
    c.Alike (fun chunks chunks' => relocateChunks c.handle c.scope chunks
        = relocateChunks c.handle' c.scope' chunks')
      (readChunks path scope index values)
      (readChunks path' scope' index (stripItems c.names values)) := by
  induction values generalizing index with
  | nil => exact .pure rfl
  | cons value values ih =>
    obtain ⟨hfirst, hrest⟩ := List.forall_mem_cons.mp h
    have hread := hfirst (hpath.item index) hscope
    rw [stripItems, readChunks.eq_def, readChunks.eq_def path']
    -- a string is text, and everything else has to be an expression
    cases value with
    | string text =>
      refine (ih hrest).bind fun chunks chunks' hchunks => .pure ?_
      exact congrArg (Chunk.text text :: ·) hchunks
    | _ =>
      refine hread.bind fun e e' he => (ih hrest).bind fun chunks chunks' hchunks => .pure ?_
      exact congrArg₂ (fun e chunks => Chunk.interpolation e :: chunks) he hchunks

theorem alike_readItems
    (h : ∀ values, fields.get? "items" = some (.array values) → ∀ value ∈ values, c.Reads value) :
    c.Alike (fun es es' => relocateExprs c.handle c.scope es
        = relocateExprs c.handle' c.scope' es')
      (readItems path scope fields) (readItems path' scope' (stripFields c.names fields)) := by
  refine alike_array hpath (readExprs · · 0) (fun _ _ => rfl)
    (fun path scope key value fields => readItems.eq_def path scope ((key, value) :: fields))
    (by decide) fun values hget => ?_
  exact alike_readExprs (hpath.field "items") hscope (h values hget)

theorem alike_readParts
    (h : ∀ values, fields.get? "parts" = some (.array values) → ∀ value ∈ values, c.Reads value) :
    c.Alike (fun chunks chunks' => relocateChunks c.handle c.scope chunks
        = relocateChunks c.handle' c.scope' chunks')
      (readParts path scope fields) (readParts path' scope' (stripFields c.names fields)) := by
  refine alike_array hpath (readChunks · · 0) (fun _ _ => rfl)
    (fun path scope key value fields => readParts.eq_def path scope ((key, value) :: fields))
    (by decide) fun values hget => ?_
  exact alike_readChunks (hpath.field "parts") hscope (h values hget)

theorem alike_readValues (h : ∀ key value, (key, value) ∈ fields → c.Reads value) :
    c.Alike (fun entries entries' => relocateEntries c.handle c.scope entries
        = relocateEntries c.handle' c.scope' entries')
      (readValues path scope fields)
      (readValues path' scope' (stripValues c.names fields)) := by
  induction fields with
  | nil => exact .pure rfl
  | cons field fields ih =>
    obtain ⟨key, value⟩ := field
    have hrest := ih fun key value hmem => h key value (List.mem_cons_of_mem _ hmem)
    rw [stripValues, readValues, readValues]
    refine (h key value List.mem_cons_self (hpath.field key) hscope).bind fun e e' he => ?_
    refine hrest.bind fun entries entries' hentries => .pure ?_
    exact congrArg₂ (fun e entries => Entry.mk key e :: entries) he hentries

/-- The entries of a map are the one field in which no names are taken out. -/
theorem alike_readEntries
    (h : ∀ entries, fields.get? "entries" = some (.object entries) →
      ∀ key value, (key, value) ∈ entries → c.Reads value) :
    c.Alike (fun entries entries' => relocateEntries c.handle c.scope entries
        = relocateEntries c.handle' c.scope' entries')
      (readEntries path scope fields)
      (readEntries path' scope' (stripFields c.names fields)) := by
  rw [search_eq (r := readEntries path scope) rfl fun key value fields =>
      readEntries.eq_def path scope ((key, value) :: fields),
    search_eq (r := readEntries path' scope') rfl fun key value fields =>
      readEntries.eq_def path' scope' ((key, value) :: fields), get?_entries]
  cases hget : fields.get? "entries" with
  | none => exact .throw (hpath (.missingField · "entries"))
  | some value =>
    cases value with
    | object entries => exact alike_readValues (hpath.field "entries") hscope (h entries hget)
    | _ => exact .throw (hpath fun path => .unexpectedShape (path.field "entries") .object)

theorem alike_readArgs
    (h : ∀ values, fields.get? "args" = some (.array values) → ∀ value ∈ values, c.Reads value) :
    c.Alike (fun es es' => relocateExprs c.handle c.scope es
        = relocateExprs c.handle' c.scope' es')
      (readArgs path scope fields) (readArgs path' scope' (stripFields c.names fields)) := by
  rw [search_eq (r := readArgs path scope) rfl fun key value fields =>
      readArgs.eq_def path scope ((key, value) :: fields),
    search_eq (r := readArgs path' scope') rfl fun key value fields =>
      readArgs.eq_def path' scope' ((key, value) :: fields)]
  refine alike_search (by decide) (.pure rfl) fun value hget => ?_
  cases value with
  | array values => exact alike_readExprs (hpath.field "args") hscope (h values hget)
  | _ => exact .throw (hpath fun path => .unexpectedShape (path.field "args") .array)

end Nodes

end Comparison

/-! ### Statements -/

/-- Reads a statement. -/
def readStmt (path : Path) (scope : ScopeId) : Value → Import Stmt
  | .object fields => do
    let loc ← noteLocation fields
    let label ← optionalString path "label" fields
    let kind ← stringField path "kind" fields
    let expr ← readField path scope "expr" fields
    match stmtReturns? kind with
    | none => throw (.unknownStatement path kind)
    | some returns => return ⟨returns, loc, label, expr⟩
  | _ => throw (.unexpectedShape path .object)

/-- Statements are read one after another. -/
theorem readStmts_cons (path : Path) (scope : ScopeId) (index : Nat) (value : Value)
    (values : List Value) :
    readStmts path scope index (value :: values) = (do
      let stmt ← readStmt (path.item index) scope value
      let stmts ← readStmts path scope (index + 1) values
      return stmt :: stmts) := by
  cases value with
  | object fields =>
    rw [readStmts, readStmt]
    -- but for the nesting of the steps both sides are the same
    simp only [bind_assoc]
    refine bind_congr fun loc => bind_congr fun label => bind_congr fun kind =>
      bind_congr fun expr => ?_
    cases stmtReturns? kind with
    | none => rfl
    | some returns => rfl
  | _ => rfl

namespace Comparison

variable {c : Comparison} {path path' : Path} {scope scope' : ScopeId} {fields : Fields}
  {values : List Value} {index : Nat}

section Nodes

variable (hpath : c.Places path path') (hscope : c.scope scope = c.scope' scope')

include hpath hscope

/-- A statement is read alike if its expression is. -/
theorem alike_readStmt_of_reads {value : Value}
    (h : ∀ part, part.Inside value → c.Reads part) :
    c.Alike (fun s s' => s.relocate c.handle c.scope = s'.relocate c.handle' c.scope')
      (readStmt path scope value) (readStmt path' scope' (strip c.names value)) := by
  cases value with
  | object fields =>
    refine (alike_noteLocation fields).bind fun loc loc' hloc => ?_
    refine (alike_optionalString hpath (by decide)).bind fun label label' hlabel => ?_
    refine (alike_stringField hpath (by decide)).bind fun kind kind' hkind => ?_
    subst hlabel hkind
    refine (alike_readField hpath hscope (by decide) fun part hpart =>
      h part (Value.inside_of_get? hpart)).bind fun e e' he => ?_
    cases stmtReturns? kind with
    | none => exact .throw (hpath (.unknownStatement · kind))
    | some returns => exact .pure (congrArg₂ (Stmt.mk returns · label) hloc he)
  | _ => exact .throw (hpath (.unexpectedShape · .object))

theorem alike_readStmts (h : ∀ value ∈ values, ∀ part, part.Inside value → c.Reads part) :
    c.Alike (fun ss ss' => relocateStmts c.handle c.scope ss
        = relocateStmts c.handle' c.scope' ss')
      (readStmts path scope index values)
      (readStmts path' scope' index (stripItems c.names values)) := by
  induction values generalizing index with
  | nil => exact .pure rfl
  | cons value values ih =>
    obtain ⟨hfirst, hrest⟩ := List.forall_mem_cons.mp h
    rw [stripItems, readStmts_cons, readStmts_cons]
    refine (alike_readStmt_of_reads (hpath.item index) hscope hfirst).bind fun s s' hs => ?_
    refine (ih hrest).bind fun ss ss' hss => .pure ?_
    rw [relocateStmts_eq, relocateStmts_eq] at hss ⊢
    exact congrArg₂ List.cons hs hss

theorem alike_readBody (h : ∀ part, part.Inside (.object fields) → c.Reads part) :
    c.Alike (fun ss ss' => relocateStmts c.handle c.scope ss
        = relocateStmts c.handle' c.scope' ss')
      (readBody path scope fields) (readBody path' scope' (stripFields c.names fields)) := by
  refine alike_array hpath (readStmts · · 0) (fun _ _ => rfl)
    (fun path scope key value fields => readBody.eq_def path scope ((key, value) :: fields))
    (by decide) fun values hget => ?_
  refine alike_readStmts (hpath.field "statements") hscope fun value hvalue part hpart => h part ?_
  exact hpart.trans (.trans (.item hvalue) (Value.inside_of_get? hget))

/-! ### Expressions -/

theorem alike_readKind (h : ∀ part, part.Inside (.object fields) → c.Reads part)
    {loc loc' : Handle} (hloc : c.handle loc = c.handle' loc') (kind : Kind) :
    c.Alike (fun e e' => e.relocate c.handle c.scope = e'.relocate c.handle' c.scope')
      (readKind path scope fields loc kind)
      (readKind path' scope' (stripFields c.names fields) loc' kind) := by
  -- what is in a field, and what is in the array in a field, lies inside the object
  have hfield : ∀ name value, fields.get? name = some value → c.Reads value :=
    fun name value hget => h value (Value.inside_of_get? hget)
  have hitems : ∀ name values, fields.get? name = some (.array values) →
      ∀ value ∈ values, c.Reads value :=
    fun name values hget value hvalue => h value (.trans (.item hvalue) (Value.inside_of_get? hget))
  cases kind with
  | str =>
    refine (alike_stringField hpath (by decide)).bind fun value value' hvalue => .pure ?_
    exact congrArg₂ (fun loc value => Expr.literal loc (.text value)) hloc hvalue
  | num =>
    refine (alike_numberField hpath (by decide)).bind fun value value' hvalue => .pure ?_
    exact congrArg₂ (fun loc value => Expr.literal loc (.number value)) hloc hvalue
  | bool =>
    refine (alike_boolField hpath (by decide)).bind fun value value' hvalue => .pure ?_
    exact congrArg₂ (fun loc value => Expr.literal loc (.bool value)) hloc hvalue
  | null => exact .pure (congrArg (Expr.literal · .null) hloc)
  | gstring =>
    refine (alike_readParts hpath hscope (hitems "parts")).bind
      fun chunks chunks' hchunks => .pure ?_
    exact congrArg₂ Expr.gstring hloc hchunks
  | var =>
    refine (alike_stringField hpath (by decide)).bind fun name name' hname => .pure ?_
    exact congrArg₂ Expr.var hloc hname
  | property =>
    refine (alike_readField hpath hscope (by decide) (hfield "target")).bind
      fun target target' htarget => ?_
    refine (alike_stringField hpath (by decide)).bind fun name name' hname => .pure ?_
    subst hname
    exact congrArg₂ (Expr.property · · name) hloc htarget
  | call =>
    refine (alike_readReceiver hpath hscope (hfield "receiver")).bind
      fun receiver receiver' hreceiver => ?_
    refine (alike_stringField hpath (by decide)).bind fun method method' hmethod => ?_
    refine (alike_readArgs hpath hscope (hitems "args")).bind fun args args' hargs => .pure ?_
    subst hmethod
    rw [Expr.relocate, Expr.relocate, hloc, hreceiver, hargs]
  | map =>
    refine (alike_readEntries hpath hscope fun entries hget key value hmem => ?_).bind
      fun entries entries' hentries => .pure ?_
    · exact h value (.trans (.field hmem) (Value.inside_of_get? hget))
    · exact congrArg₂ Expr.map hloc hentries
  | list =>
    refine (alike_readItems hpath hscope (hitems "items")).bind fun items items' hitems => .pure ?_
    exact congrArg₂ Expr.list hloc hitems
  | binary =>
    refine (alike_operatorField hpath).bind fun op op' hop => ?_
    refine (alike_readField hpath hscope (by decide) (hfield "left")).bind
      fun left left' hleft => ?_
    refine (alike_readField hpath hscope (by decide) (hfield "right")).bind
      fun right right' hright => .pure ?_
    subst hop
    rw [Expr.relocate, Expr.relocate, hloc, hleft, hright]
  | closure =>
    refine (alike_paramsField hpath).bind fun params params' hparams => ?_
    -- the statements are read in the scopes that are opened here
    refine (alike_openScope hscope).bind fun inner inner' hinner => ?_
    refine (alike_readBody hpath hinner h).bind fun stmts stmts' hstmts => ?_
    subst hparams
    have hbody : Block.relocate c.handle c.scope ⟨inner, stmts⟩
        = Block.relocate c.handle' c.scope' ⟨inner', stmts'⟩ := congrArg₂ Block.mk hinner hstmts
    cases params with
    | nil => exact .pure (congrArg₂ Expr.thunk hloc hbody)
    | cons param params => exact .pure (congrArg₂ (Expr.closure · (param :: params)) hloc hbody)

end Nodes

/-- **Corresponding values are read alike** as expressions, wherever they stand. -/
theorem alike_readExpr (c : Comparison) (value : Value) : c.Reads value := by
  induction value using Value.inductionOnInside with
  | value value ih =>
    intro path path' scope scope' hpath hscope
    cases value with
    | object fields =>
      rw [strip, readExpr_object, readExpr_object]
      refine (alike_noteLocation fields).bind fun loc loc' hloc => ?_
      refine (alike_stringField hpath (by decide)).bind fun name name' hname => ?_
      subst hname
      -- both have the same kind, and what is inside them is read alike by induction
      cases Kind.ofName? name with
      | none => exact .throw (hpath (.unknownExpression · name))
      | some kind => exact alike_readKind hpath hscope ih hloc kind
    | _ => exact .throw (hpath (.unexpectedShape · .object))

/-- **Corresponding values are read alike** as statements. -/
theorem alike_readStmt (hpath : c.Places path path') (hscope : c.scope scope = c.scope' scope')
    (value : Value) :
    c.Alike (fun s s' => s.relocate c.handle c.scope = s'.relocate c.handle' c.scope')
      (readStmt path scope value) (readStmt path' scope' (strip c.names value)) :=
  alike_readStmt_of_reads hpath hscope fun part _ => c.alike_readExpr part

/-- **Corresponding values are read alike** as documents. -/
theorem alike_documentOf (hroot : c.Places .root .root)
    (hscope : c.scope Scopes.root = c.scope' Scopes.root) (value : Value) :
    c.Alike (fun document document' => document.source = document'.source ∧
        document.body.relocate c.handle c.scope = document'.body.relocate c.handle' c.scope')
      (documentOf value) (documentOf (strip c.names value)) := by
  cases value with
  | object fields =>
    refine (alike_optionalString hroot (by decide)).bind fun source source' hsource => ?_
    refine (alike_readBody hroot hscope fun part _ => c.alike_readExpr part).bind
      fun stmts stmts' hstmts => .pure ⟨hsource, ?_⟩
    exact congrArg₂ Block.mk hscope hstmts
  | _ => exact .throw (hroot (.unexpectedShape · .object))

end Comparison

end FlowDesugar.Interchange
