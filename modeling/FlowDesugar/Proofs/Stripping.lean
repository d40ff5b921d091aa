import FlowDesugar.Proofs.Parts
import FlowDesugar.Proofs.Presentation

/-!
# Documents without some fields

`Interchange.strip` takes the fields of some names out of every object of a document. It keeps the
entries of maps, whose keys are no names of fields. A field that is kept is found where it was, with
its value stripped (`Interchange.get?_stripFields`).

`Interchange.unplaced` is the document without lines and columns. Of a document that was written it
leaves what is written if no handle stands for a position
(`Interchange.unplaced_writeDocument`).
-/

namespace FlowDesugar.Interchange

open Json (Value Fields)

mutual

/-- The value without the fields of some names. -/
def strip (names : List String) : Value → Value
  | .array items => .array (stripItems names items)
  | .object fields => .object (stripFields names fields)
  | value => value

/-- The entries of a map, with their values stripped. -/
def stripEntries (names : List String) : Value → Value
  | .object entries => .object (stripValues names entries)
  | value => value

/-- Items, each of them stripped. -/
def stripItems (names : List String) : List Value → List Value
  | [] => []
  | item :: items => strip names item :: stripItems names items

/-- The fields of an object but those of some names. -/
def stripFields (names : List String) : List (String × Value) → List (String × Value)
  | [] => []
  | (key, value) :: fields =>
    if key ∈ names then stripFields names fields
    else if key = "entries" then (key, stripEntries names value) :: stripFields names fields
    else (key, strip names value) :: stripFields names fields

/-- All the fields of an object, with their values stripped. -/
def stripValues (names : List String) : List (String × Value) → List (String × Value)
  | [] => []
  | (key, value) :: fields => (key, strip names value) :: stripValues names fields

end

variable {names : List String}

theorem stripItems_eq (items : List Value) : stripItems names items = items.map (strip names) := by
  induction items with
  | nil => rfl
  | cons item items ih => rw [stripItems, ih, List.map_cons]

/-! ### Fields -/

section Fields

variable {key name : String} {value : Value} {fields : Fields}

theorem stripFields_cons_of_mem (h : key ∈ names) :
    stripFields names ((key, value) :: fields) = stripFields names fields := by
  rw [stripFields, if_pos h]

theorem stripFields_cons (h : key ∉ names) (hentries : key ≠ "entries") :
    stripFields names ((key, value) :: fields)
      = (key, strip names value) :: stripFields names fields := by
  rw [stripFields, if_neg h, if_neg hentries]

theorem stripFields_cons_entries (h : "entries" ∉ names) :
    stripFields names (("entries", value) :: fields)
      = ("entries", stripEntries names value) :: stripFields names fields := by
  rw [stripFields, if_neg h, if_pos rfl]

/-- What is found under a name that is kept. -/
private theorem get?_stripFields_eq (h : name ∉ names) (fields : Fields) :
    Fields.get? (stripFields names fields) name
      = (fields.get? name).map (if name = "entries" then stripEntries names else strip names) := by
  induction fields with
  | nil => rfl
  | cons field fields ih =>
    obtain ⟨key, value⟩ := field
    by_cases hkey : key = name
    · subst hkey
      by_cases hentries : key = "entries"
      · subst hentries
        rw [stripFields_cons_entries h, Fields.get?, if_pos rfl, Fields.get?, if_pos rfl,
          if_pos rfl]
        rfl
      · rw [stripFields_cons h hentries, Fields.get?, if_pos rfl, Fields.get?, if_pos rfl,
          if_neg hentries]
        rfl
    · -- another field is passed over, whether it is kept or not
      rw [Fields.get?, if_neg hkey, ← ih, stripFields.eq_def]
      simp only
      split
      · rfl
      · split
        · rw [Fields.get?, if_neg hkey]
        · rw [Fields.get?, if_neg hkey]

/-- **A field that is kept** is found where it was. -/
theorem get?_stripFields (h : name ∉ names) (hentries : name ≠ "entries") :
    Fields.get? (stripFields names fields) name = (fields.get? name).map (strip names) := by
  rw [get?_stripFields_eq h, if_neg hentries]

theorem get?_stripFields_entries (h : "entries" ∉ names) :
    Fields.get? (stripFields names fields) "entries"
      = (fields.get? "entries").map (stripEntries names) := by
  rw [get?_stripFields_eq h, if_pos rfl]

end Fields

/-! ### No fields -/

private theorem stripValues_nil {entries : Fields}
    (h : ∀ key part, (key, part) ∈ entries → strip [] part = part) :
    stripValues [] entries = entries := by
  induction entries with
  | nil => rfl
  | cons entry entries ih =>
    obtain ⟨key, part⟩ := entry
    have hrest := ih fun key part hmem => h key part (List.mem_cons_of_mem _ hmem)
    rw [stripValues, h key part List.mem_cons_self, hrest]

private theorem stripEntries_nil {value : Value}
    (h : ∀ part, part.Inside value → strip [] part = part) : stripEntries [] value = value := by
  cases value with
  | object entries => rw [stripEntries, stripValues_nil fun key part hmem => h part (.field hmem)]
  | _ => rfl

private theorem stripFields_nil {fields : Fields}
    (h : ∀ key part, (key, part) ∈ fields → strip [] part = part ∧ stripEntries [] part = part) :
    stripFields [] fields = fields := by
  induction fields with
  | nil => rfl
  | cons field fields ih =>
    obtain ⟨key, part⟩ := field
    obtain ⟨hnode, hentries⟩ := h key part List.mem_cons_self
    have hrest := ih fun key part hmem => h key part (List.mem_cons_of_mem _ hmem)
    by_cases hkey : key = "entries"
    · rw [hkey, stripFields_cons_entries List.not_mem_nil, hentries, hrest]
    · rw [stripFields_cons List.not_mem_nil hkey, hnode, hrest]

/-- Taking out no fields changes nothing. -/
theorem strip_nil (value : Value) : strip [] value = value := by
  induction value using Value.inductionOnInside with
  | value value ih =>
    cases value with
    | array items =>
      rw [strip, stripItems_eq, List.map_congr_left fun item hitem => ih item (.item hitem),
        List.map_id']
    | object fields =>
      rw [strip, stripFields_nil fun key part hmem => ⟨ih part (.field hmem), ?_⟩]
      exact stripEntries_nil fun inner hinner => ih inner (.inField hmem hinner)
    | _ => rfl

/-! ### Positions -/

/-- The names of the fields that give the position of a node. -/
def placeNames : List String :=
  ["line", "column"]

/-- The document without lines and columns. -/
def unplaced (value : Value) : Value :=
  strip placeNames value

section Written

variable {map : SourceMap}

theorem position?_empty (handle : Handle) : SourceMap.empty.position? handle = none := by
  cases handle <;> rfl

/-- A written node loses its position. -/
theorem unplaced_node {kind : String} {loc : Handle} {fields fields' : Fields}
    (hfields : stripFields placeNames fields = fields') :
    unplaced (node map kind loc fields) = node .empty kind loc fields' := by
  subst hfields
  have hkind : "kind" ∉ placeNames := by decide
  have hline : "line" ∈ placeNames := by decide
  have hcolumn : "column" ∈ placeNames := by decide
  unfold unplaced node
  rw [strip, position?_empty, List.cons_append, stripFields_cons hkind (by decide)]
  cases map.position? loc with
  | none => rfl
  | some position =>
    exact congrArg (fun fields => Value.object (_ :: fields))
      ((stripFields_cons_of_mem hline).trans (stripFields_cons_of_mem hcolumn))

private theorem unplaced_writeExprs {es : List Expr}
    (h : ∀ e ∈ es, unplaced (writeExpr map e) = writeExpr .empty e) :
    stripItems placeNames (writeExprs map es) = writeExprs .empty es := by
  induction es with
  | nil => rfl
  | cons e es ih =>
    obtain ⟨hfirst, hrest⟩ := List.forall_mem_cons.mp h
    exact congrArg₂ List.cons hfirst (ih hrest)

private theorem unplaced_writeChunks {chunks : List Chunk}
    (h : ∀ e ∈ chunks.filterMap Chunk.expr?, unplaced (writeExpr map e) = writeExpr .empty e) :
    stripItems placeNames (writeChunks map chunks) = writeChunks .empty chunks := by
  induction chunks with
  | nil => rfl
  | cons chunk chunks ih =>
    cases chunk with
    | text value =>
      rw [interpolated_text] at h
      exact congrArg (Value.string value :: ·) (ih h)
    | interpolation e =>
      rw [interpolated_interpolation] at h
      obtain ⟨hfirst, hrest⟩ := List.forall_mem_cons.mp h
      exact congrArg₂ List.cons hfirst (ih hrest)

/-- The entries of a map keep their keys, also those that are called like a field. -/
private theorem unplaced_writeEntries {entries : List Entry}
    (h : ∀ e ∈ entries.map Entry.value, unplaced (writeExpr map e) = writeExpr .empty e) :
    stripValues placeNames (writeEntries map entries) = writeEntries .empty entries := by
  induction entries with
  | nil => rfl
  | cons entry entries ih =>
    obtain ⟨key, value⟩ := entry
    obtain ⟨hfirst, hrest⟩ := List.forall_mem_cons.mp h
    exact congrArg₂ (fun value entries => (key, value) :: entries) hfirst (ih hrest)

private theorem unplaced_writeStmts {stmts : List Stmt}
    (h : ∀ e ∈ stmts.map Stmt.expr, unplaced (writeExpr map e) = writeExpr .empty e) :
    stripItems placeNames (writeStmts map stmts) = writeStmts .empty stmts := by
  induction stmts with
  | nil => rfl
  | cons stmt stmts ih =>
    obtain ⟨returns, loc, label, e⟩ := stmt
    obtain ⟨hfirst, hrest⟩ := List.forall_mem_cons.mp h
    refine congrArg₂ List.cons (unplaced_node ?_) (ih hrest)
    have hexpr : stripFields placeNames [("expr", writeExpr map e)]
        = [("expr", writeExpr .empty e)] := by
      rw [stripFields_cons (by decide) (by decide)]
      exact congrArg (fun value => [("expr", value)]) hfirst
    cases label with
    | none => exact hexpr
    | some label =>
      refine (stripFields_cons (by decide) (by decide)).trans ?_
      exact congrArg (("label", Value.string label) :: ·) hexpr

/-- **A written expression without its positions** is what is written if there are none. -/
theorem unplaced_writeExpr (e : Expr) : unplaced (writeExpr map e) = writeExpr .empty e := by
  induction e using Expr.inductionOnChildren with
  | node e ih =>
    have hbody : ∀ body, e.body? = some body →
        stripItems placeNames (writeBlock map body) = writeBlock .empty body := by
      intro body hbody
      rw [Expr.children_of_some hbody] at ih
      cases body
      exact unplaced_writeStmts ih
    cases e with
    | literal loc value => cases value <;> exact unplaced_node rfl
    | gstring loc chunks =>
      refine unplaced_node ?_
      rw [stripFields_cons (by decide) (by decide), strip, unplaced_writeChunks ih]
      rfl
    | var loc name => exact unplaced_node rfl
    | property loc target name =>
      refine unplaced_node ?_
      have htarget := ih target List.mem_cons_self
      unfold unplaced at htarget
      rw [stripFields_cons (by decide) (by decide), htarget]
      rfl
    | call loc receiver method args =>
      have hargs : stripItems placeNames (writeExprs map args) = writeExprs .empty args :=
        unplaced_writeExprs fun arg harg => ih arg (List.mem_append_right _ harg)
      have hrest : stripFields placeNames
          [("method", Value.string method), ("args", .array (writeExprs map args))]
            = [("method", .string method), ("args", .array (writeExprs .empty args))] := by
        rw [stripFields_cons (by decide) (by decide), stripFields_cons (by decide) (by decide),
          strip, strip, hargs]
        · rfl
        · exact fun _ heq => by cases heq
        · exact fun _ heq => by cases heq
      refine unplaced_node ?_
      cases receiver with
      | none => exact hrest
      | some receiver =>
        have hreceiver := ih receiver List.mem_cons_self
        unfold unplaced at hreceiver
        refine (stripFields_cons (by decide) (by decide)).trans ?_
        rw [hreceiver]
        exact congrArg (("receiver", writeExpr .empty receiver) :: ·) hrest
    | map loc entries =>
      refine unplaced_node ?_
      rw [stripFields_cons_entries (by decide), stripEntries, unplaced_writeEntries ih]
      rfl
    | list loc items =>
      have hitems : stripItems placeNames (writeExprs map items) = writeExprs .empty items :=
        unplaced_writeExprs ih
      refine unplaced_node ?_
      rw [stripFields_cons (by decide) (by decide), strip, hitems]
      rfl
    | binary loc op left right =>
      have hleft := ih left List.mem_cons_self
      have hright := ih right (List.mem_cons_of_mem _ List.mem_cons_self)
      unfold unplaced at hleft hright
      refine unplaced_node ?_
      rw [stripFields_cons (by decide) (by decide), stripFields_cons (by decide) (by decide),
        stripFields_cons (by decide) (by decide), hleft, hright]
      rfl
    | closure loc params body =>
      have hparams : stripItems placeNames (params.map Value.string) = params.map .string := by
        rw [stripItems_eq, List.map_map]
        rfl
      refine unplaced_node ?_
      rw [stripFields_cons (by decide) (by decide), stripFields_cons (by decide) (by decide),
        strip, strip, hparams, hbody body rfl]
      rfl
    | thunk loc body =>
      refine unplaced_node ?_
      rw [stripFields_cons (by decide) (by decide), strip, hbody body rfl]
      rfl

theorem unplaced_writeDocument (source : Option String) (body : Block) :
    unplaced (writeDocument map source body) = writeDocument .empty source body := by
  have hbody : stripFields placeNames [("statements", .array (writeBlock map body))]
      = [("statements", .array (writeBlock .empty body))] := by
    cases body
    rw [stripFields_cons (by decide) (by decide), strip]
    exact congrArg (fun items => [("statements", Value.array items)])
      (unplaced_writeStmts fun e _ => unplaced_writeExpr e)
  unfold unplaced writeDocument
  cases source with
  | none => exact congrArg Value.object hbody
  | some source =>
    refine congrArg Value.object ((stripFields_cons (by decide) (by decide)).trans ?_)
    exact congrArg (("source", Value.string source) :: ·) hbody

end Written

end FlowDesugar.Interchange
