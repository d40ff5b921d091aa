import FlowDesugar.Proofs.Parts
import FlowDesugar.Proofs.Reading

/-!
# Where what was read comes from

`ReadFrom value e` says that a value is read as an expression, wherever that happens. A list that is
read goes item by item, so that every item has something that was read from it and everything that
was read has an item it comes from (`Paired`). One half serves to look from a document at the tree
that it is read as, the other to look back.
-/

namespace FlowDesugar.Interchange

open Json (Value Fields Path)

/-- The value is read as the expression, somewhere and from some registry. -/
def ReadFrom (value : Value) (e : Expr) : Prop :=
  ∃ path scope before after, (readExpr path scope value).run before = .ok (e, after)

/-- The part of a string is read as the chunk. -/
inductive ChunkFrom : Value → Chunk → Prop
  | text (text : String) : ChunkFrom (.string text) (.text text)
  | interpolation {value : Value} {e : Expr} : ReadFrom value e → ChunkFrom value (.interpolation e)

/-- The value is an object that is read as the statement. -/
inductive StmtFrom : Value → Stmt → Prop
  | stmt {fields : Fields} {name : String} {value : Value} {stmt : Stmt} :
    OptionalText fields "label" stmt.label →
    fields.get? "kind" = some (.string name) → stmtReturns? name = some stmt.returns →
    fields.get? "expr" = some value → ReadFrom value stmt.expr →
    StmtFrom (.object fields) stmt

/-- Everything in either list is related to something in the other. -/
structure Paired {α β : Type} (r : α → β → Prop) (as : List α) (bs : List β) : Prop where
  forth : ∀ a ∈ as, ∃ b ∈ bs, r a b
  back : ∀ b ∈ bs, ∃ a ∈ as, r a b

namespace Paired

variable {α β : Type} {r : α → β → Prop} {a : α} {b : β} {as : List α} {bs : List β}

theorem nil : Paired r [] [] :=
  ⟨nofun, nofun⟩

theorem cons (hfirst : r a b) (h : Paired r as bs) : Paired r (a :: as) (b :: bs) where
  forth := by
    refine List.forall_mem_cons.mpr ⟨⟨b, List.mem_cons_self, hfirst⟩, fun a' ha' => ?_⟩
    obtain ⟨b', hb', hr⟩ := h.forth a' ha'
    exact ⟨b', List.mem_cons_of_mem _ hb', hr⟩
  back := by
    refine List.forall_mem_cons.mpr ⟨⟨a, List.mem_cons_self, hfirst⟩, fun b' hb' => ?_⟩
    obtain ⟨a', ha', hr⟩ := h.back b' hb'
    exact ⟨a', List.mem_cons_of_mem _ ha', hr⟩

end Paired

variable {path : Path} {scope : ScopeId} {fields : Fields} {before after : Registry} {index : Nat}
  {values : List Value}

theorem paired_of_readExprs {es : List Expr}
    (h : (readExprs path scope index values).run before = .ok (es, after)) :
    Paired ReadFrom values es := by
  induction values generalizing index before es with
  | nil =>
    obtain ⟨rfl, -⟩ := Import.run_pure_eq_ok.mp h
    exact .nil
  | cons value values ih =>
    obtain ⟨e, es, middle, rfl, he, hes⟩ := readExprs_cons_eq_ok.mp h
    exact .cons ⟨_, _, _, _, he⟩ (ih hes)

theorem paired_of_readChunks {chunks : List Chunk}
    (h : (readChunks path scope index values).run before = .ok (chunks, after)) :
    Paired ChunkFrom values chunks := by
  induction values generalizing index before chunks with
  | nil =>
    obtain ⟨rfl, -⟩ := Import.run_pure_eq_ok.mp h
    exact .nil
  | cons value values ih =>
    obtain ⟨c, cs, middle, rfl, hc, hcs⟩ := readChunks_cons_eq_ok.mp h
    cases hc with
    | text => exact .cons (.text _) (ih hcs)
    | interpolation he => exact .cons (.interpolation ⟨_, _, _, _, he⟩) (ih hcs)

theorem paired_of_readValues {entries : List Entry}
    (h : (readValues path scope fields).run before = .ok (entries, after)) :
    Paired (fun field entry => ReadFrom field.2 entry.value) fields entries := by
  induction fields generalizing before entries with
  | nil =>
    obtain ⟨rfl, -⟩ := Import.run_pure_eq_ok.mp h
    exact .nil
  | cons field fields ih =>
    obtain ⟨e, es, middle, rfl, he, hes⟩ := readValues_cons_eq_ok.mp h
    exact .cons ⟨_, _, _, _, he⟩ (ih hes)

theorem paired_of_readStmts {stmts : List Stmt}
    (h : (readStmts path scope index values).run before = .ok (stmts, after)) :
    Paired StmtFrom values stmts := by
  induction values generalizing index before stmts with
  | nil =>
    obtain ⟨rfl, -⟩ := Import.run_pure_eq_ok.mp h
    exact .nil
  | cons value values ih =>
    obtain ⟨fields, s, ss, middle, rfl, rfl, hs, hss⟩ := readStmts_cons_eq_ok.mp h
    obtain ⟨name, hname, hreturns⟩ := hs.kind
    obtain ⟨noted, -, hfield⟩ := hs.expr
    obtain ⟨part, hget, hread⟩ := readField_eq_ok.mp hfield
    exact .cons (.stmt hs.label hname hreturns hget ⟨_, _, _, _, hread⟩) (ih hss)

/-- The entries of a map have the keys of the fields that they are read from. -/
theorem keys_of_readValues {entries : List Entry}
    (h : (readValues path scope fields).run before = .ok (entries, after)) :
    entries.map Entry.key = fields.map Prod.fst := by
  induction fields generalizing before entries with
  | nil =>
    obtain ⟨rfl, -⟩ := Import.run_pure_eq_ok.mp h
    rfl
  | cons field fields ih =>
    obtain ⟨key, value⟩ := field
    obtain ⟨e, es, middle, rfl, -, hes⟩ := readValues_cons_eq_ok.mp h
    rw [List.map_cons, List.map_cons, ih hes]

end FlowDesugar.Interchange
