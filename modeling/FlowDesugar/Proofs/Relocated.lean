import FlowDesugar.Proofs.Failure
import FlowDesugar.Proofs.Preorder

/-!
# Desugaring does not look at handles and scopes

Handles and scopes are carried along and copied, but nothing that is done to a tree depends on them.
So whatever is computed from a tree commutes with `Expr.relocate`, for any functions on handles and
scopes: they need not be injective, and may forget everything.

The facts go from the inside out, as the pass does:

* the parts of one node: its children, its body and what kind of node it is;
* the definitions of a tree (`Expr.definitions_relocate`) and putting calls in their places
  (`Expr.fill_relocate`);
* the canonical form of a declaration (`Expr.canonicalize_relocate`), and the sections and the
  script of a body (`Block.declared_relocate`, `Block.scriptProblem?_relocate`);
* the parts of a definition (`Definition.inner?_relocate`, `Definition.problem?_relocate`).

Two functions on handles, and two on scopes, that agree on what occurs in a tree relocate it alike
(`Expr.relocate_congr`).
-/

namespace FlowDesugar

/-- The same statement with other handles and scopes. -/
def Stmt.relocate (f : Handle → Handle) (g : ScopeId → ScopeId) (stmt : Stmt) : Stmt :=
  ⟨stmt.returns, f stmt.loc, stmt.label, stmt.expr.relocate f g⟩

/-- The same definition with other handles and scopes. -/
def Definition.relocate (f : Handle → Handle) (g : ScopeId → ScopeId) (d : Definition) :
    Definition :=
  ⟨f d.loc, d.keyword, d.args.map (Expr.relocate f g)⟩

/-- The same problem at another handle. -/
def ScriptError.relocate (f : Handle → Handle) : ScriptError → ScriptError
  | noScript loc => noScript (f loc)
  | emptyDefinition loc => emptyDefinition (f loc)
  | missingBody loc name => missingBody (f loc) name

namespace ScriptError

theorem relocate_id (error : ScriptError) : error.relocate id = error := by
  cases error <;> rfl

theorem loc_relocate (f : Handle → Handle) (error : ScriptError) :
    (error.relocate f).loc = f error.loc := by
  cases error <;> rfl

theorem message_relocate (f : Handle → Handle) (error : ScriptError) :
    (error.relocate f).message = error.message := by
  cases error <;> rfl

end ScriptError

section Relocate

variable {f : Handle → Handle} {g : ScopeId → ScopeId}

/-! ### One node -/

theorem relocateExprs_eq (es : List Expr) : relocateExprs f g es = es.map (Expr.relocate f g) := by
  induction es with
  | nil => rfl
  | cons e es ih => rw [relocateExprs, ih, List.map_cons]

theorem relocateReceiver_eq (receiver : Option Expr) :
    relocateReceiver f g receiver = receiver.map (Expr.relocate f g) := by
  cases receiver <;> rfl

theorem relocateStmts_eq (stmts : List Stmt) :
    relocateStmts f g stmts = stmts.map (Stmt.relocate f g) := by
  induction stmts with
  | nil => rfl
  | cons stmt stmts ih =>
    cases stmt
    rw [relocateStmts, ih, List.map_cons]
    rfl

theorem relocateChunks_eq (chunks : List Chunk) :
    relocateChunks f g chunks
      = refillChunks chunks ((chunks.filterMap Chunk.expr?).map (Expr.relocate f g)) := by
  induction chunks with
  | nil => rfl
  | cons chunk chunks ih =>
    cases chunk with
    | text value => rw [relocateChunks, interpolated_text, refillChunks, ih]
    | interpolation e =>
      rw [relocateChunks, interpolated_interpolation, List.map_cons, refillChunks, ih]

theorem refillChunks_relocate (chunks : List Chunk) (es : List Expr) :
    relocateChunks f g (refillChunks chunks es)
      = refillChunks (relocateChunks f g chunks) (es.map (Expr.relocate f g)) := by
  induction chunks generalizing es with
  | nil => rfl
  | cons chunk chunks ih =>
    cases chunk with
    | text value => rw [relocateChunks, refillChunks, refillChunks, relocateChunks, ih]
    | interpolation e =>
      cases es with
      | nil => rfl
      | cons e' es =>
        rw [relocateChunks, List.map_cons, refillChunks, refillChunks, relocateChunks, ih]

theorem relocateEntries_eq (entries : List Entry) :
    relocateEntries f g entries
      = entries.map fun entry => entry.withValue (entry.value.relocate f g) := by
  induction entries with
  | nil => rfl
  | cons entry entries ih =>
    cases entry
    rw [relocateEntries, ih, List.map_cons]
    rfl

namespace Block

theorem relocate_eq (block : Block) :
    block.relocate f g = ⟨g block.scope, block.stmts.map (Stmt.relocate f g)⟩ := by
  cases block
  rw [relocate, relocateStmts_eq]

@[simp] theorem scope_relocate (block : Block) : (block.relocate f g).scope = g block.scope := by
  rw [relocate_eq]

@[simp] theorem stmts_relocate (block : Block) :
    (block.relocate f g).stmts = block.stmts.map (Stmt.relocate f g) := by
  rw [relocate_eq]

theorem children_relocate (block : Block) :
    (block.relocate f g).children = block.children.map (Expr.relocate f g) := by
  unfold children
  rw [stmts_relocate, List.map_map, List.map_map]
  rfl

theorem withChildren_relocate (block : Block) (es : List Expr) :
    (block.withChildren es).relocate f g
      = (block.relocate f g).withChildren (es.map (Expr.relocate f g)) := by
  rw [relocate_eq, relocate_eq, withChildren, withChildren, List.map_zipWith, List.zipWith_map]
  rfl

end Block

namespace Expr

@[simp] theorem isMap_relocate (e : Expr) : (e.relocate f g).isMap = e.isMap := by
  cases e <;> rfl

@[simp] theorem isThunk_relocate (e : Expr) : (e.relocate f g).isThunk = e.isThunk := by
  cases e <;> rfl

@[simp] theorem isTextual_relocate (e : Expr) : (e.relocate f g).isTextual = e.isTextual := by
  cases e with
  | literal loc value => cases value <;> rfl
  | _ => rfl

theorem children_relocate (e : Expr) :
    (e.relocate f g).children = e.children.map (relocate f g) := by
  cases e with
  | literal loc value => rfl
  | gstring loc chunks =>
    rw [relocate, children, children, relocateChunks_eq,
      filterMap_refillChunks _ _ (List.length_map _)]
  | var loc name => rfl
  | property loc target name => rfl
  | call loc receiver method args =>
    rw [relocate, children, children, relocateReceiver_eq, relocateExprs_eq, Option.toList_map,
      List.map_append]
  | map loc entries =>
    rw [relocate, children, children, relocateEntries_eq, List.map_map, List.map_map]
    rfl
  | list loc items => exact relocateExprs_eq items
  | binary loc op left right => rfl
  | closure loc params body => exact body.children_relocate
  | thunk loc body => exact body.children_relocate

theorem withChildren_relocate (e : Expr) (es : List Expr) :
    (e.withChildren es).relocate f g
      = (e.relocate f g).withChildren (es.map (relocate f g)) := by
  -- `withChildren` looks at the number of expressions, which stays the same
  cases e with
  | literal loc value => rfl
  | gstring loc chunks => exact congrArg _ (refillChunks_relocate chunks es)
  | var loc name => rfl
  | property loc target name => rcases es with _ | ⟨target, _ | _⟩ <;> rfl
  | call loc receiver method args =>
    cases receiver with
    | none => exact congrArg _ (relocateExprs_eq es)
    | some receiver =>
      cases es with
      | nil => rfl
      | cons e es => exact congrArg _ (relocateExprs_eq es)
  | map loc entries =>
    rw [relocate, withChildren, withChildren, relocate, relocateEntries_eq, relocateEntries_eq,
      List.map_zipWith, List.zipWith_map]
    rfl
  | list loc items => exact congrArg _ (relocateExprs_eq es)
  | binary loc op left right => rcases es with _ | ⟨left, _ | ⟨right, _ | _⟩⟩ <;> rfl
  | closure loc params body => exact congrArg _ (body.withChildren_relocate es)
  | thunk loc body => exact congrArg _ (body.withChildren_relocate es)

end Expr

/-! ### Relocation by what occurs in a tree -/

namespace Expr

theorem handles_child {e c : Expr} (h : c ∈ e.children) : c.handles ⊆ e.handles := by
  intro handle hhandle
  cases hbody : e.body? with
  | some body =>
    rw [children_of_some hbody] at h
    obtain ⟨stmt, hstmt, rfl⟩ := List.mem_map.mp h
    rw [handles_of_some hbody, body.handles_eq_stmts]
    refine List.mem_cons_of_mem _ (List.mem_flatMap.mpr ⟨stmt, hstmt, ?_⟩)
    exact List.mem_cons_of_mem _ hhandle
  | none =>
    rw [handles_of_none hbody]
    exact List.mem_cons_of_mem _ (List.mem_flatMap.mpr ⟨c, h, hhandle⟩)

theorem loc_mem_handles (e : Expr) : e.loc ∈ e.handles := by
  cases hbody : e.body? with
  | some body =>
    rw [handles_of_some hbody]
    exact List.mem_cons_self
  | none =>
    rw [handles_of_none hbody]
    exact List.mem_cons_self

theorem nested_child {e c : Expr} (h : c ∈ e.children) : c.nested ⊆ e.nested := by
  intro block hblock
  cases hbody : e.body? with
  | some body =>
    rw [children_of_some hbody] at h
    rw [nested_of_some hbody, body.nested_eq_children]
    exact List.mem_cons_of_mem _ (List.mem_flatMap.mpr ⟨c, h, hblock⟩)
  | none =>
    rw [nested_of_none hbody]
    exact List.mem_flatMap.mpr ⟨c, h, hblock⟩

end Expr

/-- A body relocates alike if its scope and the handles of its statements do, and if its
expressions do. -/
private theorem relocate_body_congr {f' : Handle → Handle} {g' : ScopeId → ScopeId} {body : Block}
    (hscope : g body.scope = g' body.scope) (hlocs : ∀ stmt ∈ body.stmts, f stmt.loc = f' stmt.loc)
    (hexprs : ∀ e ∈ body.children, e.relocate f g = e.relocate f' g') :
    body.relocate f g = body.relocate f' g' := by
  have hstmts : body.stmts.map (Stmt.relocate f g) = body.stmts.map (Stmt.relocate f' g') := by
    refine List.map_congr_left fun stmt hstmt => ?_
    unfold Stmt.relocate
    rw [hlocs stmt hstmt, hexprs stmt.expr (List.mem_map_of_mem hstmt)]
  rw [Block.relocate_eq, Block.relocate_eq, hscope, hstmts]

/-- **Functions that agree** on the handles and the scopes of a tree relocate it alike. -/
theorem Expr.relocate_congr {f' : Handle → Handle} {g' : ScopeId → ScopeId} {e : Expr}
    (hf : ∀ handle ∈ e.handles, f handle = f' handle)
    (hg : ∀ block ∈ e.nested, g block.scope = g' block.scope) :
    e.relocate f g = e.relocate f' g' := by
  induction e using inductionOnChildren with
  | node e ih =>
    have hloc : f e.loc = f' e.loc := hf e.loc e.loc_mem_handles
    have hchildren : ∀ c ∈ e.children, c.relocate f g = c.relocate f' g' := by
      intro c hc
      refine ih c hc (fun handle hhandle => ?_) (fun block hblock => ?_)
      · exact hf handle (handles_child hc hhandle)
      · exact hg block (nested_child hc hblock)
    have hbody : ∀ body, e.body? = some body → body.relocate f g = body.relocate f' g' := by
      intro body hbody
      refine relocate_body_congr ?_ (fun stmt hstmt => hf stmt.loc ?_) ?_
      · refine hg body ?_
        rw [nested_of_some hbody]
        exact body.mem_nested_self
      · rw [handles_of_some hbody, body.handles_eq_stmts]
        refine List.mem_cons_of_mem _ (List.mem_flatMap.mpr ⟨stmt, hstmt, ?_⟩)
        exact List.mem_cons_self
      · rw [← children_of_some hbody]
        exact hchildren
    cases e with
    | literal loc value => exact congrArg (literal · value) hloc
    | gstring loc chunks =>
      have hparts : (chunks.filterMap Chunk.expr?).map (relocate f g)
          = (chunks.filterMap Chunk.expr?).map (relocate f' g') := List.map_congr_left hchildren
      rw [relocate, relocate, relocateChunks_eq, relocateChunks_eq, hparts]
      exact congrArg (gstring · _) hloc
    | var loc name => exact congrArg (var · name) hloc
    | property loc target name =>
      rw [relocate, relocate, hchildren target List.mem_cons_self]
      exact congrArg (property · _ name) hloc
    | call loc receiver method args =>
      have hreceiver : receiver.map (relocate f g) = receiver.map (relocate f' g') := by
        cases receiver with
        | none => rfl
        | some receiver => exact congrArg some (hchildren receiver List.mem_cons_self)
      have hargs : args.map (relocate f g) = args.map (relocate f' g') :=
        List.map_congr_left fun arg harg => hchildren arg (List.mem_append_right _ harg)
      rw [relocate, relocate, relocateReceiver_eq, relocateReceiver_eq, relocateExprs_eq,
        relocateExprs_eq, hreceiver, hargs]
      exact congrArg (call · _ method _) hloc
    | map loc entries =>
      have hentries : relocateEntries f g entries = relocateEntries f' g' entries := by
        rw [relocateEntries_eq, relocateEntries_eq]
        refine List.map_congr_left fun entry hentry => ?_
        rw [hchildren entry.value (List.mem_map_of_mem hentry)]
      rw [relocate, relocate, hentries]
      exact congrArg (map · _) hloc
    | list loc items =>
      have hitems : items.map (relocate f g) = items.map (relocate f' g') :=
        List.map_congr_left hchildren
      rw [relocate, relocate, relocateExprs_eq, relocateExprs_eq, hitems]
      exact congrArg (list · _) hloc
    | binary loc op left right =>
      rw [relocate, relocate, hchildren left List.mem_cons_self,
        hchildren right (List.mem_cons_of_mem _ List.mem_cons_self)]
      exact congrArg (binary · op _ _) hloc
    | closure loc params body =>
      rw [relocate, relocate, hbody body rfl]
      exact congrArg (closure · params _) hloc
    | thunk loc body =>
      rw [relocate, relocate, hbody body rfl]
      exact congrArg (thunk · _) hloc

theorem Block.relocate_congr {f' : Handle → Handle} {g' : ScopeId → ScopeId} {block : Block}
    (hf : ∀ handle ∈ block.handles, f handle = f' handle)
    (hg : ∀ b ∈ block.nested, g b.scope = g' b.scope) :
    block.relocate f g = block.relocate f' g' := by
  rw [block.handles_eq_stmts] at hf
  refine relocate_body_congr (hg block block.mem_nested_self) (fun stmt hstmt => ?_) ?_
  · exact hf stmt.loc (List.mem_flatMap.mpr ⟨stmt, hstmt, List.mem_cons_self⟩)
  · refine List.forall_mem_map.mpr fun stmt hstmt => ?_
    refine Expr.relocate_congr (fun handle hhandle => hf handle ?_) fun b hb => hg b ?_
    · exact List.mem_flatMap.mpr ⟨stmt, hstmt, List.mem_cons_of_mem _ hhandle⟩
    · rw [block.nested_eq_children]
      refine List.mem_cons_of_mem _ (List.mem_flatMap.mpr ⟨stmt.expr, ?_, hb⟩)
      exact List.mem_map_of_mem hstmt

/-! ### The definitions of a tree -/

namespace Expr

variable {keywords : Keywords}

theorem definition?_relocate (e : Expr) :
    (e.relocate f g).definition? keywords
      = (e.definition? keywords).map (Definition.relocate f g) := by
  cases e with
  | call loc receiver method args =>
    cases receiver with
    | none =>
      rw [relocate, relocateReceiver, definition?, definition?, relocateExprs_eq]
      by_cases hk : keywords.contains method
      · rw [if_pos hk, if_pos hk]
        rfl
      · rw [if_neg hk, if_neg hk]
        rfl
    | some receiver => rfl
  | _ => rfl

/-- **The definitions of a relocated tree** are those of the tree, relocated. -/
theorem definitions_relocate (e : Expr) :
    (e.relocate f g).definitions keywords
      = (e.definitions keywords).map (Definition.relocate f g) := by
  induction e using inductionOnChildren with
  | node e ih =>
    have hdef : (e.relocate f g).definition? keywords = _ := e.definition?_relocate
    cases h : e.definition? keywords with
    | some d =>
      rw [h] at hdef
      rw [definitions_of_some h, definitions_of_some hdef]
      rfl
    | none =>
      rw [h] at hdef
      rw [definitions_of_none h, definitions_of_none hdef, children_relocate, List.flatMap_map,
        List.map_flatMap]
      exact List.flatMap_congr ih

theorem fillEach_relocate {es : List Expr}
    (h : ∀ e ∈ es, ∀ calls, (e.fill keywords calls).relocate f g
      = (e.relocate f g).fill keywords (calls.map (relocate f g))) (calls : List Expr) :
    (fillEach keywords es calls).map (relocate f g)
      = fillEach keywords (es.map (relocate f g)) (calls.map (relocate f g)) := by
  induction es generalizing calls with
  | nil => rfl
  | cons e es ih =>
    obtain ⟨hfirst, hrest⟩ := List.forall_mem_cons.mp h
    -- the calls are dealt out alike, since there are as many definitions
    have hcount : ((e.relocate f g).definitions keywords).length
        = (e.definitions keywords).length := by
      rw [definitions_relocate, List.length_map]
    change (e.fill keywords (calls.take (e.definitions keywords).length)).relocate f g
        :: (fillEach keywords es (calls.drop (e.definitions keywords).length)).map (relocate f g)
      = (e.relocate f g).fill keywords
          ((calls.map (relocate f g)).take ((e.relocate f g).definitions keywords).length)
        :: fillEach keywords (es.map (relocate f g))
          ((calls.map (relocate f g)).drop ((e.relocate f g).definitions keywords).length)
    rw [hcount, hfirst, ih hrest, List.map_take, List.map_drop]

/-- **Putting calls in the places of definitions** commutes with relocation. -/
theorem fill_relocate (e : Expr) (calls : List Expr) :
    (e.fill keywords calls).relocate f g
      = (e.relocate f g).fill keywords (calls.map (relocate f g)) := by
  induction e using inductionOnChildren generalizing calls with
  | node e ih =>
    have hdef : (e.relocate f g).definition? keywords = _ := e.definition?_relocate
    cases h : e.definition? keywords with
    | some d =>
      rw [h] at hdef
      rw [fill, h, fill, hdef]
      cases calls <;> rfl
    | none =>
      rw [h] at hdef
      rw [fill_of_none h, fill_of_none hdef, withChildren_relocate, children_relocate,
        fillEach_relocate ih]

end Expr

namespace Block

variable {keywords : Keywords}

theorem definitions_relocate (block : Block) :
    (block.relocate f g).definitions keywords
      = (block.definitions keywords).map (Definition.relocate f g) := by
  unfold definitions
  rw [children_relocate, List.flatMap_map, List.map_flatMap]
  exact List.flatMap_congr fun e _ => e.definitions_relocate

theorem fill_relocate (block : Block) (calls : List Expr) :
    (block.fill keywords calls).relocate f g
      = (block.relocate f g).fill keywords (calls.map (Expr.relocate f g)) := by
  unfold fill
  rw [withChildren_relocate, Expr.fillEach_relocate fun e _ => e.fill_relocate, children_relocate]

end Block

/-! ### Declarations -/

theorem optionCount_relocate (args : List Expr) :
    optionCount (args.map (Expr.relocate f g)) = optionCount args := by
  cases args with
  | nil => rfl
  | cons arg args => rw [List.map_cons, optionCount, optionCount, Expr.isMap_relocate]

theorem Encoding.apply_relocate (encoding : Encoding) (arg : Expr) :
    encoding.apply (arg.relocate f g) = (encoding.apply arg).map (Expr.relocate f g) := by
  cases encoding with
  | untouched => rfl
  | name => cases arg <;> rfl
  | flagged => cases arg <;> rfl

theorem Rule.encodeArgs_relocate (rule : Rule) (args : List Expr) :
    rule.encodeArgs (args.map (Expr.relocate f g))
      = (rule.encodeArgs args).map (Expr.relocate f g) := by
  have hindex : rule.treatment.slot.index (args.map (Expr.relocate f g))
      = rule.treatment.slot.index args := by
    cases rule.treatment.slot with
    | first => rfl
    | afterOptions => exact optionCount_relocate args
  unfold encodeArgs Encoding.applyAt
  rw [hindex, List.getElem?_map]
  cases args[rule.treatment.slot.index args]? with
  | none => rfl
  | some arg =>
    simp only [Option.map_some, Encoding.apply_relocate, List.map_append, List.map_take,
      List.map_drop]

/-- **The canonical form of a declaration** commutes with relocation. -/
theorem Expr.canonicalize_relocate (inside : Section) (e : Expr) :
    (e.canonicalize inside).relocate f g = (e.relocate f g).canonicalize inside := by
  induction e using inductionOnChildren with
  | node e ih =>
    cases e with
    | call loc receiver method args =>
      have hreceiver : relocateReceiver f g (canonicalizeReceiver inside receiver)
          = canonicalizeReceiver inside (relocateReceiver f g receiver) := by
        cases receiver with
        | none => rfl
        | some receiver =>
          rw [canonicalizeReceiver, relocateReceiver, relocateReceiver, canonicalizeReceiver,
            ih receiver List.mem_cons_self]
      have hcomponents : (canonicalizeComponents inside args).map (relocate f g)
          = canonicalizeComponents inside (args.map (relocate f g)) := by
        rw [canonicalizeComponents_eq, canonicalizeComponents_eq, List.map_map, List.map_map]
        exact List.map_congr_left fun arg harg => ih arg (List.mem_append_right _ harg)
      rw [relocate, canonicalize, canonicalize, relocateExprs_eq]
      -- the rule is found by the name of the method, which stays
      cases Rule.find? inside method with
      | none => simp only [relocate, relocateExprs_eq, hreceiver]
      | some rule =>
        cases htreatment : rule.treatment with
        | components =>
          simp only [htreatment, relocate, relocateExprs_eq, hreceiver, hcomponents]
        | encode encoding slot =>
          simp only [htreatment, relocate, relocateExprs_eq, hreceiver, rule.encodeArgs_relocate]
    | _ => rfl

theorem Section.rewrite_relocate (inside : Section) (e : Expr) :
    (inside.rewrite e).relocate f g = inside.rewrite (e.relocate f g) := by
  unfold Section.rewrite
  split
  · exact e.canonicalize_relocate inside
  · rfl

/-! ### Sections and scripts -/

theorem Section.effective_relocate (stmts : List Stmt) (i : Nat) :
    effective (stmts.map (Stmt.relocate f g)) i = effective stmts i := by
  have hlabels : nearestLabel? (stmts.map (Stmt.relocate f g)) i = nearestLabel? stmts i := by
    unfold nearestLabel?
    rw [← List.map_take, List.filterMap_map]
    rfl
  unfold effective
  rw [hlabels]

theorem Section.sectioned_relocate (stmts : List Stmt) :
    sectioned (stmts.map (Stmt.relocate f g))
      = (sectioned stmts).map fun p => (p.1, p.2.relocate f g) := by
  refine List.ext_getElem? fun i => ?_
  rw [sectioned, sectioned, List.getElem?_mapIdx, List.getElem?_map, List.getElem?_map,
    List.getElem?_mapIdx, effective_relocate]
  cases stmts[i]? <;> rfl

theorem Section.script_relocate (stmts : List Stmt) :
    script (stmts.map (Stmt.relocate f g)) = (script stmts).map (Stmt.relocate f g) := by
  unfold script
  rw [sectioned_relocate, List.filter_map, List.map_map, List.map_map]
  rfl

namespace Block

/-- **The declarations of a body** commute with relocation. -/
theorem declared_relocate (block : Block) :
    (block.relocate f g).declared = block.declared.map (Stmt.relocate f g) := by
  unfold declared Section.retained
  rw [stmts_relocate, Section.sectioned_relocate, List.filter_map, List.map_map, List.map_map]
  refine List.map_congr_left fun p _ => ?_
  simp only [Function.comp_apply, Stmt.relocate, Section.rewrite_relocate]

theorem getLast?_relocate (block : Block) :
    (block.relocate f g).stmts.getLast? = block.stmts.getLast?.map (Stmt.relocate f g) := by
  rw [stmts_relocate, List.getLast?_map]

theorem scriptProblem?_relocate (definition : Handle) (block : Block) :
    (block.relocate f g).scriptProblem? (f definition)
      = (block.scriptProblem? definition).map (ScriptError.relocate f) := by
  unfold scriptProblem?
  rw [getLast?_relocate, stmts_relocate, Section.script_relocate]
  cases Section.script block.stmts with
  | cons first rest => rfl
  | nil =>
    cases block.stmts.getLast? with
    | none => rfl
    | some last =>
      simp only [List.map_nil, ne_eq, not_true_eq_false, if_false, Option.map_some, Stmt.relocate,
        Expr.isThunk_relocate, Expr.isTextual_relocate]
      split <;> rfl

theorem defersScript_relocate (block : Block) :
    (block.relocate f g).defersScript = block.defersScript := by
  unfold defersScript
  rw [getLast?_relocate, stmts_relocate, Section.script_relocate, List.isEmpty_map,
    Option.any_map]
  congr 2
  funext stmt
  exact stmt.expr.isTextual_relocate

end Block

/-! ### The parts of a definition -/

namespace Definition

theorem withName_relocate (args : List Expr) (name : Expr) :
    (withName args name).map (Expr.relocate f g)
      = withName (args.map (Expr.relocate f g)) (name.relocate f g) := by
  unfold withName
  rw [optionCount_relocate, List.map_append, List.map_cons, List.map_take, List.map_drop]

theorem inner?_relocate (args : List Expr) :
    inner? (args.map (Expr.relocate f g))
      = (inner? args).map fun inner =>
        (f inner.1, inner.2.1, inner.2.2.map (Expr.relocate f g)) := by
  match args with
  | [] => rfl
  | first :: second :: rest =>
    -- only a single argument can be an inner call
    have hnone : ∀ a b : Expr, ∀ l, inner? (a :: b :: l) = none := by
      intro a b l
      unfold inner?
      split <;> simp_all
    rw [List.map_cons, List.map_cons, hnone, hnone]
    rfl
  | [e] =>
    cases e with
    | call loc receiver method args =>
      cases receiver with
      | none => exact congrArg (fun inner => some (f loc, method, inner)) (relocateExprs_eq args)
      | some receiver => rfl
    | _ => rfl

variable (d : Definition)

@[simp] theorem expr_relocate : (d.relocate f g).expr = d.expr.relocate f g := by
  unfold expr relocate
  rw [Expr.relocate, relocateExprs_eq]
  rfl

theorem name?_relocate : (d.relocate f g).name? = d.name? := by
  unfold name? relocate
  rw [inner?_relocate, Option.map_map]
  rfl

theorem wellFormed_relocate : (d.relocate f g).WellFormed ↔ d.WellFormed := by
  rw [wellFormed_iff, wellFormed_iff, relocate, inner?_relocate, Option.isSome_map]

theorem body?_relocate : (d.relocate f g).body? = d.body?.map (Block.relocate f g) := by
  unfold body? relocate
  rw [inner?_relocate]
  cases inner? d.args with
  | none => rfl
  | some inner =>
    obtain ⟨nameLoc, name, inner⟩ := inner
    simp only [Option.map_some, List.getLast?_map]
    cases inner.getLast? with
    | none => rfl
    | some last => cases last <;> rfl

theorem problem?_relocate :
    (d.relocate f g).problem? = d.problem?.map (ScriptError.relocate f) := by
  unfold problem? relocate
  rw [inner?_relocate]
  cases inner? d.args with
  | none => rfl
  | some inner =>
    obtain ⟨nameLoc, name, inner⟩ := inner
    simp only [Option.map_some, List.getLast?_map]
    cases inner.getLast? with
    | none => rfl
    | some last =>
      cases last with
      | thunk loc body => exact body.scriptProblem?_relocate d.loc
      | _ => rfl

theorem opensScope_relocate : (d.relocate f g).opensScope = d.opensScope := by
  unfold opensScope
  rw [body?_relocate, Option.any_map]
  congr 1
  funext block
  exact block.defersScript_relocate

end Definition

end Relocate

end FlowDesugar
