import FlowDesugar.Tree.Walk

/-!
# The children of an expression

`Expr.children` lists the immediate sub-expressions of an expression in the order in which a walk
meets them, and `Expr.withChildren` puts others into their places. Everything else about the node
stays: its kind, location, names, texts, keys, parameters, scope, and the kinds, locations and
labels of its statements.

* `Expr.withChildren_children` and `Expr.children_withChildren` — the two laws of getting and
  putting back;
* `Expr.walk_eq_mapM` — a walk applies its function to the children, one after another, and puts the
  results back;
* `Expr.inductionOnChildren` — what holds of an expression whenever it holds of its children holds
  of every expression. Proofs about whole trees go by this induction, so that the ten kinds of
  expressions are told apart only in the facts about one node.
-/

namespace FlowDesugar

/-- The interpolated expression of a piece of a string. -/
def Chunk.expr? : Chunk → Option Expr
  | .text _ => none
  | .interpolation expr => some expr

/-- The pieces of a string, with other expressions interpolated. -/
def refillChunks : List Chunk → List Expr → List Chunk
  | .text value :: chunks, exprs => .text value :: refillChunks chunks exprs
  | .interpolation _ :: chunks, expr :: exprs => .interpolation expr :: refillChunks chunks exprs
  | chunks, _ => chunks

/-- The same entry with another value. -/
def Entry.withValue (entry : Entry) (value : Expr) : Entry :=
  { entry with value }

namespace Block

/-- The expressions of the statements of a block. -/
def children (block : Block) : List Expr :=
  block.stmts.map Stmt.expr

/-- The same block with other expressions in its statements. -/
def withChildren (block : Block) (exprs : List Expr) : Block :=
  { block with stmts := block.stmts.zipWith Stmt.withExpr exprs }

end Block

namespace Expr

/-- The immediate sub-expressions, from left to right. -/
def children : Expr → List Expr
  | literal _ _ => []
  | gstring _ chunks => chunks.filterMap Chunk.expr?
  | var _ _ => []
  | property _ target _ => [target]
  | call _ receiver _ args => receiver.toList ++ args
  | map _ entries => entries.map Entry.value
  | list _ items => items
  | binary _ _ left right => [left, right]
  | closure _ _ body => body.children
  | thunk _ body => body.children

/-- The same node with other immediate sub-expressions, of which there have to be as many. -/
def withChildren : Expr → List Expr → Expr
  | gstring loc chunks, exprs => gstring loc (refillChunks chunks exprs)
  | property loc _ name, [target] => property loc target name
  | call loc none method _, args => call loc none method args
  | call loc (some _) method _, receiver :: args => call loc (some receiver) method args
  | map loc entries, values => map loc (entries.zipWith Entry.withValue values)
  | list loc _, items => list loc items
  | binary loc op _ _, [left, right] => binary loc op left right
  | closure loc params body, exprs => closure loc params (body.withChildren exprs)
  | thunk loc body, exprs => thunk loc (body.withChildren exprs)
  | expr, _ => expr

end Expr

/-! ### Getting and putting back -/

@[simp] theorem interpolated_text (value : String) (chunks : List Chunk) :
    (Chunk.text value :: chunks).filterMap Chunk.expr? = chunks.filterMap Chunk.expr? := rfl

@[simp] theorem interpolated_interpolation (expr : Expr) (chunks : List Chunk) :
    (Chunk.interpolation expr :: chunks).filterMap Chunk.expr?
      = expr :: chunks.filterMap Chunk.expr? := rfl

theorem Stmt.withExpr_self (stmt : Stmt) : stmt.withExpr stmt.expr = stmt := by
  cases stmt; rfl

theorem Entry.withValue_self (entry : Entry) : entry.withValue entry.value = entry := by
  cases entry; rfl

theorem refillChunks_filterMap (chunks : List Chunk) :
    refillChunks chunks (chunks.filterMap Chunk.expr?) = chunks := by
  induction chunks with
  | nil => rfl
  | cons chunk chunks ih =>
    cases chunk with
    | text value => rw [interpolated_text, refillChunks, ih]
    | interpolation expr => rw [interpolated_interpolation, refillChunks, ih]

theorem filterMap_refillChunks (chunks : List Chunk) (exprs : List Expr)
    (h : exprs.length = (chunks.filterMap Chunk.expr?).length) :
    (refillChunks chunks exprs).filterMap Chunk.expr? = exprs := by
  induction chunks generalizing exprs with
  | nil => exact (List.length_eq_zero_iff.mp h).symm
  | cons chunk chunks ih =>
    cases chunk with
    | text value =>
      -- a text takes none of the expressions
      rw [refillChunks, interpolated_text]
      exact ih exprs h
    | interpolation expr =>
      cases exprs with
      | nil => simp at h
      | cons e exprs =>
        rw [interpolated_interpolation, List.length_cons, List.length_cons] at h
        rw [refillChunks, interpolated_interpolation, ih exprs (Nat.succ.inj h)]

/-- Setting a component of every item of a list to what it is changes nothing. -/
private theorem zipWith_set_get {α β : Type} {get : α → β} {set : α → β → α}
    (hset : ∀ a, set a (get a) = a) (as : List α) : as.zipWith set (as.map get) = as := by
  induction as with
  | nil => rfl
  | cons a as ih => rw [List.map_cons, List.zipWith_cons_cons, hset, ih]

/-- What was set in every item of a list is found there. -/
private theorem map_get_zipWith_set {α β : Type} {get : α → β} {set : α → β → α}
    (hget : ∀ a b, get (set a b) = b) (as : List α) (bs : List β) (h : bs.length = as.length) :
    (as.zipWith set bs).map get = bs := by
  induction as generalizing bs with
  | nil => exact (List.length_eq_zero_iff.mp h).symm
  | cons a as ih =>
    cases bs with
    | nil => simp at h
    | cons b bs =>
      rw [List.zipWith_cons_cons, List.map_cons, hget, ih bs (Nat.succ.inj h)]

namespace Block

theorem withChildren_children (block : Block) : block.withChildren block.children = block := by
  cases block with
  | mk scope stmts => rw [children, withChildren, zipWith_set_get Stmt.withExpr_self]

theorem children_withChildren (block : Block) (exprs : List Expr)
    (h : exprs.length = block.children.length) : (block.withChildren exprs).children = exprs := by
  rw [children, List.length_map] at h
  exact map_get_zipWith_set (fun _ _ => rfl) block.stmts exprs h

end Block

namespace Expr

theorem withChildren_children (e : Expr) : e.withChildren e.children = e := by
  cases e with
  | literal loc value => rfl
  | gstring loc chunks => rw [children, withChildren, refillChunks_filterMap]
  | var loc name => rfl
  | property loc target name => rfl
  | call loc receiver method args => cases receiver <;> rfl
  | map loc entries => rw [children, withChildren, zipWith_set_get Entry.withValue_self]
  | list loc items => rfl
  | binary loc op left right => rfl
  | closure loc params body => rw [children, withChildren, body.withChildren_children]
  | thunk loc body => rw [children, withChildren, body.withChildren_children]

theorem children_withChildren (e : Expr) (exprs : List Expr)
    (h : exprs.length = e.children.length) : (e.withChildren exprs).children = exprs := by
  -- `withChildren` looks at how many expressions there are, which `h` settles for every kind
  cases e with
  | literal loc value => exact (List.length_eq_zero_iff.mp h).symm
  | gstring loc chunks => exact filterMap_refillChunks chunks exprs h
  | var loc name => exact (List.length_eq_zero_iff.mp h).symm
  | property loc target name =>
    obtain ⟨e, rfl⟩ := List.length_eq_one_iff.mp h
    rfl
  | call loc receiver method args =>
    cases receiver with
    | none => rfl
    | some receiver =>
      cases exprs with
      | nil => simp [children] at h
      | cons e exprs => rfl
  | map loc entries =>
    rw [children, List.length_map] at h
    exact map_get_zipWith_set (fun _ _ => rfl) entries exprs h
  | list loc items => rfl
  | binary loc op left right =>
    match exprs, h with
    | [_, _], _ => rfl
  | closure loc params body => exact body.children_withChildren exprs h
  | thunk loc body => exact body.children_withChildren exprs h

end Expr

/-! ### Walks -/

section Walk

variable {m : Type → Type} [Monad m] [LawfulMonad m]

private theorem mapM_chunkWalk (f : Expr → m Expr) (chunks : List Chunk) :
    chunks.mapM (Chunk.walk f)
      = refillChunks chunks <$> (chunks.filterMap Chunk.expr?).mapM f := by
  induction chunks with
  | nil => simp [refillChunks]
  | cons chunk chunks ih =>
    cases chunk <;> simp [Chunk.walk, refillChunks, ih]

/-- Updating a component of every item with effects: the components are gone through first and set
afterwards. -/
private theorem mapM_update {α : Type} (get : α → Expr) (set : α → Expr → α) (f : Expr → m Expr)
    (as : List α) :
    as.mapM (fun a => set a <$> f (get a)) = as.zipWith set <$> (as.map get).mapM f := by
  induction as with
  | nil => simp
  | cons a as ih => simp [ih]

private theorem mapM_entryWalk (f : Expr → m Expr) (entries : List Entry) :
    entries.mapM (Entry.walk f)
      = entries.zipWith Entry.withValue <$> (entries.map Entry.value).mapM f := by
  rw [← mapM_update]
  refine congrArg entries.mapM (funext fun entry => ?_)
  rw [Entry.walk, bind_pure_comp]
  rfl

theorem Block.walk_eq_mapM (f : Expr → m Expr) (block : Block) :
    block.walk f = block.withChildren <$> block.children.mapM f := by
  have h := mapM_update Stmt.expr Stmt.withExpr f block.stmts
  simp only [Block.walk, bind_pure_comp]
  rw [h, Block.children, Functor.map_map]
  rfl

/-- **A walk visits the children.** It applies its function to each, from left to right, and puts
the results back. -/
theorem Expr.walk_eq_mapM (f : Expr → m Expr) (e : Expr) :
    e.walk f = e.withChildren <$> e.children.mapM f := by
  -- Where the number of children is fixed, both sides compute. The other kinds walk a list, for
  -- which the results come in first and are set in the node afterwards.
  cases e with
  | literal loc value => simp [walk, children, withChildren]
  | gstring loc chunks =>
    simp only [walk, children, bind_pure_comp, mapM_chunkWalk, Functor.map_map]
    rfl
  | var loc name => simp [walk, children, withChildren]
  | property loc target name => simp [walk, children, withChildren]
  | call loc receiver method args =>
    cases receiver with
    | none =>
      simp only [walk, walkReceiver, children, pure_bind, bind_pure_comp, Option.toList_none,
        List.nil_append]
      rfl
    | some receiver => simp [walk, walkReceiver, children, withChildren]
  | map loc entries =>
    simp only [walk, children, bind_pure_comp, mapM_entryWalk, Functor.map_map]
    rfl
  | list loc items =>
    simp only [walk, children, bind_pure_comp]
    rfl
  | binary loc op left right => simp [walk, children, withChildren]
  | closure loc params body =>
    simp only [walk, children, bind_pure_comp, Block.walk_eq_mapM, Functor.map_map]
    rfl
  | thunk loc body =>
    simp only [walk, children, bind_pure_comp, Block.walk_eq_mapM, Functor.map_map]
    rfl

end Walk

/-! ### Induction over trees -/

namespace Expr

theorem sizeOf_lt_of_mem_block {body : Block} {c : Expr} (h : c ∈ body.children) :
    sizeOf c < sizeOf body := by
  obtain ⟨stmt, hmem, rfl⟩ := List.mem_map.mp h
  have hstmt : sizeOf stmt < sizeOf body.stmts := List.sizeOf_lt_of_mem hmem
  cases stmt; cases body
  simp only [Stmt.mk.sizeOf_spec, Block.mk.sizeOf_spec] at hstmt ⊢
  omega

theorem sizeOf_lt_of_mem_children {e c : Expr} (h : c ∈ e.children) : sizeOf c < sizeOf e := by
  -- every kind says where in the node the child was found
  cases e with
  | literal loc value => simp [children] at h
  | gstring loc chunks =>
    obtain ⟨chunk, hmem, hchunk⟩ := List.mem_filterMap.mp h
    have hlt := List.sizeOf_lt_of_mem hmem
    cases chunk with
    | text value => cases hchunk
    | interpolation expr =>
      obtain rfl : expr = c := Option.some.inj hchunk
      simp only [Chunk.interpolation.sizeOf_spec, gstring.sizeOf_spec] at hlt ⊢
      omega
  | var loc name => simp [children] at h
  | property loc target name =>
    obtain rfl : c = target := by simpa [children] using h
    simp only [property.sizeOf_spec]
    omega
  | call loc receiver method args =>
    rw [call.sizeOf_spec]
    rcases List.mem_append.mp h with h | h
    · obtain rfl : receiver = some c := by simpa [eq_comm] using h
      simp only [Option.some.sizeOf_spec]
      omega
    · have hlt := List.sizeOf_lt_of_mem h
      omega
  | map loc entries =>
    obtain ⟨entry, hmem, rfl⟩ := List.mem_map.mp h
    have hlt := List.sizeOf_lt_of_mem hmem
    cases entry
    simp only [Entry.mk.sizeOf_spec, map.sizeOf_spec] at hlt ⊢
    omega
  | list loc items =>
    have hlt : sizeOf c < sizeOf items := List.sizeOf_lt_of_mem h
    rw [list.sizeOf_spec]
    omega
  | binary loc op left right =>
    rw [binary.sizeOf_spec]
    obtain rfl | rfl : c = left ∨ c = right := by simpa [children] using h
    all_goals omega
  | closure loc params body =>
    have hlt := sizeOf_lt_of_mem_block h
    rw [closure.sizeOf_spec]
    omega
  | thunk loc body =>
    have hlt := sizeOf_lt_of_mem_block h
    rw [thunk.sizeOf_spec]
    omega

/-- **Induction over trees.** What passes from the children of a node to the node holds of every
expression. -/
theorem inductionOnChildren {motive : Expr → Prop}
    (node : ∀ e, (∀ c ∈ e.children, motive c) → motive e) (e : Expr) : motive e :=
  node e fun c hc =>
    have _smaller := sizeOf_lt_of_mem_children hc
    inductionOnChildren node c
termination_by sizeOf e

end Expr

end FlowDesugar
