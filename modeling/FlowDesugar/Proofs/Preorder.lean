import FlowDesugar.Proofs.Arenas
import FlowDesugar.Proofs.Blocks
import FlowDesugar.Proofs.Relocation

/-!
# The nodes of a tree in preorder

Statements and expressions are the nodes of a tree. `Node.preorder` lists a node and everything
inside it, a node before what is inside it and a statement before its expression. It knows of a node
only what lies immediately inside (`Node.inner`), so that facts about whole trees go by
`Node.inductionOnInner`.

`Expr.handles` walks the tree in the same order: it is the list of the handles of the nodes
(`Expr.handles_eq`, `Block.handles_eq`).
-/

namespace FlowDesugar

/-- A statement or an expression. -/
inductive Node where
  | stmt (stmt : Stmt)
  | expr (expr : Expr)

namespace Node

/-- The handle of a node. -/
def loc : Node → Handle
  | stmt s => s.loc
  | expr e => e.loc

/-- The nodes immediately inside a node, from left to right: the expression of a statement, the
statements of a closure, and the children of any other expression. -/
def inner : Node → List Node
  | stmt s => [expr s.expr]
  | expr e =>
    match e.body? with
    | some body => body.stmts.map stmt
    | none => e.children.map expr

theorem inner_expr_of_some {e : Expr} {body : Block} (h : e.body? = some body) :
    (expr e).inner = body.stmts.map stmt := by
  rw [inner, h]

theorem inner_expr_of_none {e : Expr} (h : e.body? = none) :
    (expr e).inner = e.children.map expr := by
  rw [inner, h]

private theorem sizeOf_stmts_lt {e : Expr} {body : Block} (h : e.body? = some body) :
    sizeOf body.stmts < sizeOf e := by
  obtain ⟨scope, stmts⟩ := body
  cases e with
  | closure loc params block =>
    obtain rfl := Option.some.inj h
    simp only [Expr.closure.sizeOf_spec, Block.mk.sizeOf_spec]
    omega
  | thunk loc block =>
    obtain rfl := Option.some.inj h
    simp only [Expr.thunk.sizeOf_spec, Block.mk.sizeOf_spec]
    omega
  | _ => cases h

theorem sizeOf_lt_of_mem_inner {node part : Node} (h : part ∈ node.inner) :
    sizeOf part < sizeOf node := by
  cases node with
  | stmt s =>
    obtain rfl := List.mem_singleton.mp h
    cases s
    simp only [stmt.sizeOf_spec, expr.sizeOf_spec, Stmt.mk.sizeOf_spec]
    omega
  | expr e =>
    cases hbody : e.body? with
    | some body =>
      rw [inner_expr_of_some hbody] at h
      obtain ⟨s, hs, rfl⟩ := List.mem_map.mp h
      have hstmt : sizeOf s < sizeOf body.stmts := List.sizeOf_lt_of_mem hs
      have hbelow := sizeOf_stmts_lt hbody
      simp only [stmt.sizeOf_spec, expr.sizeOf_spec]
      omega
    | none =>
      rw [inner_expr_of_none hbody] at h
      obtain ⟨c, hc, rfl⟩ := List.mem_map.mp h
      have hbelow := Expr.sizeOf_lt_of_mem_children hc
      simp only [expr.sizeOf_spec]
      omega

/-- **Induction over nodes.** What passes from the nodes immediately inside a node to the node holds
of every node. -/
theorem inductionOnInner {motive : Node → Prop}
    (node : ∀ n, (∀ part ∈ n.inner, motive part) → motive n) (n : Node) : motive n :=
  node n fun part hpart =>
    have _smaller := sizeOf_lt_of_mem_inner hpart
    inductionOnInner node part
termination_by sizeOf n

/-- A node and the nodes inside it, each before those inside it. -/
def preorder (node : Node) : List Node :=
  node :: node.inner.attach.flatMap fun part => part.val.preorder
termination_by sizeOf node
decreasing_by exact sizeOf_lt_of_mem_inner part.property

theorem preorder_eq (node : Node) : node.preorder = node :: node.inner.flatMap preorder := by
  rw [preorder]
  simp

end Node

/-- The statements of a block and the nodes inside them, each before those inside it. -/
def Block.preorder (block : Block) : List Node :=
  (block.stmts.map Node.stmt).flatMap Node.preorder

/-! ### Handles, node by node -/

private theorem handlesInExprs_eq (es : List Expr) :
    handlesInExprs es = es.flatMap Expr.handles := by
  induction es with
  | nil => rfl
  | cons e es ih => rw [handlesInExprs, ih, List.flatMap_cons]

private theorem handlesInChunks_eq (chunks : List Chunk) :
    handlesInChunks chunks = (chunks.filterMap Chunk.expr?).flatMap Expr.handles := by
  induction chunks with
  | nil => rfl
  | cons chunk chunks ih =>
    cases chunk with
    | text value => rw [handlesInChunks, ih, interpolated_text]
    | interpolation e => rw [handlesInChunks, ih, interpolated_interpolation, List.flatMap_cons]

private theorem handlesInReceiver_eq (receiver : Option Expr) :
    handlesInReceiver receiver = receiver.toList.flatMap Expr.handles := by
  cases receiver with
  | none => rfl
  | some receiver => rw [handlesInReceiver, Option.toList_some, List.flatMap_singleton]

private theorem handlesInEntries_eq (entries : List Entry) :
    handlesInEntries entries = (entries.map Entry.value).flatMap Expr.handles := by
  induction entries with
  | nil => rfl
  | cons entry entries ih =>
    cases entry
    rw [handlesInEntries, ih, List.map_cons, List.flatMap_cons]

/-- The handles of a statement and of the expressions inside it. -/
def Stmt.handles (stmt : Stmt) : List Handle :=
  stmt.loc :: stmt.expr.handles

theorem handlesInStmts_eq (stmts : List Stmt) :
    handlesInStmts stmts = stmts.flatMap Stmt.handles := by
  induction stmts with
  | nil => rfl
  | cons stmt stmts ih =>
    cases stmt
    rw [handlesInStmts, ih, List.flatMap_cons]
    rfl

theorem Block.handles_eq_stmts (block : Block) :
    block.handles = block.stmts.flatMap Stmt.handles := by
  obtain ⟨scope, stmts⟩ := block
  rw [Block.handles, handlesInStmts_eq]

namespace Expr

theorem handles_of_some {e : Expr} {body : Block} (h : e.body? = some body) :
    e.handles = e.loc :: body.handles := by
  cases e with
  | closure loc params block =>
    obtain rfl := Option.some.inj h
    rw [handles]
    rfl
  | thunk loc block =>
    obtain rfl := Option.some.inj h
    rw [handles]
    rfl
  | _ => cases h

theorem handles_of_none {e : Expr} (h : e.body? = none) :
    e.handles = e.loc :: e.children.flatMap handles := by
  cases e with
  | literal loc value => rfl
  | gstring loc chunks => rw [handles, handlesInChunks_eq, children]; rfl
  | var loc name => rfl
  | property loc target name => rw [handles, children, List.flatMap_singleton]; rfl
  | call loc receiver method args =>
    rw [handles, handlesInReceiver_eq, handlesInExprs_eq, children, List.flatMap_append]; rfl
  | map loc entries => rw [handles, handlesInEntries_eq, children]; rfl
  | list loc items => rw [handles, handlesInExprs_eq, children]; rfl
  | binary loc op left right =>
    rw [handles, children, List.flatMap_cons, List.flatMap_singleton]; rfl
  | closure loc params body => cases h
  | thunk loc body => cases h

end Expr

/-- The handles of a node and of the nodes inside it. -/
def Node.handles : Node → List Handle
  | .stmt s => s.handles
  | .expr e => e.handles

/-- The handles of a node are its own and those of the nodes immediately inside it. -/
theorem Node.handles_eq_inner (node : Node) :
    node.handles = node.loc :: node.inner.flatMap Node.handles := by
  cases node with
  | stmt s => rw [inner, List.flatMap_singleton]; rfl
  | expr e =>
    cases h : e.body? with
    | some body =>
      rw [inner_expr_of_some h, List.flatMap_map]
      exact (Expr.handles_of_some h).trans (congrArg _ body.handles_eq_stmts)
    | none =>
      rw [inner_expr_of_none h, List.flatMap_map]
      exact Expr.handles_of_none h

/-- **The handles of a tree** are those of its nodes, in preorder. -/
theorem Node.handles_eq (node : Node) : node.handles = node.preorder.map Node.loc := by
  induction node using inductionOnInner with
  | node node ih =>
    rw [handles_eq_inner, preorder_eq, List.map_cons, List.map_flatMap]
    exact congrArg _ (List.flatMap_congr ih)

theorem Block.handles_eq (block : Block) : block.handles = block.preorder.map Node.loc := by
  rw [handles_eq_stmts, preorder, List.map_flatMap, List.flatMap_map]
  exact List.flatMap_congr fun s _ => (Node.stmt s).handles_eq

end FlowDesugar
