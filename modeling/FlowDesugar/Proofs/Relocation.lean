import FlowDesugar.Tree.Basic

/-!
# Trees up to handles and scopes

Two trees that say the same can differ in their handles and scopes, which are numbers into arenas of
their own. `Expr.relocate` puts other handles and scopes into a tree. `Expr.bare` is the tree with
no handles and scopes to speak of: two trees with the same bare tree agree in everything else, that
is, in statements, kinds, labels, values, names, operators, parameters, pieces of strings and the
order of map entries.

`Expr.handles` lists the handles of the statements and expressions of a tree, a node before those
inside it and a statement before its expression. For trees with the same bare tree the two lists go
over the same nodes, so that comparing what the handles stand for compares the nodes one by one.
-/

namespace FlowDesugar

/-! ### Other handles and scopes -/

mutual

/-- The same expression with other handles and scopes. -/
def Expr.relocate (f : Handle → Handle) (g : ScopeId → ScopeId) : Expr → Expr
  | .literal loc value => .literal (f loc) value
  | .gstring loc chunks => .gstring (f loc) (relocateChunks f g chunks)
  | .var loc name => .var (f loc) name
  | .property loc target name => .property (f loc) (target.relocate f g) name
  | .call loc receiver method args =>
    .call (f loc) (relocateReceiver f g receiver) method (relocateExprs f g args)
  | .map loc entries => .map (f loc) (relocateEntries f g entries)
  | .list loc items => .list (f loc) (relocateExprs f g items)
  | .binary loc op left right => .binary (f loc) op (left.relocate f g) (right.relocate f g)
  | .closure loc params body => .closure (f loc) params (body.relocate f g)
  | .thunk loc body => .thunk (f loc) (body.relocate f g)

/-- The same pieces of a string with other handles and scopes. -/
def relocateChunks (f : Handle → Handle) (g : ScopeId → ScopeId) : List Chunk → List Chunk
  | [] => []
  | .text value :: chunks => .text value :: relocateChunks f g chunks
  | .interpolation expr :: chunks => .interpolation (expr.relocate f g) :: relocateChunks f g chunks

/-- The same receiver with other handles and scopes. -/
def relocateReceiver (f : Handle → Handle) (g : ScopeId → ScopeId) : Option Expr → Option Expr
  | none => none
  | some receiver => some (receiver.relocate f g)

/-- The same expressions with other handles and scopes. -/
def relocateExprs (f : Handle → Handle) (g : ScopeId → ScopeId) : List Expr → List Expr
  | [] => []
  | expr :: exprs => expr.relocate f g :: relocateExprs f g exprs

/-- The same entries of a map with other handles and scopes. -/
def relocateEntries (f : Handle → Handle) (g : ScopeId → ScopeId) : List Entry → List Entry
  | [] => []
  | ⟨key, value⟩ :: entries => ⟨key, value.relocate f g⟩ :: relocateEntries f g entries

/-- The same statements with other handles and scopes. -/
def relocateStmts (f : Handle → Handle) (g : ScopeId → ScopeId) : List Stmt → List Stmt
  | [] => []
  | ⟨returns, loc, label, expr⟩ :: stmts =>
    ⟨returns, f loc, label, expr.relocate f g⟩ :: relocateStmts f g stmts

/-- The same block with other handles and scopes. -/
def Block.relocate (f : Handle → Handle) (g : ScopeId → ScopeId) : Block → Block
  | ⟨scope, stmts⟩ => ⟨g scope, relocateStmts f g stmts⟩

end

/-- The expression without handles, with every block in the root scope. -/
def Expr.bare (e : Expr) : Expr :=
  e.relocate (fun _ => .unknown) (fun _ => Scopes.root)

/-- The block without handles, with it and every block inside in the root scope. -/
def Block.bare (block : Block) : Block :=
  block.relocate (fun _ => .unknown) (fun _ => Scopes.root)

/-! ### The handles of a tree -/

mutual

/-- The handles of an expression and of the statements and expressions inside it. -/
def Expr.handles : Expr → List Handle
  | .literal loc _ => [loc]
  | .gstring loc chunks => loc :: handlesInChunks chunks
  | .var loc _ => [loc]
  | .property loc target _ => loc :: target.handles
  | .call loc receiver _ args => loc :: (handlesInReceiver receiver ++ handlesInExprs args)
  | .map loc entries => loc :: handlesInEntries entries
  | .list loc items => loc :: handlesInExprs items
  | .binary loc _ left right => loc :: (left.handles ++ right.handles)
  | .closure loc _ body => loc :: body.handles
  | .thunk loc body => loc :: body.handles

/-- The handles inside the interpolations of a string. -/
def handlesInChunks : List Chunk → List Handle
  | [] => []
  | .text _ :: chunks => handlesInChunks chunks
  | .interpolation expr :: chunks => expr.handles ++ handlesInChunks chunks

/-- The handles inside a receiver. -/
def handlesInReceiver : Option Expr → List Handle
  | none => []
  | some receiver => receiver.handles

/-- The handles inside a list of expressions. -/
def handlesInExprs : List Expr → List Handle
  | [] => []
  | expr :: exprs => expr.handles ++ handlesInExprs exprs

/-- The handles inside the values of a map. -/
def handlesInEntries : List Entry → List Handle
  | [] => []
  | ⟨_, value⟩ :: entries => value.handles ++ handlesInEntries entries

/-- The handles of statements and of the expressions inside them. -/
def handlesInStmts : List Stmt → List Handle
  | [] => []
  | ⟨_, loc, _, expr⟩ :: stmts => loc :: (expr.handles ++ handlesInStmts stmts)

/-- The handles of the statements and expressions of a block. -/
def Block.handles : Block → List Handle
  | ⟨_, stmts⟩ => handlesInStmts stmts

end

end FlowDesugar
