import FlowDesugar.Tree.Basic

/-!
# Walking the children of a node

`Expr.walk` applies a function with effects to every immediate sub-expression of an expression, from
left to right with a receiver before its arguments, and rebuilds the node around the results. For
closures and thunks these are the expressions of the statements of the body. What is not an
expression is kept: locations, names, texts, keys, parameters, scopes and labels.

`Block.nested` lists the blocks of a tree in the order in which such a walk meets them.
-/

namespace FlowDesugar

variable {m : Type → Type} [Monad m]

/-- Applies `f` to the expression of every statement. -/
def Block.walk (f : Expr → m Expr) (block : Block) : m Block := do
  let stmts ← block.stmts.mapM fun stmt => do
    return stmt.withExpr (← f stmt.expr)
  return { block with stmts }

/-- Applies `f` to the expression of an interpolation. -/
def Chunk.walk (f : Expr → m Expr) : Chunk → m Chunk
  | .text value => return .text value
  | .interpolation expr => return .interpolation (← f expr)

/-- Applies `f` to the value of an entry. -/
def Entry.walk (f : Expr → m Expr) (entry : Entry) : m Entry := do
  return { entry with value := ← f entry.value }

/-- Applies `f` to a receiver, if there is one. -/
def walkReceiver (f : Expr → m Expr) : Option Expr → m (Option Expr)
  | none => return none
  | some receiver => return some (← f receiver)

/-- Applies `f` to every immediate sub-expression. -/
def Expr.walk (f : Expr → m Expr) : Expr → m Expr
  | .literal loc value => return .literal loc value
  | .gstring loc chunks => return .gstring loc (← chunks.mapM (Chunk.walk f))
  | .var loc name => return .var loc name
  | .property loc target name => return .property loc (← f target) name
  | .call loc receiver method args => do
    let receiver ← walkReceiver f receiver
    let args ← args.mapM f
    return .call loc receiver method args
  | .map loc entries => return .map loc (← entries.mapM (Entry.walk f))
  | .list loc items => return .list loc (← items.mapM f)
  | .binary loc op left right => do
    let left ← f left
    let right ← f right
    return .binary loc op left right
  | .closure loc params body => return .closure loc params (← body.walk f)
  | .thunk loc body => return .thunk loc (← body.walk f)

/-! ### The blocks of a tree -/

mutual

/-- The blocks inside an expression, each before those inside it. -/
def Expr.nested : Expr → List Block
  | .literal _ _ => []
  | .gstring _ chunks => nestedInChunks chunks
  | .var _ _ => []
  | .property _ target _ => target.nested
  | .call _ receiver _ args => nestedInReceiver receiver ++ nestedInExprs args
  | .map _ entries => nestedInEntries entries
  | .list _ items => nestedInExprs items
  | .binary _ _ left right => left.nested ++ right.nested
  | .closure _ _ body => body.nested
  | .thunk _ body => body.nested

/-- The blocks inside the interpolations of a string. -/
def nestedInChunks : List Chunk → List Block
  | [] => []
  | .text _ :: chunks => nestedInChunks chunks
  | .interpolation expr :: chunks => expr.nested ++ nestedInChunks chunks

/-- The blocks inside a receiver. -/
def nestedInReceiver : Option Expr → List Block
  | none => []
  | some receiver => receiver.nested

/-- The blocks inside a list of expressions. -/
def nestedInExprs : List Expr → List Block
  | [] => []
  | expr :: exprs => expr.nested ++ nestedInExprs exprs

/-- The blocks inside the values of a map. -/
def nestedInEntries : List Entry → List Block
  | [] => []
  | ⟨_, value⟩ :: entries => value.nested ++ nestedInEntries entries

/-- The blocks inside a list of statements. -/
def nestedInStmts : List Stmt → List Block
  | [] => []
  | ⟨_, _, _, expr⟩ :: stmts => expr.nested ++ nestedInStmts stmts

/-- A block and the blocks inside it. -/
def Block.nested : Block → List Block
  | ⟨scope, stmts⟩ => ⟨scope, stmts⟩ :: nestedInStmts stmts

end

end FlowDesugar
