import FlowDesugar.Definition
import FlowDesugar.Tree.Walk

/-!
# Desugaring a tree

`Block.desugar` puts every definition of a tree into its canonical form. It searches the tree from
left to right and does not look inside a definition for others.
-/

namespace FlowDesugar

mutual

/-- Desugars an expression: a definition gets its canonical form, anything else is gone through part
by part. -/
def Expr.desugar (keywords : Keywords) : Expr → Pass Expr
  | .literal loc value => return .literal loc value
  | .gstring loc chunks => return .gstring loc (← desugarChunks keywords chunks)
  | .var loc name => return .var loc name
  | .property loc target name => return .property loc (← target.desugar keywords) name
  | .call loc none method args =>
    if keywords.contains method then Definition.reshape loc method args
    else return .call loc none method (← desugarExprs keywords args)
  | .call loc (some receiver) method args => do
    let receiver ← receiver.desugar keywords
    let args ← desugarExprs keywords args
    return .call loc (some receiver) method args
  | .map loc entries => return .map loc (← desugarEntries keywords entries)
  | .list loc items => return .list loc (← desugarExprs keywords items)
  | .binary loc op left right => do
    let left ← left.desugar keywords
    let right ← right.desugar keywords
    return .binary loc op left right
  | .closure loc params ⟨scope, stmts⟩ =>
    return .closure loc params ⟨scope, ← desugarStmts keywords stmts⟩
  | .thunk loc ⟨scope, stmts⟩ => return .thunk loc ⟨scope, ← desugarStmts keywords stmts⟩

/-- Desugars the interpolations of a string. -/
def desugarChunks (keywords : Keywords) : List Chunk → Pass (List Chunk)
  | [] => return []
  | .text value :: chunks => return .text value :: (← desugarChunks keywords chunks)
  | .interpolation expr :: chunks => do
    let expr ← expr.desugar keywords
    let chunks ← desugarChunks keywords chunks
    return .interpolation expr :: chunks

/-- Desugars expressions one after another. -/
def desugarExprs (keywords : Keywords) : List Expr → Pass (List Expr)
  | [] => return []
  | expr :: exprs => do
    let expr ← expr.desugar keywords
    let exprs ← desugarExprs keywords exprs
    return expr :: exprs

/-- Desugars the values of a map. -/
def desugarEntries (keywords : Keywords) : List Entry → Pass (List Entry)
  | [] => return []
  | ⟨key, value⟩ :: entries => do
    let value ← value.desugar keywords
    let entries ← desugarEntries keywords entries
    return ⟨key, value⟩ :: entries

/-- Desugars the expressions of statements. -/
def desugarStmts (keywords : Keywords) : List Stmt → Pass (List Stmt)
  | [] => return []
  | ⟨returns, loc, label, expr⟩ :: stmts => do
    let expr ← expr.desugar keywords
    let stmts ← desugarStmts keywords stmts
    return ⟨returns, loc, label, expr⟩ :: stmts

end

/-- Desugars every definition of a tree. -/
def Block.desugar (keywords : Keywords) (block : Block) : Pass Block :=
  return { block with stmts := ← desugarStmts keywords block.stmts }

end FlowDesugar
