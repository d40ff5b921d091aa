import FlowDesugar.Tree.Basic

/-!
# Equality of trees

Two expressions are the same when they have the same shape, constants, handles and scopes. The
entries of maps are compared by key, whatever their order, and numbers within their representation.
-/

namespace FlowDesugar

/-- Equality of constants. -/
def Literal.same : Literal → Literal → Bool
  | .text a, .text b => a == b
  | .number a, .number b => a.same b
  | .bool a, .bool b => a == b
  | .null, .null => true
  | _, _ => false

/-- The value of a map entry. -/
def lookupEntry (key : String) : List Entry → Option Expr
  | [] => none
  | entry :: entries => if entry.key = key then some entry.value else lookupEntry key entries

mutual

/-- Equality of expressions. -/
def Expr.same : Expr → Expr → Bool
  | .literal a x, .literal b y => a == b && x.same y
  | .gstring a xs, .gstring b ys => a == b && sameChunks xs ys
  | .var a x, .var b y => a == b && x == y
  | .property a t x, .property b u y => a == b && t.same u && x == y
  | .call a r f xs, .call b s g ys => a == b && sameReceiver r s && f == g && sameExprs xs ys
  | .map a xs, .map b ys => a == b && xs.length == ys.length && sameEntries ys xs
  | .list a xs, .list b ys => a == b && sameExprs xs ys
  | .binary a f x y, .binary b g u v => a == b && f == g && x.same u && y.same v
  | .closure a ps x, .closure b qs y => a == b && ps == qs && x.same y
  | .thunk a x, .thunk b y => a == b && x.same y
  | _, _ => false

/-- Equality of the pieces of two strings. -/
def sameChunks : List Chunk → List Chunk → Bool
  | [], [] => true
  | .text a :: xs, .text b :: ys => a == b && sameChunks xs ys
  | .interpolation a :: xs, .interpolation b :: ys => a.same b && sameChunks xs ys
  | _, _ => false

/-- Equality of receivers. -/
def sameReceiver : Option Expr → Option Expr → Bool
  | none, none => true
  | some a, some b => a.same b
  | _, _ => false

/-- Equality of two lists of expressions. -/
def sameExprs : List Expr → List Expr → Bool
  | [], [] => true
  | x :: xs, y :: ys => x.same y && sameExprs xs ys
  | _, _ => false

/-- Whether every entry of a map is one of `others`. -/
def sameEntries (others : List Entry) : List Entry → Bool
  | [] => true
  | ⟨key, value⟩ :: entries =>
    (match lookupEntry key others with
      | some other => value.same other
      | none => false) && sameEntries others entries

/-- Equality of two lists of statements. -/
def sameStmts : List Stmt → List Stmt → Bool
  | [], [] => true
  | ⟨returns, loc, label, expr⟩ :: xs, y :: ys =>
    returns == y.returns && loc == y.loc && label == y.label && expr.same y.expr && sameStmts xs ys
  | _, _ => false

/-- Equality of blocks. -/
def Block.same : Block → Block → Bool
  | ⟨scope, stmts⟩, other => scope == other.scope && sameStmts stmts other.stmts

end

end FlowDesugar
