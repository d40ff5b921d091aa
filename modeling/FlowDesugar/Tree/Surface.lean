import FlowDesugar.Layout.Doc
import FlowDesugar.Text.Escape
import FlowDesugar.Tree.Basic

/-!
# Surface text of a tree

Trees are printed in the notation of the script language. A block between braces stands on one line
if it fits there, and has a line for each of its statements otherwise; nothing else is broken.
Operands that are operations themselves stand in parentheses.
-/

namespace FlowDesugar

/-- A text between double quotes. -/
def Doc.quoted (interpolating : Bool) (value : String) : Doc :=
  .text (String.ofList (Text.escape interpolating value.toList))

/-- A constant. -/
def Literal.doc : Literal → Doc
  | .text value => .text "\"" ++ .quoted false value ++ .text "\""
  | .number value => .text value.text
  | .bool true => .text "true"
  | .bool false => .text "false"
  | .null => .text "null"

/-- Statements between braces. -/
def Doc.braced (params : List String) (stmts : List Doc) : Doc :=
  let start : Doc := match params with
    | [] => .text "\x7b"
    | params => .text "\x7b " ++ .text (String.intercalate ", " params) ++ .text " ->"
  match stmts with
  | [] => start ++ .text " \x7d"
  | stmts =>
    .group (start ++ .nest 2 (.line ++ .intersperse .hardline stmts) ++ .line ++ .text "\x7d")

/-- Documents separated by commas. -/
def Doc.commas (docs : List Doc) : Doc :=
  .intersperse (.text ", ") docs

/-- The keyword and label in front of a statement's expression. -/
def Doc.statement (returns : Bool) (label : Option String) (expr : Doc) : Doc :=
  let labelled : Doc := match label with
    | some label => .text label ++ .text ": "
    | none => .nil
  let keyword : Doc := if returns then .text "return " else .nil
  labelled ++ keyword ++ expr

/-- An operand, in parentheses if it is an operation. -/
def Doc.operand (isOperation : Bool) (doc : Doc) : Doc :=
  if isOperation then .text "(" ++ doc ++ .text ")" else doc

/-- Whether an expression is a binary operation. -/
def Expr.isBinary : Expr → Bool
  | .binary _ _ _ _ => true
  | _ => false

mutual

/-- The document of an expression. -/
def Expr.doc : Expr → Doc
  | .literal _ value => value.doc
  | .gstring _ chunks => .text "\"" ++ .concat (chunkDocs chunks) ++ .text "\""
  | .var _ name => .text name
  | .property _ target name => target.doc ++ .text "." ++ .text name
  | .call _ receiver method args =>
    receiverDoc receiver ++ .text method ++ .text "(" ++ .commas (exprDocs args) ++ .text ")"
  | .map _ [] => .text "[:]"
  | .map _ entries => .text "[" ++ .commas (entryDocs entries) ++ .text "]"
  | .list _ items => .text "[" ++ .commas (exprDocs items) ++ .text "]"
  | .binary _ op left right =>
    .operand left.isBinary left.doc ++ .text " " ++ .text op.symbol ++ .text " "
      ++ .operand right.isBinary right.doc
  | .closure _ params ⟨_, stmts⟩ => .braced params (stmtDocs stmts)
  | .thunk _ ⟨_, stmts⟩ => .braced [] (stmtDocs stmts)

/-- The documents of the pieces of a string. -/
def chunkDocs : List Chunk → List Doc
  | [] => []
  | .text value :: chunks => .quoted true value :: chunkDocs chunks
  | .interpolation expr :: chunks =>
    (.text "$\x7b" ++ expr.doc ++ .text "\x7d") :: chunkDocs chunks

/-- The document of a receiver, with its dot. -/
def receiverDoc : Option Expr → Doc
  | none => .nil
  | some receiver => receiver.doc ++ .text "."

/-- The documents of expressions. -/
def exprDocs : List Expr → List Doc
  | [] => []
  | expr :: exprs => expr.doc :: exprDocs exprs

/-- The documents of map entries. -/
def entryDocs : List Entry → List Doc
  | [] => []
  | ⟨key, value⟩ :: entries => (.text key ++ .text ": " ++ value.doc) :: entryDocs entries

/-- The documents of statements. -/
def stmtDocs : List Stmt → List Doc
  | [] => []
  | ⟨returns, _, label, expr⟩ :: stmts => .statement returns label expr.doc :: stmtDocs stmts

end

/-- The document of a statement. -/
def Stmt.doc (stmt : Stmt) : Doc :=
  .statement stmt.returns stmt.label stmt.expr.doc

/-- The document of a block at the top level. -/
def Block.doc (block : Block) : Doc :=
  .intersperse .hardline (stmtDocs block.stmts)

/-- The surface text of an expression on a page of the given width. -/
def Expr.surfaceAt (width : Nat) (expr : Expr) : String :=
  expr.doc.page width

/-- The surface text of a block on a page of the given width. -/
def Block.surfaceAt (width : Nat) (block : Block) : String :=
  block.doc.page width

/-- The surface text of an expression. -/
def Expr.surface (expr : Expr) : String :=
  expr.surfaceAt Doc.pageWidth

/-- The surface text of a statement. -/
def Stmt.surface (stmt : Stmt) : String :=
  stmt.doc.page Doc.pageWidth

/-- The surface text of a block. -/
def Block.surface (block : Block) : String :=
  block.surfaceAt Doc.pageWidth

end FlowDesugar
