import FlowDesugar.Interchange.Kind
import FlowDesugar.Json.Writer
import FlowDesugar.Tree.Basic

/-!
# Writing a tree document

A tree is written in the format in which it is read. Every node starts with its kind and, if its
handle has one, its position; then come the fields of that kind, in a fixed order. A thunk is a
closure without parameters.
-/

namespace FlowDesugar.Interchange

open Json (Value Fields)

/-- A node of a kind, at the position of a handle. -/
def node (map : SourceMap) (kind : String) (loc : Handle) (fields : Fields) : Value :=
  let position := match map.position? loc with
    | some position =>
      [("line", .number (.natural position.line)), ("column", .number (.natural position.column))]
    | none => []
  .object (("kind", .string kind) :: position ++ fields)

/-- The fields of a constant. -/
def literalFields : Literal → Kind × Fields
  | .text value => (.str, [("value", .string value)])
  | .number value => (.num, [("value", .number value)])
  | .bool value => (.bool, [("value", .bool value)])
  | .null => (.null, [])

mutual

/-- An expression as a node. -/
def writeExpr (map : SourceMap) : Expr → Value
  | .literal loc value =>
    let (kind, fields) := literalFields value
    node map kind.name loc fields
  | .gstring loc chunks =>
    node map Kind.gstring.name loc [("parts", .array (writeChunks map chunks))]
  | .var loc name => node map Kind.var.name loc [("name", .string name)]
  | .property loc target name =>
    node map Kind.property.name loc [("target", writeExpr map target), ("name", .string name)]
  | .call loc receiver method args =>
    node map Kind.call.name loc
      (writeReceiver map receiver
        ++ [("method", .string method), ("args", .array (writeExprs map args))])
  | .map loc entries => node map Kind.map.name loc [("entries", .object (writeEntries map entries))]
  | .list loc items => node map Kind.list.name loc [("items", .array (writeExprs map items))]
  | .binary loc op left right =>
    node map Kind.binary.name loc
      [("op", .string op.symbol), ("left", writeExpr map left), ("right", writeExpr map right)]
  | .closure loc params body =>
    node map Kind.closure.name loc
      [("params", .array (params.map .string)), ("statements", .array (writeBlock map body))]
  | .thunk loc body =>
    node map Kind.closure.name loc [("statements", .array (writeBlock map body))]

/-- The field of a receiver, if there is one. -/
def writeReceiver (map : SourceMap) : Option Expr → List (String × Value)
  | none => []
  | some receiver => [("receiver", writeExpr map receiver)]

/-- Expressions as nodes. -/
def writeExprs (map : SourceMap) : List Expr → List Value
  | [] => []
  | expr :: exprs => writeExpr map expr :: writeExprs map exprs

/-- The parts of a string: texts as strings, and interpolated expressions as nodes. -/
def writeChunks (map : SourceMap) : List Chunk → List Value
  | [] => []
  | .text value :: chunks => .string value :: writeChunks map chunks
  | .interpolation expr :: chunks => writeExpr map expr :: writeChunks map chunks

/-- The entries of a map. -/
def writeEntries (map : SourceMap) : List Entry → List (String × Value)
  | [] => []
  | ⟨key, value⟩ :: entries => (key, writeExpr map value) :: writeEntries map entries

/-- Statements as nodes. -/
def writeStmts (map : SourceMap) : List Stmt → List Value
  | [] => []
  | ⟨returns, loc, label, expr⟩ :: stmts =>
    let labelField := match label with
      | some label => [("label", Value.string label)]
      | none => []
    node map (stmtKind returns) loc (labelField ++ [("expr", writeExpr map expr)])
      :: writeStmts map stmts

/-- The statements of a block as nodes. -/
def writeBlock (map : SourceMap) : Block → List Value
  | ⟨_, stmts⟩ => writeStmts map stmts

end

/-- A document. -/
def writeDocument (map : SourceMap) (source : Option String) (body : Block) : Value :=
  let sourceField := match source with
    | some source => [("source", Value.string source)]
    | none => []
  .object (sourceField ++ [("statements", .array (writeBlock map body))])

end FlowDesugar.Interchange
