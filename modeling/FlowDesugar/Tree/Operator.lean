/-!
# Binary operators

The thirteen operators that a tree can hold, each with its symbol.
-/

namespace FlowDesugar

/-- A binary operator. -/
inductive Operator where
  | add
  | sub
  | mul
  | div
  | mod
  | eq
  | ne
  | lt
  | gt
  | le
  | ge
  | and
  | or
deriving DecidableEq, Repr

namespace Operator

/-- The symbol of an operator. -/
def symbol : Operator → String
  | add => "+"
  | sub => "-"
  | mul => "*"
  | div => "/"
  | mod => "%"
  | eq => "=="
  | ne => "!="
  | lt => "<"
  | gt => ">"
  | le => "<="
  | ge => ">="
  | and => "&&"
  | or => "||"

/-- Every operator. -/
def all : List Operator :=
  [add, sub, mul, div, mod, eq, ne, lt, gt, le, ge, and, or]

/-- The operator with a symbol. -/
def ofSymbol? (symbol : String) : Option Operator :=
  all.find? (·.symbol == symbol)

end Operator

end FlowDesugar
