/-!
# Kinds of nodes

Every node of the interchange format names its kind. There are two kinds of statements and twelve of
expressions; closures and thunks share one.
-/

namespace FlowDesugar.Interchange

/-- The kind of an expression node. -/
inductive Kind where
  | str
  | num
  | bool
  | null
  | gstring
  | var
  | property
  | call
  | map
  | list
  | binary
  | closure
deriving DecidableEq, Repr

namespace Kind

/-- The name of a kind. -/
def name : Kind → String
  | str => "str"
  | num => "num"
  | bool => "bool"
  | null => "null"
  | gstring => "gstring"
  | var => "var"
  | property => "property"
  | call => "call"
  | map => "map"
  | list => "list"
  | binary => "binary"
  | closure => "closure"

/-- Every kind. -/
def all : List Kind :=
  [str, num, bool, null, gstring, var, property, call, map, list, binary, closure]

/-- The kind with a name. -/
def ofName? (name : String) : Option Kind :=
  all.find? (·.name == name)

end Kind

/-- The name of a statement's kind: one that returns its value, or one that does not. -/
def stmtKind (returns : Bool) : String :=
  if returns then "return" else "expr"

/-- Whether the kind of statement with a name returns its value. -/
def stmtReturns? (name : String) : Option Bool :=
  if name = stmtKind false then some false
  else if name = stmtKind true then some true
  else none

end FlowDesugar.Interchange
