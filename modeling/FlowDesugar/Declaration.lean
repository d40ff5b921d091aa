import FlowDesugar.Section

/-!
# Declarations

In the sections for input, output and shared values, a statement such as `val x` declares `x` before
anything binds it. The canonical form of such a call has the string of its name in place of the
identifier; some rules put a flag before it that tells an identifier from a value.

A declaration is a chain of calls, `file(x).into(y)`, and every link of it follows the rule for its
method. The table `Rule.all` holds the rules.
-/

namespace FlowDesugar

/-- What becomes of the designated argument. -/
inductive Encoding where
  /-- Nothing. -/
  | untouched
  /-- An identifier becomes its name. -/
  | name
  /-- An identifier becomes its name with `true` before it; any other argument gets `false` before
  it. -/
  | flagged
deriving DecidableEq, Repr

/-- Which argument is designated. -/
inductive Slot where
  /-- The first. -/
  | first
  /-- The first that is not the map of named options. -/
  | afterOptions
deriving DecidableEq, Repr

/-- The number of the first argument that is not a leading map of options. -/
def optionCount : List Expr → Nat
  | arg :: _ => if arg.isMap then 1 else 0
  | [] => 0

/-- The number of the designated argument. -/
def Slot.index : Slot → List Expr → Nat
  | .first, _ => 0
  | .afterOptions, args => optionCount args

/-- What becomes of the arguments of a declaration. -/
inductive Treatment where
  /-- One argument is encoded. -/
  | encode (encoding : Encoding) (slot : Slot)
  /-- Every argument that is a call is a declaration in its own right. -/
  | components
deriving DecidableEq, Repr

namespace Treatment

/-- The encoding of the designated argument. -/
def encoding : Treatment → Encoding
  | encode encoding _ => encoding
  | components => .untouched

/-- The place of the designated argument. -/
def slot : Treatment → Slot
  | encode _ slot => slot
  | components => .first

end Treatment

/-- What becomes of the calls of a method in a section. -/
structure Rule where
  /-- The section it applies in. -/
  inside : Section
  /-- The method it applies to. -/
  method : String
  /-- The method of the canonical call. -/
  canonical : String
  /-- What it does with the arguments. -/
  treatment : Treatment
deriving DecidableEq, Repr

namespace Rule

/-- The rules. -/
def all : List Rule :=
  [⟨.input, "val", "_in_val", .encode .flagged .first⟩,
   ⟨.input, "env", "_in_env", .encode .flagged .first⟩,
   ⟨.input, "file", "_in_file", .encode .flagged .afterOptions⟩,
   ⟨.input, "path", "_in_path", .encode .flagged .afterOptions⟩,
   ⟨.input, "each", "_in_each", .encode .flagged .first⟩,
   ⟨.input, "stdin", "_in_stdin", .encode .untouched .first⟩,
   ⟨.input, "tuple", "_in_tuple", .components⟩,
   ⟨.output, "val", "_out_val", .encode .name .first⟩,
   ⟨.output, "file", "_out_file", .encode .name .afterOptions⟩,
   ⟨.output, "path", "_out_path", .encode .name .afterOptions⟩,
   ⟨.output, "env", "_out_env", .encode .name .first⟩,
   ⟨.output, "stdout", "_out_stdout", .encode .untouched .first⟩,
   ⟨.output, "tuple", "_out_tuple", .components⟩,
   ⟨.output, "into", "into", .encode .name .first⟩,
   ⟨.share, "val", "_share_val", .encode .flagged .first⟩,
   ⟨.share, "file", "_share_file", .encode .flagged .afterOptions⟩,
   ⟨.share, "into", "into", .encode .name .first⟩]

/-- The rule for a method in a section. -/
def find? (inside : Section) (method : String) : Option Rule :=
  all.find? fun rule => rule.inside = inside ∧ rule.method = method

end Rule

/-- The arguments that take the place of the designated one. -/
def Encoding.apply : Encoding → Expr → List Expr
  | .untouched, arg => [arg]
  | .name, .var loc ident => [.ofText loc ident]
  | .name, arg => [arg]
  | .flagged, .var loc ident => [.ofBool loc true, .ofText loc ident]
  | .flagged, arg => [.ofBool arg.loc false, arg]

/-- Encodes the argument with the number `index`; every other argument keeps its place. -/
def Encoding.applyAt (encoding : Encoding) (index : Nat) (args : List Expr) : List Expr :=
  match args[index]? with
  | none => args
  | some arg => args.take index ++ encoding.apply arg ++ args.drop (index + 1)

/-- Encodes the arguments of a call under a rule. -/
def Rule.encodeArgs (rule : Rule) (args : List Expr) : List Expr :=
  rule.treatment.encoding.applyAt (rule.treatment.slot.index args) args

mutual

/-- The canonical form of every link of a chain of calls. The chain ends at the first receiver that
is no call. -/
def Expr.canonicalize (inside : Section) : Expr → Expr
  | .call loc receiver method args =>
    let receiver := canonicalizeReceiver inside receiver
    match Rule.find? inside method with
    | none => .call loc receiver method args
    | some rule =>
      match rule.treatment with
      | .components => .call loc receiver rule.canonical (canonicalizeComponents inside args)
      | .encode _ _ => .call loc receiver rule.canonical (rule.encodeArgs args)
  | expr => expr

/-- The canonical form of the chain of a receiver. -/
def canonicalizeReceiver (inside : Section) : Option Expr → Option Expr
  | none => none
  | some receiver => some (receiver.canonicalize inside)

/-- The canonical form of each of the components of a tuple. -/
def canonicalizeComponents (inside : Section) : List Expr → List Expr
  | [] => []
  | arg :: args => arg.canonicalize inside :: canonicalizeComponents inside args

end

/-- The canonical form of a statement of a section. Statements that are no declarations stay as they
are. -/
def Stmt.canonicalize (inside : Section) (stmt : Stmt) : Stmt :=
  if inside.declares then stmt.withExpr (stmt.expr.canonicalize inside) else stmt

end FlowDesugar
