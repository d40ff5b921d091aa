import FlowDesugar.Number.Basic

/-!
# Lexical scopes

The scopes of a tree's blocks live in an arena that knows the parent of each. Scope `0` is the root,
the top level of the script; every other scope was opened inside a parent. `Scopes.chain` lists a
scope and those around it from the inside out.
-/

namespace FlowDesugar

/-- A scope of an arena. -/
structure ScopeId where
  index : Nat
deriving DecidableEq, Repr

/-- A scope as `#index`. -/
def ScopeId.text (scope : ScopeId) : String :=
  "#" ++ Number.naturalText scope.index

/-- The parent of every scope opened so far, in order; the root has none. -/
structure Scopes where
  parents : Array (Option ScopeId) := #[none]
deriving DecidableEq, Repr

namespace Scopes

/-- The arena with the root alone. -/
def fresh : Scopes := {}

/-- The top level. -/
def root : ScopeId := ⟨0⟩

/-- The number of scopes. -/
def size (scopes : Scopes) : Nat :=
  scopes.parents.size

/-- Opens a scope inside `parent`. -/
def child (scopes : Scopes) (parent : ScopeId) : ScopeId × Scopes :=
  (⟨scopes.size⟩, { parents := scopes.parents.push (some parent) })

/-- The scope around a scope. The root has none, nor has a scope that the arena does not know. -/
def parent? (scopes : Scopes) (scope : ScopeId) : Option ScopeId :=
  scopes.parents[scope.index]?.join

/-- The first scopes of the chain that starts at `scope`, with at most `bound` steps outwards. -/
def chainWithin (scopes : Scopes) (bound : Nat) (scope : ScopeId) : List ScopeId :=
  match bound, scopes.parent? scope with
  | _, none => [scope]
  | 0, some _ => [scope]
  | bound + 1, some outer => scope :: scopes.chainWithin bound outer

/-- A scope and the scopes around it, innermost first. No chain of an arena in which scopes are
opened inside known ones has more steps than the arena has scopes. -/
def chain (scopes : Scopes) (scope : ScopeId) : List ScopeId :=
  scopes.chainWithin scopes.size scope

/-- Whether `inner` is `outer` or lies within it, at any depth. -/
def isInside (scopes : Scopes) (inner outer : ScopeId) : Bool :=
  (scopes.chain inner).contains outer

end Scopes

end FlowDesugar
