import FlowDesugar.Proofs.Blocks
import FlowDesugar.Proofs.Chains
import FlowDesugar.Proofs.Reading

/-!
# The scopes of a document that was read

A reader opens a scope for every closure on its way, before it reads what is inside. So the blocks
of a document and the scopes of the arena go together: listed from the outside in, the blocks have
the scopes in the order in which they were opened, and the parent of a block's scope is the scope of
the block around it.

* `Interchange.opens_of_readIn` — the law for an expression, by induction over the tree, from the
  laws for one list of blocks after another (`Opens.append`) and for a block around others
  (`Opens.block`);
* `Interchange.nested_scopes_of_documentOf` and `Interchange.nests_of_documentOf` — what it says of
  a whole document.
-/

namespace FlowDesugar

/-! ### Scopes nest as blocks do -/

namespace Block

/-- Every block inside the block has a scope that was opened inside the scope of the block around
it. -/
def Nests (scopes : Scopes) (block : Block) : Prop :=
  ∀ b ∈ block.nested, ∀ c ∈ b.immediate, scopes.parent? c.scope = some b.scope

theorem nests_iff {scopes : Scopes} {block : Block} :
    block.Nests scopes ↔
      ∀ c ∈ block.immediate, scopes.parent? c.scope = some block.scope ∧ c.Nests scopes := by
  constructor
  · intro h c hc
    refine ⟨h block block.mem_nested_self c hc, fun b hb => ?_⟩
    exact h b (mem_nested_of_immediate hc hb)
  · intro h b hb
    obtain rfl | ⟨c, hc, hbc⟩ := mem_nested_iff.mp hb
    · exact fun c hc => (h c hc).1
    · exact (h c hc).2 b hbc

theorem Nests.mono {before after : Scopes} (hgrows : after.Extends before) {block : Block}
    (h : block.Nests before) : block.Nests after :=
  fun b hb c hc => hgrows.parent?_eq_some (h b hb c hc)

/-- What is inside a block lies inside its scope. -/
theorem Nests.isInside {scopes : Scopes} (hg : scopes.Grounded) {block b : Block}
    (h : block.Nests scopes) (hb : b ∈ block.nested) : scopes.isInside b.scope block.scope := by
  induction block using inductionOnImmediate with
  | block block ih =>
    obtain rfl | ⟨c, hc, hbc⟩ := mem_nested_iff.mp hb
    · exact Scopes.isInside_refl _
    · obtain ⟨hparent, hnests⟩ := nests_iff.mp h c hc
      exact hg.isInside_trans (ih c hc hnests hbc) (hg.isInside_parent hparent)

/-- A block whose scope has a parent, and every block inside it, has a known scope. -/
theorem Nests.index_lt {scopes : Scopes} {outer : ScopeId} {block b : Block}
    (h : block.Nests scopes) (hparent : scopes.parent? block.scope = some outer)
    (hb : b ∈ block.nested) : b.scope.index < scopes.size := by
  induction block using inductionOnImmediate generalizing outer with
  | block block ih =>
    obtain rfl | ⟨c, hc, hbc⟩ := mem_nested_iff.mp hb
    · exact Scopes.index_lt_of_parent? hparent
    · obtain ⟨hinner, hnests⟩ := nests_iff.mp h c hc
      exact ih c hc hnests hinner hbc

end Block

/-! ### Opening scopes for blocks -/

/-- From the scopes `before` to the scopes `after`, one scope was opened for every block of the
list and every block inside these, from the outside in. The blocks themselves stand in `scope`. -/
structure Opens (scope : ScopeId) (blocks : List Block) (before after : Scopes) : Prop where
  grows : after.Extends before
  grounded : scope.index < before.size → before.Grounded → after.Grounded
  numbered : scopesOf blocks = before.added after
  nests : ∀ b ∈ blocks, after.parent? b.scope = some scope ∧ b.Nests after

namespace Opens

variable {scope : ScopeId} {before middle after : Scopes}

theorem nil (scopes : Scopes) : Opens scope [] scopes scopes where
  grows := .refl scopes
  grounded := fun _ hg => hg
  numbered := (Scopes.added_self scopes).symm
  nests := nofun

/-- One list of blocks after another, in the same scope. -/
theorem append {blocks blocks' : List Block} (h : Opens scope blocks before middle)
    (h' : Opens scope blocks' middle after) : Opens scope (blocks ++ blocks') before after where
  grows := h.grows.trans h'.grows
  grounded := by
    intro hscope hg
    exact h'.grounded (Nat.lt_of_lt_of_le hscope h.grows.size_le) (h.grounded hscope hg)
  numbered := by
    rw [scopesOf_append, h.numbered, h'.numbered,
      Scopes.added_append h.grows.size_le h'.grows.size_le]
  nests := by
    refine List.forall_mem_append.mpr ⟨fun b hb => ?_, h'.nests⟩
    -- scopes that are opened later change nothing
    obtain ⟨hparent, hnests⟩ := h.nests b hb
    exact ⟨h'.grows.parent?_eq_some hparent, hnests.mono h'.grows⟩

/-- A block around others: its scope is opened first, and theirs inside it. -/
theorem block {body : Block} (hscope : body.scope = (before.child scope).1)
    (h : Opens body.scope body.immediate (before.child scope).2 after) :
    Opens scope [body] before after := by
  have hopened := Scopes.opened_child before scope
  have hgrows := Scopes.extends_child before scope
  rw [← hscope] at hopened
  constructor
  case grows => exact hgrows.trans h.grows
  case grounded =>
    intro hlt hg
    refine h.grounded ?_ (hg.child hlt)
    rw [hopened.fresh, hopened.size_eq]
    exact Nat.lt_succ_self _
  case numbered =>
    rw [scopesOf_singleton, h.numbered, hscope,
      ← Scopes.added_append hgrows.size_le h.grows.size_le, Scopes.added_child]
    rfl
  case nests =>
    refine List.forall_mem_singleton.mpr ⟨h.grows.parent?_eq_some hopened.parent?_eq, ?_⟩
    exact Block.nests_iff.mpr h.nests

/-- The blocks of expressions, one after another. -/
theorem flatMap {es : List Expr}
    (h : Threaded (fun e => Opens scope e.outermost) es before after) :
    Opens scope (es.flatMap Expr.outermost) before after := by
  induction h with
  | nil scopes => exact .nil scopes
  | cons hfirst _ ih =>
    rw [List.flatMap_cons]
    exact hfirst.append ih

end Opens

namespace Interchange

open Json (Value)

/-- **Reading opens scopes for blocks**, from the outside in. -/
theorem opens_of_readIn {scope : ScopeId} {e : Expr} {before after : Scopes}
    (h : ReadIn scope e before after) : Opens scope e.outermost before after := by
  induction e using Expr.inductionOnChildren generalizing scope before after with
  | node e ih =>
    obtain ⟨hbody, hchildren⟩ | ⟨body, hbody, hscope, hchildren⟩ := h.children
    · rw [Expr.outermost_of_none hbody]
      exact .flatMap (hchildren.imp fun c hc _ _ hread => ih c hc hread)
    · rw [Expr.outermost_of_some hbody]
      refine .block hscope ?_
      rw [Block.immediate, ← Expr.children_of_some hbody]
      exact .flatMap (hchildren.imp fun c hc _ _ hread => ih c hc hread)

variable {value : Value} {document : Document} {before after : Registry}

theorem scope_of_documentOf (h : (documentOf value).run before = .ok (document, after)) :
    document.body.scope = Scopes.root := by
  obtain ⟨fields, stmts, -, -, hbody, -⟩ := documentOf_eq_ok.mp h
  rw [hbody]

theorem opens_of_documentOf (h : (documentOf value).run before = .ok (document, after)) :
    Opens Scopes.root document.body.immediate before.scopes after.scopes := by
  obtain ⟨fields, stmts, -, -, hbody, hstmts⟩ := documentOf_eq_ok.mp h
  have hthreaded := threaded_of_readBody hstmts
  rw [Block.immediate, hbody]
  exact .flatMap (hthreaded.imp fun e _ _ _ hread => opens_of_readIn hread)

/-- **The blocks of a document** that was read from the root alone, from the outside in, have the
scopes of the arena in the order in which these were opened. -/
theorem nested_scopes_of_documentOf (h : (documentOf value).run {} = .ok (document, after)) :
    document.body.nested.map Block.scope = after.scopes.ids := by
  have hopens := opens_of_documentOf h
  rw [Block.nested_eq, List.map_cons, scope_of_documentOf h]
  exact (congrArg _ hopens.numbered).trans (Scopes.root_cons_added_fresh hopens.grows.size_le)

theorem nests_of_documentOf (h : (documentOf value).run before = .ok (document, after)) :
    document.body.Nests after.scopes := by
  rw [Block.nests_iff, scope_of_documentOf h]
  exact (opens_of_documentOf h).nests

theorem grounded_of_documentOf (h : (documentOf value).run {} = .ok (document, after)) :
    after.scopes.Grounded :=
  (opens_of_documentOf h).grounded Nat.one_pos Scopes.grounded_fresh

end Interchange

end FlowDesugar
