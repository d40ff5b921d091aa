import FlowDesugar.Proofs.Occupancy

/-!
# Nesting of blocks and of scopes

In a document that was read, the scope of a block is opened inside the scope of the block around it,
so that a block inside another lies inside its scope (`Block.Nests.isInside`). Desugaring keeps
this, but for the blocks of scripts. A script goes into a new block, with a new scope inside that of
the body, while the blocks inside the script are those that were read, and keep their scopes. These
were opened inside the scope of the body, so that they do not lie inside the new scope.

Each block after a pass is of one of two kinds: its scope was there before and is the parent of
those immediately inside it (`Block.Keeps`), or it is the script of some block, around blocks of the
tree that was read (`Block.ScriptOf`). A block is `Block.Settled` if this holds of everything inside
it.

* `PassBlocks.settles` — a pass settles the blocks that stand in a scope;
* `Block.desugar_nests_except_in_scripts` — what lies inside a block of a desugared document lies
  inside its scope, exactly if the block is not that of a script.
-/

namespace FlowDesugar

namespace Block

variable {tree : Block} {initial before after : Scopes} {scope : ScopeId} {block b owner : Block}

/-- The block is one of the tree and stands in `scope`, and so do those inside it in theirs. -/
structure StandsIn (block tree : Block) (initial : Scopes) (scope : ScopeId) : Prop where
  mem : block ∈ tree.nested
  parent : initial.parent? block.scope = some scope
  nests : block.Nests initial

/-- The scope of the block was there initially, and is the parent of the scopes immediately inside
the block. -/
structure Keeps (initial after : Scopes) (block : Block) : Prop where
  known : block.scope.index < initial.size
  parents : ∀ c ∈ block.immediate, after.parent? c.scope = some block.scope

/-- The block is the deferred script of `owner`. Its scope is a new one inside that of the owner,
and the blocks immediately inside it are blocks of the tree, still in the scope of the owner. -/
structure ScriptOf (block tree : Block) (initial after : Scopes) (owner : Block) : Prop where
  opened : initial.size ≤ block.scope.index
  ownerKnown : owner.scope.index < initial.size
  last : ∃ loc, owner.stmts.getLast? = some (.deferred loc block.scope block.stmts)
  parent : after.parent? block.scope = some owner.scope
  moved : ∀ c ∈ block.immediate, c.StandsIn tree initial owner.scope

/-- Every block inside the block keeps its scope around others, or is the script of one of them. -/
def Settled (block tree : Block) (initial after : Scopes) : Prop :=
  ∀ b ∈ block.nested,
    b.Keeps initial after ∨ ∃ owner ∈ block.nested, b.ScriptOf tree initial after owner

/-! ### More scopes change nothing -/

theorem Keeps.mono (hgrows : after.Extends before) (h : block.Keeps initial before) :
    block.Keeps initial after where
  known := h.known
  parents c hc := hgrows.parent?_eq_some (h.parents c hc)

theorem ScriptOf.mono (hgrows : after.Extends before)
    (h : block.ScriptOf tree initial before owner) : block.ScriptOf tree initial after owner :=
  { h with parent := hgrows.parent?_eq_some h.parent }

theorem Settled.mono (hgrows : after.Extends before) (h : block.Settled tree initial before) :
    block.Settled tree initial after := by
  intro b hb
  obtain hkeeps | ⟨owner, howner, hscript⟩ := h b hb
  · exact .inl (hkeeps.mono hgrows)
  · exact .inr ⟨owner, howner, hscript.mono hgrows⟩

/-! ### Blocks that are settled -/

/-- The blocks immediately inside a block of the tree stand in its scope. -/
theorem standsIn_immediate (hmem : block ∈ tree.nested) (hnests : block.Nests initial) :
    ∀ c ∈ block.immediate, c.StandsIn tree initial block.scope := by
  intro c hc
  obtain ⟨hparent, hnests⟩ := nests_iff.mp hnests c hc
  exact ⟨mem_nested_trans hmem (mem_nested_of_immediate hc c.mem_nested_self), hparent, hnests⟩

/-- A block that was there initially is settled as it is. -/
theorem StandsIn.settled (h : block.StandsIn tree initial scope) (hgrows : after.Extends initial) :
    block.Settled tree initial after := by
  intro b hb
  exact .inl ⟨h.nests.index_lt h.parent hb,
    fun c hc => hgrows.parent?_eq_some (h.nests b hb c hc)⟩

/-- A block is settled if it keeps its scope, around blocks that are settled and its own script. -/
theorem Keeps.settled (h : block.Keeps initial after) (hgrows : after.Extends initial)
    (hinside : ∀ c ∈ block.immediate,
      c.Settled tree initial after ∨ c.ScriptOf tree initial after block) :
    block.Settled tree initial after := by
  intro b hb
  obtain rfl | ⟨c, hc, hbc⟩ := mem_nested_iff.mp hb
  · exact .inl h
  · obtain hsettled | hscript := hinside c hc
    · obtain hkeeps | ⟨owner, howner, hscript⟩ := hsettled b hbc
      · exact .inl hkeeps
      · exact .inr ⟨owner, mem_nested_of_immediate hc howner, hscript⟩
    · obtain rfl | ⟨d, hd, hbd⟩ := mem_nested_iff.mp hbc
      · exact .inr ⟨block, block.mem_nested_self, hscript⟩
      · -- inside the script, everything is as it was initially
        obtain hkeeps | ⟨owner, howner, howned⟩ := (hscript.moved d hd).settled hgrows b hbd
        · exact .inl hkeeps
        · exact .inr ⟨owner,
            mem_nested_of_immediate hc (mem_nested_of_immediate hd howner), howned⟩

/-! ### Being inside -/

section Inside

variable (hinitial : initial.Grounded) (hafter : after.Grounded) (hgrows : after.Extends initial)
include hinitial hafter hgrows

/-- What lies inside a script lies inside the scope of its owner. -/
theorem ScriptOf.isInside_owner (h : block.ScriptOf tree initial after owner) {c : Block}
    (hc : c ∈ block.immediate) (hb : b ∈ c.nested) : after.isInside b.scope owner.scope := by
  obtain ⟨-, hparent, hnests⟩ := h.moved c hc
  have hinside : initial.isInside b.scope owner.scope :=
    hinitial.isInside_trans (hnests.isInside hinitial hb) (hinitial.isInside_parent hparent)
  exact hgrows.isInside hinitial hafter hinside

/-- What lies inside a block that keeps its scope lies inside this scope. -/
theorem Settled.isInside (h : block.Settled tree initial after) (hb : b ∈ block.nested)
    (hkeeps : b.Keeps initial after) : ∀ c ∈ b.nested, after.isInside c.scope b.scope := by
  induction b using inductionOnImmediate with
  | block b ih =>
    intro c hc
    obtain rfl | ⟨d, hd, hcd⟩ := mem_nested_iff.mp hc
    · exact Scopes.isInside_refl _
    · have hdb : d ∈ block.nested :=
        mem_nested_trans hb (mem_nested_of_immediate hd d.mem_nested_self)
      have hparent := hkeeps.parents d hd
      have hstep := hafter.isInside_parent hparent
      obtain hkeeps' | ⟨owner, -, hscript⟩ := h d hdb
      · exact hafter.isInside_trans (ih d hd hdb hkeeps' c hcd) hstep
      · -- the owner of a script has the scope that is the parent of the script's, as `b` has
        have howner : owner.scope = b.scope := Option.some.inj (hscript.parent.symm.trans hparent)
        obtain rfl | ⟨e, he, hce⟩ := mem_nested_iff.mp hcd
        · exact hstep
        · rw [← howner]
          exact hscript.isInside_owner hinitial hafter hgrows he hce

end Inside

/-- What lies inside a script does not lie inside the scope of the script. -/
theorem ScriptOf.not_isInside (hafter : after.Grounded)
    (h : block.ScriptOf tree initial after owner) {c : Block} (hc : c ∈ block.immediate)
    (hb : b ∈ c.nested) : ¬ after.isInside b.scope block.scope := by
  intro hinside
  obtain ⟨-, hparent, hnests⟩ := h.moved c hc
  -- a scope that was there initially is older than that of the script
  have hknown := hnests.index_lt hparent hb
  have hopened := h.opened
  have hle := hafter.index_le_of_isInside hinside
  omega

end Block

/-! ### Desugaring settles -/

/-- While the arena went from `before` to `after`, blocks of the tree that stand in `scope` became
settled ones. -/
structure Settles (tree : Block) (initial : Scopes) (scope : ScopeId) (news : List Block)
    (before after : Scopes) : Prop where
  grows : after.Extends before
  grounded : before.Grounded → after.Grounded
  settled : ∀ b ∈ news, initial.parent? b.scope = some scope ∧ b.Settled tree initial after

namespace Settles

variable {tree : Block} {initial before middle after : Scopes} {scope : ScopeId}
  {news news' : List Block}

/-- Blocks that stay as they were. -/
theorem of_standsIn (h : ∀ b ∈ news, b.StandsIn tree initial scope)
    (hgrows : before.Extends initial) : Settles tree initial scope news before before where
  grows := .refl before
  grounded := id
  settled b hb := ⟨(h b hb).parent, (h b hb).settled hgrows⟩

/-- One list of blocks after another. -/
theorem append (h : Settles tree initial scope news before middle)
    (h' : Settles tree initial scope news' middle after) :
    Settles tree initial scope (news ++ news') before after where
  grows := h.grows.trans h'.grows
  grounded hg := h'.grounded (h.grounded hg)
  settled := by
    refine List.forall_mem_append.mpr ⟨fun b hb => ?_, h'.settled⟩
    obtain ⟨hparent, hsettled⟩ := h.settled b hb
    exact ⟨hparent, hsettled.mono h'.grows⟩

/-- A block around others keeps its scope. -/
theorem keeps {block : Block} (hknown : block.scope.index < initial.size)
    (hgrows : before.Extends initial)
    (h : Settles tree initial block.scope block.immediate before after) :
    block.Settled tree initial after := by
  have hafter := hgrows.trans h.grows
  have hkeeps : block.Keeps initial after :=
    ⟨hknown, fun c hc => hafter.parent?_eq_some (h.settled c hc).1⟩
  exact hkeeps.settled hafter fun c hc => .inl (h.settled c hc).2

/-- A block around others that stands in `scope` itself. -/
theorem around {block : Block} (hparent : initial.parent? block.scope = some scope)
    (hgrows : before.Extends initial)
    (h : Settles tree initial block.scope block.immediate before after) :
    Settles tree initial scope [block] before after where
  grows := h.grows
  grounded := h.grounded
  settled := List.forall_mem_singleton.mpr
    ⟨hparent, h.keeps (Scopes.index_lt_of_parent? hparent) hgrows⟩

/-- The body of a definition, whose script may be deferred. -/
theorem body {body block : Block} (hbody : body.StandsIn tree initial scope)
    (hgrows : before.Extends initial) (h : BodyBlocks before body block after) :
    Settles tree initial scope [block] before after := by
  obtain ⟨hmem, hparent, hnests⟩ := hbody
  have hknown := Scopes.index_lt_of_parent? hparent
  have hinside := Block.standsIn_immediate hmem hnests
  cases h with
  | stay hscope himmediate =>
    refine around (hscope ▸ hparent) hgrows (of_standsIn ?_ hgrows)
    rw [himmediate, hscope]
    exact hinside
  | @defer loc script rest hscope hlast himmediate hmoved =>
    have hopened := Scopes.opened_child before body.scope
    have hchild := Scopes.extends_child before body.scope
    have hafter := hgrows.trans hchild
    -- the blocks of the body go on, next to the script or inside it
    have hstands : ∀ c, c ∈ rest ++ Block.immediate ⟨(before.child body.scope).1, script⟩ →
        c.StandsIn tree initial block.scope := by
      intro c hc
      rw [hscope]
      exact hinside c (hmoved.mem_iff.mpr hc)
    have hscript : Block.ScriptOf ⟨(before.child body.scope).1, script⟩ tree initial
        (before.child body.scope).2 block :=
      { opened := hopened.fresh ▸ hgrows.size_le
        ownerKnown := hscope ▸ hknown
        last := ⟨loc, hlast⟩
        parent := hscope ▸ hopened.parent?_eq
        moved := fun c hc => hstands c (List.mem_append_right rest hc) }
    have hrest : ∀ c ∈ rest, c.StandsIn tree initial block.scope :=
      fun c hc => hstands c (List.mem_append_left _ hc)
    have hkeeps : block.Keeps initial (before.child body.scope).2 := by
      refine ⟨hscope ▸ hknown, ?_⟩
      rw [himmediate]
      refine List.forall_mem_append.mpr ⟨fun c hc => ?_, ?_⟩
      · exact hafter.parent?_eq_some (hrest c hc).parent
      · exact List.forall_mem_singleton.mpr hscript.parent
    have hsettled : block.Settled tree initial (before.child body.scope).2 := by
      refine hkeeps.settled hafter ?_
      rw [himmediate]
      refine List.forall_mem_append.mpr ⟨fun c hc => .inl ?_, ?_⟩
      · exact (hrest c hc).settled hafter
      · exact List.forall_mem_singleton.mpr (.inr hscript)
    constructor
    case grows => exact hchild
    case grounded =>
      exact fun hg => hg.child (Nat.lt_of_lt_of_le hknown hgrows.size_le)
    case settled => exact List.forall_mem_singleton.mpr ⟨hscope ▸ hparent, hsettled⟩

end Settles

/-- **A pass settles blocks** of a tree that stand in a scope. -/
theorem PassBlocks.settles {tree : Block} {olds news : List Block} {initial before after : Scopes}
    {scope : ScopeId} (h : PassBlocks olds news before after)
    (hstand : ∀ b ∈ olds, b.StandsIn tree initial scope) (hgrows : before.Extends initial) :
    Settles tree initial scope news before after := by
  induction h generalizing scope with
  | stay blocks scopes => exact .of_standsIn hstand hgrows
  | append _ _ ih ih' =>
    obtain ⟨hfirst, hrest⟩ := List.forall_mem_append.mp hstand
    have hsettles := ih hfirst hgrows
    exact hsettles.append (ih' hrest (hgrows.trans hsettles.grows))
  | body hbody => exact .body (hstand _ (List.mem_singleton_self _)) hgrows hbody
  | @around old new before after hscope _ ih =>
    obtain ⟨hmem, hparent, hnests⟩ := List.forall_mem_singleton.mp hstand
    -- the blocks immediately inside stand in the scope of the block, which it keeps
    have hinside := ih (Block.standsIn_immediate hmem hnests) hgrows
    rw [← hscope] at hparent hinside
    exact .around hparent hgrows hinside

variable {keywords : Keywords} {before after : Progress}

open Interchange

/-- **Blocks nest as scopes do, except in scripts.** After a document was read and desugared, a
block whose scope was there after reading has everything inside it in its scope. Any other block is
the script that some block was given as its last statement: its scope was opened inside that of its
owner, and the blocks inside it are blocks of the document, with the scopes that they were read
with, which lie inside the scope of the owner and not inside that of the script. -/
theorem Block.desugar_nests_except_in_scripts {value : Json.Value} {document : Document}
    {out : Block} (hread : (documentOf value).run {} = .ok (document, before.registry))
    (hrun : (document.body.desugar keywords).run before = (.ok out, after)) :
    ∀ outer ∈ out.nested,
      (outer.scope.index < before.registry.scopes.size ∧
        ∀ inner ∈ outer.nested, after.registry.scopes.isInside inner.scope outer.scope) ∨
      (before.registry.scopes.size ≤ outer.scope.index ∧
        ∃ owner ∈ out.nested,
          owner.scope.index < before.registry.scopes.size ∧
          (∃ loc, owner.stmts.getLast? = some (.deferred loc outer.scope outer.stmts)) ∧
          after.registry.scopes.parent? outer.scope = some owner.scope ∧
          ∀ e ∈ outer.children, ∀ inner ∈ e.nested, inner ∈ document.body.nested ∧
            after.registry.scopes.isInside inner.scope owner.scope ∧
            ¬ after.registry.scopes.isInside inner.scope outer.scope) := by
  have hinitial := grounded_of_documentOf hread
  have hknown : document.body.scope.index < before.registry.scopes.size := by
    rw [scope_of_documentOf hread]
    exact (opens_of_documentOf hread).grows.size_le
  obtain ⟨hscope, hpass⟩ := Block.passBlocks_of_desugar hrun
  have hsettles := hpass.settles
    (Block.standsIn_immediate document.body.mem_nested_self (nests_of_documentOf hread)) (.refl _)
  rw [← hscope] at hknown hsettles
  have hsettled := hsettles.keeps hknown (.refl _)
  have hgrows := hsettles.grows
  have hafter := hsettles.grounded hinitial
  intro outer houter
  obtain hkeeps | ⟨owner, howner, hscript⟩ := hsettled outer houter
  · exact .inl ⟨hkeeps.known, hsettled.isInside hinitial hafter hgrows houter hkeeps⟩
  · refine .inr ⟨hscript.opened, owner, howner, hscript.ownerKnown, hscript.last, hscript.parent,
      ?_⟩
    intro e he inner hinner
    obtain ⟨c, hc, hinner⟩ := Block.exists_immediate he hinner
    exact ⟨Block.mem_nested_trans (hscript.moved c hc).mem hinner,
      hscript.isInside_owner hinitial hafter hgrows hc hinner,
      hscript.not_isInside hafter hc hinner⟩

/-- A definition whose script has a closure inside. -/
def Interchange.sampleMoved : Json.Value :=
  .object [("statements", .array [sampleDefinition "foo" [.object [("kind", .string "expr"),
    ("label", .string "exec"), ("expr", .object [("kind", .string "closure"),
      ("params", .array [.string "x"]), ("statements", .array [])])]]])]

theorem Block.desugar_nests_except_in_scripts_closure :
    ∃ document before out after,
      (documentOf sampleMoved).run {} = .ok (document, before.registry) ∧
      (document.body.desugar .default).run before = (.ok out, after) ∧
      out.nested.map Block.scope = [⟨0⟩, ⟨1⟩, ⟨3⟩, ⟨2⟩] ∧
      ∃ outer ∈ out.nested, outer.scope = ⟨3⟩ ∧ outer.children.length = 1 ∧
        ∃ owner ∈ out.nested, after.registry.scopes.parent? outer.scope = some owner.scope ∧
          ∀ e ∈ outer.children, ∀ inner ∈ e.nested, inner ∈ document.body.nested ∧
            after.registry.scopes.isInside inner.scope owner.scope ∧
            ¬ after.registry.scopes.isInside inner.scope outer.scope := by
  obtain ⟨document, registry, hread, out, after, hrun, hsize, hscopes, outer, hget, houter, hone⟩ :
      ∃ document registry, (documentOf sampleMoved).run {} = .ok (document, registry) ∧
        ∃ out after, (document.body.desugar .default).run { registry } = (.ok out, after) ∧
          registry.scopes.size = 3 ∧ out.nested.map Block.scope = [⟨0⟩, ⟨1⟩, ⟨3⟩, ⟨2⟩] ∧
          ∃ outer, out.nested[2]? = some outer ∧ outer.scope = ⟨3⟩ ∧ outer.children.length = 1 :=
    ⟨_, _, rfl, _, _, rfl, rfl, rfl, _, rfl, rfl, rfl⟩
  have hmem := List.mem_of_getElem? hget
  obtain ⟨hlt, -⟩ | ⟨-, owner, howner, -, -, hparent, hinside⟩ :=
    Block.desugar_nests_except_in_scripts hread hrun outer hmem
  · rw [houter, hsize] at hlt
    exact absurd hlt (Nat.lt_irrefl 3)
  · exact ⟨document, { registry }, out, after, hread, hrun, hscopes, outer, hmem, houter, hone,
      owner, howner, hparent, hinside⟩

/-- Nesting of blocks and of scopes do not agree everywhere: the closure inside the script of
`sampleMoved` does not lie inside the scope of the script. -/
theorem Block.desugar_breaks_nesting_in_scripts :
    ¬ ∀ (value : Json.Value) (document : Document) (keywords : Keywords) (before after : Progress)
      (out : Block), (documentOf value).run {} = .ok (document, before.registry) →
      (document.body.desugar keywords).run before = (.ok out, after) →
      ∀ outer ∈ out.nested, ∀ inner ∈ outer.nested,
        after.registry.scopes.isInside inner.scope outer.scope := by
  intro h
  obtain ⟨document, registry, hread, out, after, hrun, outer, houter, inner, hinner, hnot⟩ :
      ∃ document registry, (documentOf sampleMoved).run {} = .ok (document, registry) ∧
        ∃ out after, (document.body.desugar .default).run { registry } = (.ok out, after) ∧
          ∃ outer, out.nested[2]? = some outer ∧ ∃ inner, outer.nested[1]? = some inner ∧
            after.registry.scopes.isInside inner.scope outer.scope = false :=
    ⟨_, _, rfl, _, _, rfl, _, rfl, _, rfl, rfl⟩
  have hinside := h sampleMoved document .default { registry } after out hread hrun
    outer (List.mem_of_getElem? houter) inner (List.mem_of_getElem? hinner)
  rw [hnot] at hinside
  cases hinside

end FlowDesugar
