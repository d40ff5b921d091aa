import FlowDesugar.Proofs.Desugaring
import FlowDesugar.Proofs.Numbering
import FlowDesugar.Proofs.Scripts

/-!
# Every scope has its block

The blocks of a tree and the scopes of its arena go together one by one: a document that was read
has one block for each scope, and desugaring opens a scope exactly where it makes a block. What
keeps them together is a ledger, `Balanced`: the scopes of the blocks after a part of the pass are
those of the blocks before it and the scopes that were opened on the way, in some order, none twice
and none left out.

* `PassBlocks.balanced` — the ledger of a pass. It balances for the body of a definition
  (`Balanced.body`), for one list of blocks after another (`Balanced.append`), and for a block
  around others (`Balanced.around`);
* `Block.desugar_scopes_bijective` — the blocks and the scopes after a whole document was read and
  desugared, and the number of scopes that desugaring opened.
-/

namespace FlowDesugar

/-! ### The ledger -/

/-- While the arena went from `before` to `after`, the blocks `olds` became the blocks `news`. Every
scope of the old blocks, and every new scope, is the scope of exactly one of the new blocks. -/
structure Balanced (olds news : List Block) (before after : Scopes) : Prop where
  grows : after.Extends before
  perm : (scopesOf news).Perm (scopesOf olds ++ before.added after)

namespace Balanced

variable {before middle after : Scopes}

theorem refl (blocks : List Block) (scopes : Scopes) : Balanced blocks blocks scopes scopes where
  grows := .refl scopes
  perm := by rw [Scopes.added_self, List.append_nil]

/-- One list of blocks after another. -/
theorem append {olds olds' news news' : List Block} (h : Balanced olds news before middle)
    (h' : Balanced olds' news' middle after) :
    Balanced (olds ++ olds') (news ++ news') before after where
  grows := h.grows.trans h'.grows
  perm := by
    have hboth := h.perm.append h'.perm
    rw [scopesOf_append, scopesOf_append,
      ← Scopes.added_append h.grows.size_le h'.grows.size_le]
    refine hboth.trans ?_
    -- the scopes that were opened first come past the old scopes of the second list
    simp only [List.append_assoc]
    exact (List.perm_append_comm_assoc ..).append_left _

/-- A block around others, which keeps its own scope. -/
theorem around {old new : Block} (h : Balanced old.immediate new.immediate before after)
    (hscope : new.scope = old.scope) :
    Balanced [old] [new] before after where
  grows := h.grows
  perm := by
    rw [scopesOf_singleton, scopesOf_singleton, hscope]
    exact h.perm.cons old.scope

/-- The body of a definition. Blocks that move into the script's are counted there. -/
theorem body {body block : Block} (h : BodyBlocks before body block after) :
    Balanced [body] [block] before after := by
  cases h with
  | stay hscope himmediate =>
    refine around ?_ hscope
    rw [himmediate]
    exact .refl _ _
  | @defer loc script rest hscope _ himmediate hmoved =>
    refine around ⟨Scopes.extends_child before body.scope, ?_⟩ hscope
    rw [himmediate, scopesOf_append, scopesOf_singleton, Scopes.added_child]
    have hold := scopesOf_perm hmoved
    rw [scopesOf_append] at hold
    have hnew := (List.perm_append_singleton (before.child body.scope).1
      (scopesOf rest ++ scopesOf (Block.immediate ⟨(before.child body.scope).1, script⟩))).symm
    exact (List.perm_middle.trans hnew).trans (hold.symm.append_right _)

end Balanced

/-- **A pass balances.** -/
theorem PassBlocks.balanced {olds news : List Block} {before after : Scopes}
    (h : PassBlocks olds news before after) : Balanced olds news before after := by
  induction h with
  | stay blocks scopes => exact .refl blocks scopes
  | append _ _ ih ih' => exact ih.append ih'
  | body hbody => exact .body hbody
  | around hscope _ ih => exact ih.around hscope

variable {keywords : Keywords} {before after : Progress}

/-! ### The records of the scopes that were opened -/

namespace Definition

variable {ds : List Definition} {calls : List Expr} {accounts : List Account}

theorem Accounted.agrees_of_mem (h : Accounted ds calls before after accounts) :
    ∀ account ∈ accounts, ∃ map, account.Agrees map := by
  intro account hmem
  obtain ⟨i, hi⟩ := List.getElem?_of_mem hmem
  exact ⟨_, h.agrees i account hi⟩

/-- The records are those of the definitions, one for each. -/
theorem Accounted.records_of_definitions (h : Accounted ds calls before after accounts) :
    (accounts.map Account.record).map (fun r => (r.keyword, some r.name, r.loc))
      = ds.map (fun d => (d.keyword, d.name?, d.loc)) := by
  rw [← h.definitions_eq, List.map_map, List.map_map]
  refine List.map_congr_left fun account hmem => ?_
  obtain ⟨map, hagrees⟩ := h.agrees_of_mem account hmem
  obtain ⟨name, hname, hrecord⟩ := hagrees.record_eq
  simp only [Function.comp_apply, hrecord, hname]

/-- Whether a definition opens a scope can be told from its record and its body. -/
theorem Accounted.countP_opensScope (h : Accounted ds calls before after accounts) :
    ds.countP opensScope
      = (ds.zip (accounts.map Account.record)).countP
          fun (d, record) => record.hasScript && !d.body?.any Block.deferredAlready := by
  rw [← h.definitions_eq, List.zip_map', List.countP_map, List.countP_map]
  refine List.countP_congr fun account hmem => ?_
  obtain ⟨map, hagrees⟩ := h.agrees_of_mem account hmem
  obtain ⟨name, hname, hrecord⟩ := hagrees.record_eq
  simp only [Function.comp_apply, opensScope_eq hname, hrecord]

end Definition

open Definition Interchange

/-- **Blocks and scopes are in bijection.** After a document was read and desugared, every block has
a known scope, no two blocks have the same, and every scope is that of some block. The scopes that
were there after reading keep their parents. Desugaring opened as many scopes as it recorded
definitions with a script, except those whose body has no section for it and ends in a thunk
already. -/
theorem Block.desugar_scopes_bijective {value : Json.Value} {document : Document} {out : Block}
    (hread : (documentOf value).run {} = .ok (document, before.registry))
    (hrun : (document.body.desugar keywords).run before = (.ok out, after)) :
    (∀ b ∈ out.nested, b.scope.index < after.registry.scopes.size) ∧
    (out.nested.map Block.scope).Nodup ∧
    (∀ i < after.registry.scopes.size, ∃ b ∈ out.nested, b.scope = ⟨i⟩) ∧
    (∀ s : ScopeId, s.index < before.registry.scopes.size →
      after.registry.scopes.parent? s = before.registry.scopes.parent? s) ∧
    ∃ records : List DefinitionSummary,
      after.records = before.records ++ records ∧
      records.map (fun r => (r.keyword, some r.name, r.loc))
        = (document.body.definitions keywords).map (fun d => (d.keyword, d.name?, d.loc)) ∧
      after.registry.scopes.size = before.registry.scopes.size +
        ((document.body.definitions keywords).zip records).countP
          fun (d, record) => record.hasScript && !d.body?.any Block.deferredAlready := by
  obtain ⟨hscope, hpass⟩ := Block.passBlocks_of_desugar hrun
  have hbalanced := hpass.balanced.around hscope
  have hids : (out.nested.map Block.scope).Perm after.registry.scopes.ids := by
    have hperm := hbalanced.perm
    simp only [scopesOf, List.flatMap_singleton] at hperm
    rw [nested_scopes_of_documentOf hread,
      Scopes.ids_append_added hbalanced.grows.size_le] at hperm
    exact hperm
  rw [Block.desugar_eq, Pass.run_map_eq_ok] at hrun
  obtain ⟨calls, hcalls, -⟩ := hrun
  obtain ⟨accounts, haccounts⟩ := accounts_of_run hcalls
  refine ⟨?_, ?_, ?_, hbalanced.grows.parent?_eq, accounts.map Account.record,
    haccounts.records_eq, haccounts.records_of_definitions, ?_⟩
  · intro b hb
    exact Scopes.mem_ids.mp (hids.mem_iff.mp (List.mem_map_of_mem hb))
  · exact hids.nodup_iff.mpr (Scopes.nodup_ids _)
  · intro i hi
    have hmem : (⟨i⟩ : ScopeId) ∈ after.registry.scopes.ids := Scopes.mem_ids.mpr hi
    exact List.mem_map.mp (hids.mem_iff.mpr hmem)
  · rw [scopes_of_run hcalls, Scopes.size_withScripts, haccounts.countP_opensScope]

/-- A statement that defines a process whose body has the given statements. -/
def Interchange.sampleDefinition (name : String) (body : List Json.Value) : Json.Value :=
  let block : Json.Value := .object [("kind", .string "closure"), ("statements", .array body)]
  let call (method : String) (arg : Json.Value) : Json.Value :=
    .object [("kind", .string "call"), ("method", .string method), ("args", .array [arg])]
  .object [("kind", .string "expr"), ("expr", call "process" (call name block))]

/-- Two definitions with a script: one whose section has a closure inside, and one that ends in a
closure without parameters. -/
def Interchange.sampleScripts : Json.Value :=
  let closure (params : List Json.Value) : Json.Value :=
    .object [("kind", .string "closure"), ("params", .array params), ("statements", .array [])]
  .object [("statements", .array
    [sampleDefinition "foo" [.object [("kind", .string "expr"), ("label", .string "exec"),
      ("expr", closure [.string "x"])]],
     sampleDefinition "bar" [.object [("kind", .string "expr"), ("expr", closure [])]]])]

theorem Block.desugar_scopes_bijective_scripts :
    ∃ document before out after,
      (documentOf sampleScripts).run {} = .ok (document, before.registry) ∧
      (document.body.desugar .default).run before = (.ok out, after) ∧
      after.records.map (·.hasScript) = [true, true] ∧
      before.registry.scopes.size = 5 ∧ after.registry.scopes.size = 6 ∧
      (∀ b ∈ out.nested, b.scope.index < 6) ∧ (out.nested.map Block.scope).Nodup ∧
      ∀ i < 6, ∃ b ∈ out.nested, b.scope = ⟨i⟩ := by
  obtain ⟨document, registry, hread, out, after, hrun, hflags, hbefore, hafter⟩ :
      ∃ document registry, (documentOf sampleScripts).run {} = .ok (document, registry) ∧
        ∃ out after, (document.body.desugar .default).run { registry } = (.ok out, after) ∧
          after.records.map (·.hasScript) = [true, true] ∧
          registry.scopes.size = 5 ∧ after.registry.scopes.size = 6 :=
    ⟨_, _, rfl, _, _, rfl, rfl, rfl, rfl⟩
  obtain ⟨hknown, hdistinct, hused, -⟩ := Block.desugar_scopes_bijective hread hrun
  rw [hafter] at hknown hused
  exact ⟨document, { registry }, out, after, hread, hrun, hflags, hbefore, hafter, hknown,
    hdistinct, hused⟩

end FlowDesugar
