import FlowDesugar.Proofs.Canonical

/-!
# What holds at every node

`Expr.Everywhere p` says that a property `p` of single nodes holds of an expression and of all that
is inside it. Desugaring makes new calls, thunks, strings and truth values, and otherwise puts what
it finds into other places. So a property that these new nodes have, and that a node keeps when it
gets other children, persists: `Persists.desugar` says that it holds everywhere in the result if it
holds everywhere in the tree.

The proof follows the pass from the inside out, by what is done to a declaration
(`Persists.canonicalize`), to the body of a definition (`Persists.scriptedBody`), to a definition
(`Persists.canonical`) and to the tree around the definitions (`Persists.fill`).
-/

namespace FlowDesugar

/-- The property holds of an expression and of everything inside it. -/
inductive Expr.Everywhere (p : Expr → Prop) : Expr → Prop
  | node {e : Expr} : p e → (∀ c ∈ e.children, Everywhere p c) → Everywhere p e

/-- The property holds of everything inside a block. -/
def Block.Everywhere (p : Expr → Prop) (block : Block) : Prop :=
  ∀ e ∈ block.children, e.Everywhere p

/-- The nodes that desugaring makes have the property, and a node keeps it with other children. -/
structure Persists (p : Expr → Prop) : Prop where
  text : ∀ loc value, p (.ofText loc value)
  bool : ∀ loc value, p (.ofBool loc value)
  call : ∀ loc receiver method args, p (.call loc receiver method args)
  thunk : ∀ loc body, p (.thunk loc body)
  withChildren : ∀ e exprs, p e → p (e.withChildren exprs)

namespace Expr.Everywhere

variable {p : Expr → Prop} {e : Expr}

theorem own (h : e.Everywhere p) : p e := by
  cases h with
  | node hp _ => exact hp

theorem children (h : e.Everywhere p) : ∀ c ∈ e.children, c.Everywhere p := by
  cases h with
  | node _ hchildren => exact hchildren

theorem and {q : Expr → Prop} (hp : e.Everywhere p) (hq : e.Everywhere q) :
    e.Everywhere fun node => p node ∧ q node := by
  induction e using Expr.inductionOnChildren with
  | node e ih =>
    exact .node ⟨hp.own, hq.own⟩ fun c hc => ih c hc (hp.children c hc) (hq.children c hc)

/-- The definitions of an expression are inside it. -/
theorem definitions {keywords : Keywords} (h : e.Everywhere p) :
    ∀ d ∈ e.definitions keywords, d.expr.Everywhere p := by
  induction e using Expr.inductionOnChildren with
  | node e ih =>
    cases hdef : e.definition? keywords with
    | some d =>
      rw [Expr.definitions_of_some hdef]
      refine List.forall_mem_singleton.mpr ?_
      rw [← (Expr.eq_of_definition? hdef).1]
      exact h
    | none =>
      rw [Expr.definitions_of_none hdef]
      intro d hd
      obtain ⟨c, hc, hdc⟩ := List.mem_flatMap.mp hd
      exact ih c hc (h.children c hc) d hdc

/-- The inner arguments of a definition stand two levels below it. -/
theorem inner {d : Definition} (h : d.expr.Everywhere p) {nameLoc : Handle} {name : String}
    {args : List Expr} (hinner : Definition.inner? d.args = some (nameLoc, name, args)) :
    ∀ e ∈ args, e.Everywhere p := by
  refine (h.children (.call nameLoc none name args) ?_).children
  change _ ∈ d.args
  rw [Definition.args_of_inner? hinner]
  exact List.mem_cons_self

end Expr.Everywhere

theorem canonicalizeComponents_eq (inside : Section) (args : List Expr) :
    canonicalizeComponents inside args = args.map (Expr.canonicalize inside) := by
  induction args with
  | nil => rfl
  | cons arg args ih => rw [canonicalizeComponents, ih, List.map_cons]

theorem Definition.forall_mem_withName {q : Expr → Prop} {args : List Expr} {name : Expr}
    (hargs : ∀ e ∈ args, q e) (hname : q name) : ∀ e ∈ withName args name, q e := by
  refine List.forall_mem_append.mpr ⟨?_, List.forall_mem_cons.mpr ⟨hname, ?_⟩⟩
  · exact fun e he => hargs e (List.mem_of_mem_take he)
  · exact fun e he => hargs e (List.mem_of_mem_drop he)

namespace Persists

variable {p : Expr → Prop} (hp : Persists p)

include hp

/-! ### New nodes -/

theorem everywhere_ofText (loc : Handle) (value : String) : (Expr.ofText loc value).Everywhere p :=
  .node (hp.text loc value) nofun

theorem everywhere_ofBool (loc : Handle) (value : Bool) : (Expr.ofBool loc value).Everywhere p :=
  .node (hp.bool loc value) nofun

theorem everywhere_call {loc : Handle} {receiver : Option Expr} {method : String}
    {args : List Expr} (hreceiver : ∀ e ∈ receiver.toList, e.Everywhere p)
    (hargs : ∀ e ∈ args, e.Everywhere p) : (Expr.call loc receiver method args).Everywhere p :=
  .node (hp.call ..) (List.forall_mem_append.mpr ⟨hreceiver, hargs⟩)

theorem everywhere_thunk {loc : Handle} {block : Block} (h : block.Everywhere p) :
    (Expr.thunk loc block).Everywhere p :=
  .node (hp.thunk ..) h

/-! ### Declarations -/

theorem encode {encoding : Encoding} {arg : Expr} (h : arg.Everywhere p) :
    ∀ e ∈ encoding.apply arg, e.Everywhere p := by
  have hself : ∀ e ∈ [arg], e.Everywhere p := List.forall_mem_singleton.mpr h
  have hflagged : ∀ e ∈ [Expr.ofBool arg.loc false, arg], e.Everywhere p :=
    List.forall_mem_cons.mpr ⟨hp.everywhere_ofBool _ _, hself⟩
  cases encoding with
  | untouched => exact hself
  | name =>
    cases arg with
    | var loc ident => exact List.forall_mem_singleton.mpr (hp.everywhere_ofText loc ident)
    | _ => exact hself
  | flagged =>
    cases arg with
    | var loc ident =>
      exact List.forall_mem_cons.mpr ⟨hp.everywhere_ofBool loc true,
        List.forall_mem_singleton.mpr (hp.everywhere_ofText loc ident)⟩
    | _ => exact hflagged

theorem encodeArgs {rule : Rule} {args : List Expr} (h : ∀ e ∈ args, e.Everywhere p) :
    ∀ e ∈ rule.encodeArgs args, e.Everywhere p := by
  unfold Rule.encodeArgs Encoding.applyAt
  split
  · exact h
  · next arg harg =>
    refine List.forall_mem_append.mpr ⟨List.forall_mem_append.mpr ⟨?_, ?_⟩, ?_⟩
    · exact fun e he => h e (List.mem_of_mem_take he)
    · exact hp.encode (h arg (List.mem_of_getElem? harg))
    · exact fun e he => h e (List.mem_of_mem_drop he)

theorem canonicalize {inside : Section} {e : Expr} (h : e.Everywhere p) :
    (e.canonicalize inside).Everywhere p := by
  induction e using Expr.inductionOnChildren with
  | node e ih =>
    -- the links of a chain and the components of a tuple are children of the call
    cases e with
    | call loc receiver method args =>
      have hchildren := List.forall_mem_append.mp h.children
      have hreceiver : ∀ e ∈ (canonicalizeReceiver inside receiver).toList, e.Everywhere p := by
        cases receiver with
        | none => exact nofun
        | some receiver =>
          refine List.forall_mem_singleton.mpr (ih receiver List.mem_cons_self ?_)
          exact hchildren.1 receiver List.mem_cons_self
      have hargs : ∀ e ∈ canonicalizeComponents inside args, e.Everywhere p := by
        rw [canonicalizeComponents_eq]
        refine List.forall_mem_map.mpr fun arg harg => ?_
        exact ih arg (List.mem_append_right _ harg) (hchildren.2 arg harg)
      rw [Expr.canonicalize]
      split
      · exact hp.everywhere_call hreceiver hchildren.2
      · split
        · exact hp.everywhere_call hreceiver hargs
        · exact hp.everywhere_call hreceiver (hp.encodeArgs hchildren.2)
    | _ => exact h

theorem rewrite {inside : Section} {e : Expr} (h : e.Everywhere p) :
    (inside.rewrite e).Everywhere p := by
  unfold Section.rewrite
  split
  · exact hp.canonicalize h
  · exact h

/-! ### Bodies -/

theorem declared {block : Block} (h : block.Everywhere p) :
    ∀ stmt ∈ block.declared, stmt.expr.Everywhere p := by
  refine List.forall_mem_map.mpr fun part hpart => hp.rewrite ?_
  exact h _ (List.mem_map_of_mem (Section.snd_mem_of_mem_retained hpart))

theorem deferred {loc : Handle} {scope : ScopeId} {stmts : List Stmt}
    (h : ∀ stmt ∈ stmts, stmt.expr.Everywhere p) :
    (Stmt.deferred loc scope stmts).expr.Everywhere p :=
  hp.everywhere_thunk (List.forall_mem_map.mpr h)

/-- The script that is looked for in a block is made of its statements. -/
theorem deferScript {scopes : Scopes} {definition : Handle} {block : Block} {script : List Stmt}
    (hblock : ∀ stmt ∈ block.stmts, stmt.expr.Everywhere p)
    (hscript : ∀ stmt ∈ script, stmt.expr.Everywhere p) :
    (FlowDesugar.deferScript scopes definition block script).1.block.Everywhere p := by
  have hblock' : block.Everywhere p := List.forall_mem_map.mpr hblock
  unfold FlowDesugar.deferScript
  split
  · -- a script's section goes into a thunk at the end
    refine List.forall_mem_map.mpr (List.forall_mem_append.mpr ⟨hblock, ?_⟩)
    exact List.forall_mem_singleton.mpr (hp.deferred hscript)
  · split
    · exact hblock'
    · next last hlast =>
      split
      · exact hblock'
      · split
        · -- a string at the end goes into a thunk in its place
          refine List.forall_mem_map.mpr (List.forall_mem_append.mpr ⟨?_, ?_⟩)
          · intro stmt hstmt
            rw [List.dropLast_eq_take] at hstmt
            exact hblock stmt (List.mem_of_mem_take hstmt)
          · refine List.forall_mem_singleton.mpr (hp.deferred (List.forall_mem_singleton.mpr ?_))
            exact hblock last (List.mem_of_getLast? hlast)
        · exact hblock'

theorem scriptedBody {scopes : Scopes} {definition : Handle} {block : Block}
    (h : block.Everywhere p) :
    (Definition.scriptedBody scopes definition block).1.block.Everywhere p := by
  refine hp.deferScript (hp.declared h) fun stmt hstmt => ?_
  exact h _ (List.mem_map_of_mem (Section.mem_of_mem_script hstmt))

/-! ### Definitions -/

theorem canonical {d : Definition} (h : d.expr.Everywhere p) {before after : Progress} {call : Expr}
    (hrun : d.canonical.run before = (.ok call, after)) : call.Everywhere p := by
  cases Definition.canonicalRun_of_run hrun with
  | @body nameLoc bodyLoc name init body hinner =>
    obtain ⟨hinit, hthunk⟩ := List.forall_mem_append.mp (h.inner hinner)
    have hfront := Definition.forall_mem_withName hinit (hp.everywhere_ofText nameLoc name)
    refine hp.everywhere_call nofun (List.forall_mem_append.mpr ⟨hfront, ?_⟩)
    refine List.forall_mem_cons.mpr ⟨hp.everywhere_ofBool _ _, List.forall_mem_singleton.mpr ?_⟩
    have hblock : body.Everywhere p := (hthunk _ List.mem_cons_self).children
    exact hp.everywhere_thunk (hp.scriptedBody hblock)
  | @noBody nameLoc name inner hinner hbody =>
    have hargs := h.inner hinner
    have hfront := Definition.forall_mem_withName hargs (hp.everywhere_ofText nameLoc name)
    refine hp.everywhere_call nofun (List.forall_mem_append.mpr ⟨hfront, ?_⟩)
    exact List.forall_mem_singleton.mpr (hp.everywhere_ofBool _ _)

/-! ### Trees -/

theorem fill {keywords : Keywords} {e : Expr} {calls : List Expr} (he : e.Everywhere p)
    (hcalls : ∀ call ∈ calls, call.Everywhere p) : (e.fill keywords calls).Everywhere p := by
  induction e using Expr.inductionOnChildren generalizing calls with
  | node e ih =>
    cases hdef : e.definition? keywords with
    | some d =>
      -- if there are too few calls, the definition stays
      rw [Expr.fill, hdef]
      cases calls with
      | nil => exact he
      | cons call calls => exact hcalls call List.mem_cons_self
    | none =>
      rw [Expr.fill_of_none hdef]
      refine .node (hp.withChildren _ _ he.own) ?_
      rw [Expr.children_withChildren _ _ (Expr.length_fillEach ..)]
      refine Expr.forall_mem_fillEach fun c hc share hshare => ?_
      exact ih c hc (he.children c hc) fun call hcall => hcalls call (hshare hcall)

/-- **What persists holds everywhere in the result** of a pass if it holds everywhere in the
tree. -/
theorem desugar {keywords : Keywords} {block out : Block} {before after : Progress}
    (hblock : block.Everywhere p) (h : (block.desugar keywords).run before = (.ok out, after)) :
    out.Everywhere p := by
  rw [Block.desugar_eq, Pass.run_map_eq_ok] at h
  obtain ⟨calls, hrun, rfl⟩ := h
  have hdefinitions : ∀ d ∈ block.definitions keywords, d.expr.Everywhere p := by
    intro d hd
    obtain ⟨e, he, hde⟩ := List.mem_flatMap.mp hd
    exact (hblock e he).definitions d hde
  have hcalls : ∀ call ∈ calls, call.Everywhere p := by
    refine Pass.run_mapM_induction (motive := fun ds calls _ _ =>
      (∀ d ∈ ds, d.expr.Everywhere p) → ∀ call ∈ calls, call.Everywhere p) ?_ ?_ hrun hdefinitions
    · exact fun _ _ => nofun
    · intro d ds call calls _ _ _ hd ih hds
      obtain ⟨hfirst, hrest⟩ := List.forall_mem_cons.mp hds
      exact List.forall_mem_cons.mpr ⟨hp.canonical hfirst hd, ih hrest⟩
  intro e he
  rw [Block.fill, Block.children_withChildren _ _ (Expr.length_fillEach ..)] at he
  refine Expr.forall_mem_fillEach (fun c hc share hshare => ?_) e he
  exact hp.fill (hblock c hc) fun call hcall => hcalls call (hshare hcall)

end Persists

end FlowDesugar
