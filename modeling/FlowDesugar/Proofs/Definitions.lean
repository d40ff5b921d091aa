import FlowDesugar.Desugar
import FlowDesugar.Proofs.Children
import FlowDesugar.Proofs.Pass

/-!
# The definitions of a tree

A definition is a call of a keyword without a receiver; a *topmost* one lies inside no other.
`Expr.definitions` lists the topmost definitions of a tree in the order in which a walk meets them,
and `Expr.fill` puts other expressions into their places. These are the two halves of desugaring a
tree:

* `Expr.definitions_fill` and `Expr.fill_definitions` — the laws of getting and putting back;
* `Expr.desugar_eq` and `Block.desugar_eq` — desugaring lists the topmost definitions, puts each of
  them into canonical form, one after another, and fills the results in.

A statement about desugaring is thereby one about a run over a list of definitions. The tree comes
in only where `fill` is looked at. A statement that follows the tree and the progress of the pass at
once goes by `Expr.desugar_induction`.
-/

namespace FlowDesugar

/-- A definition as it stands in a tree. -/
structure Definition where
  loc : Handle
  keyword : String
  args : List Expr

namespace Definition

/-- The call that a definition is. -/
def expr (d : Definition) : Expr :=
  .call d.loc none d.keyword d.args

/-- Puts a definition into canonical form. -/
def canonical (d : Definition) : Pass Expr :=
  reshape d.loc d.keyword d.args

end Definition

namespace Expr

/-- The definition that an expression is, if it is one. -/
def definition? (keywords : Keywords) : Expr → Option Definition
  | call loc none method args =>
    if keywords.contains method then some ⟨loc, method, args⟩ else none
  | _ => none

/-- The topmost definitions of an expression, from left to right. -/
def definitions (keywords : Keywords) (e : Expr) : List Definition :=
  match e.definition? keywords with
  | some d => [d]
  | none => e.children.attach.flatMap fun c => c.val.definitions keywords
termination_by sizeOf e
decreasing_by exact sizeOf_lt_of_mem_children c.property

/-- Deals a list out to expressions: each gets as many items as it has topmost definitions. -/
def shares (keywords : Keywords) : List Expr → List Expr → List (Expr × List Expr)
  | [], _ => []
  | e :: es, calls =>
    let count := (e.definitions keywords).length
    (e, calls.take count) :: shares keywords es (calls.drop count)

theorem fst_mem_of_mem_shares {keywords : Keywords} {es calls : List Expr}
    {share : Expr × List Expr} (h : share ∈ shares keywords es calls) : share.1 ∈ es := by
  induction es generalizing calls with
  | nil => cases h
  | cons e es ih =>
    rcases List.mem_cons.mp h with rfl | h
    · exact List.mem_cons_self
    · exact List.mem_cons_of_mem e (ih h)

/-- The same expression with `calls` in the places of its topmost definitions, of which there have
to be as many. -/
def fill (keywords : Keywords) (e : Expr) (calls : List Expr) : Expr :=
  match e.definition? keywords with
  | some _ => calls.headD e
  | none =>
    e.withChildren ((shares keywords e.children calls).attach.map fun share =>
      share.val.1.fill keywords share.val.2)
termination_by sizeOf e
decreasing_by exact sizeOf_lt_of_mem_children (fst_mem_of_mem_shares share.property)

/-- Fills `calls` into the places of the topmost definitions of several expressions. -/
def fillEach (keywords : Keywords) (es calls : List Expr) : List Expr :=
  (shares keywords es calls).map fun share => share.1.fill keywords share.2

end Expr

namespace Block

/-- The topmost definitions of a block, statement by statement. -/
def definitions (keywords : Keywords) (block : Block) : List Definition :=
  block.children.flatMap (Expr.definitions keywords)

/-- The same block with `calls` in the places of its topmost definitions. -/
def fill (keywords : Keywords) (block : Block) (calls : List Expr) : Block :=
  block.withChildren (Expr.fillEach keywords block.children calls)

end Block

/-! ### One node at a time -/

namespace Expr

variable {keywords : Keywords}

theorem eq_of_definition? {e : Expr} {d : Definition} (h : e.definition? keywords = some d) :
    e = d.expr ∧ keywords.contains d.keyword := by
  cases e with
  | call loc receiver method args =>
    cases receiver with
    | none =>
      by_cases hk : keywords.contains method
      · rw [definition?, if_pos hk] at h
        obtain rfl := Option.some.inj h
        exact ⟨rfl, hk⟩
      · rw [definition?, if_neg hk] at h
        cases h
    | some receiver => cases h
  | _ => cases h

theorem definition?_expr {d : Definition} (h : keywords.contains d.keyword) :
    d.expr.definition? keywords = some d :=
  if_pos h

/-- Whether a node is a definition does not depend on its children. -/
theorem definition?_withChildren {e : Expr} (h : e.definition? keywords = none)
    (exprs : List Expr) : (e.withChildren exprs).definition? keywords = none := by
  -- Only calls without a receiver can be definitions, and they stay calls of the same method. Where
  -- `withChildren` looks at the number of expressions, every number gives the same kind of node.
  cases e with
  | call loc receiver method args =>
    cases receiver with
    | none =>
      by_cases hk : keywords.contains method
      · rw [definition?, if_pos hk] at h
        cases h
      · exact if_neg hk
    | some receiver => cases exprs <;> rfl
  | property loc target name =>
    match exprs with
    | [] | [_] | _ :: _ :: _ => rfl
  | binary loc op left right =>
    match exprs with
    | [] | [_] | [_, _] | _ :: _ :: _ :: _ => rfl
  | _ => rfl

theorem definitions_of_some {e : Expr} {d : Definition} (h : e.definition? keywords = some d) :
    e.definitions keywords = [d] := by
  rw [definitions, h]

theorem definitions_of_none {e : Expr} (h : e.definition? keywords = none) :
    e.definitions keywords = e.children.flatMap (definitions keywords) := by
  rw [definitions, h]
  simp

theorem fill_of_some {e : Expr} {d : Definition} (h : e.definition? keywords = some d)
    (call : Expr) : e.fill keywords [call] = call := by
  rw [fill, h]
  rfl

theorem fill_of_none {e : Expr} (h : e.definition? keywords = none) (calls : List Expr) :
    e.fill keywords calls = e.withChildren (fillEach keywords e.children calls) := by
  rw [fill, h]
  exact congrArg e.withChildren
    (List.attach_map_val (f := fun share : Expr × List Expr => share.1.fill keywords share.2))

theorem fillEach_nil (calls : List Expr) : fillEach keywords [] calls = [] := rfl

/-- The calls of the first expression come first. -/
theorem fillEach_cons (e : Expr) (es : List Expr) {calls : List Expr} (rest : List Expr)
    (h : calls.length = (e.definitions keywords).length) :
    fillEach keywords (e :: es) (calls ++ rest)
      = e.fill keywords calls :: fillEach keywords es rest := by
  change (e.fill keywords ((calls ++ rest).take _) :: fillEach keywords es _) = _
  rw [← h, List.take_left, List.drop_left]

theorem length_fillEach (es calls : List Expr) :
    (fillEach keywords es calls).length = es.length := by
  induction es generalizing calls with
  | nil => rfl
  | cons e es ih =>
    rw [List.length_cons, ← ih (calls.drop (e.definitions keywords).length)]
    rfl

theorem forall_mem_fillEach {q : Expr → Prop} {es calls : List Expr}
    (h : ∀ e ∈ es, ∀ share, share ⊆ calls → q (e.fill keywords share)) :
    ∀ e ∈ fillEach keywords es calls, q e := by
  induction es generalizing calls with
  | nil => exact nofun
  | cons e es ih =>
    refine List.forall_mem_cons.mpr ⟨h e List.mem_cons_self _ (List.take_subset _ _), ?_⟩
    refine ih fun e' he' share hshare => h e' (List.mem_cons_of_mem e he') share ?_
    exact List.Subset.trans hshare (List.drop_subset _ _)

/-! ### Getting and putting back -/

theorem fillEach_definitions {es : List Expr}
    (h : ∀ e ∈ es, e.fill keywords ((e.definitions keywords).map Definition.expr) = e) :
    fillEach keywords es ((es.flatMap (definitions keywords)).map Definition.expr) = es := by
  induction es with
  | nil => rfl
  | cons e es ih =>
    obtain ⟨hfirst, hrest⟩ := List.forall_mem_cons.mp h
    rw [List.flatMap_cons, List.map_append, fillEach_cons e es _ (List.length_map _), hfirst,
      ih hrest]

/-- Filling the definitions themselves in gives the expression back. -/
theorem fill_definitions (e : Expr) :
    e.fill keywords ((e.definitions keywords).map Definition.expr) = e := by
  induction e using inductionOnChildren with
  | node e ih =>
    cases h : e.definition? keywords with
    | some d =>
      rw [definitions_of_some h, List.map_singleton, fill_of_some h]
      exact (eq_of_definition? h).1.symm
    | none =>
      rw [definitions_of_none h, fill_of_none h, fillEach_definitions ih, withChildren_children]

theorem definitions_fillEach {es : List Expr} {ds : List Definition}
    (h : ∀ e ∈ es, ∀ share : List Definition, share ⊆ ds →
      share.length = (e.definitions keywords).length →
      (e.fill keywords (share.map Definition.expr)).definitions keywords = share)
    (hlength : ds.length = (es.flatMap (definitions keywords)).length) :
    (fillEach keywords es (ds.map Definition.expr)).flatMap (definitions keywords) = ds := by
  induction es generalizing ds with
  | nil => exact (List.length_eq_zero_iff.mp hlength).symm
  | cons e es ih =>
    rw [List.flatMap_cons, List.length_append] at hlength
    -- the first definitions are those of `e`, the others those of `es`
    obtain ⟨first, rest, rfl, hfirst⟩ :
        ∃ first rest, ds = first ++ rest ∧ first.length = (e.definitions keywords).length :=
      ⟨ds.take (e.definitions keywords).length, ds.drop (e.definitions keywords).length,
        (List.take_append_drop _ _).symm, by rw [List.length_take]; omega⟩
    rw [List.length_append] at hlength
    have hrest : (fillEach keywords es (rest.map Definition.expr)).flatMap (definitions keywords)
        = rest := by
      refine ih (fun e' he' share hshare => ?_) (by omega)
      exact h e' (List.mem_cons_of_mem e he') share
        (List.Subset.trans hshare (List.subset_append_right first rest))
    rw [List.map_append, fillEach_cons e es _ (by rw [List.length_map, hfirst]), List.flatMap_cons,
      h e List.mem_cons_self first (List.subset_append_left first rest) hfirst, hrest]

/-- The topmost definitions of a filled expression are those that were filled in. -/
theorem definitions_fill (e : Expr) (ds : List Definition)
    (hds : ∀ d ∈ ds, keywords.contains d.keyword)
    (hlength : ds.length = (e.definitions keywords).length) :
    (e.fill keywords (ds.map Definition.expr)).definitions keywords = ds := by
  induction e using inductionOnChildren generalizing ds with
  | node e ih =>
    cases h : e.definition? keywords with
    | some d =>
      rw [definitions_of_some h, List.length_singleton] at hlength
      obtain ⟨d', rfl⟩ := List.length_eq_one_iff.mp hlength
      rw [List.map_singleton, fill_of_some h]
      exact definitions_of_some (definition?_expr (hds d' (List.mem_singleton_self d')))
    | none =>
      -- the node is no definition after filling either, so that its children are looked at
      rw [definitions_of_none h] at hlength
      rw [fill_of_none h, definitions_of_none (definition?_withChildren h _),
        children_withChildren _ _ (length_fillEach ..)]
      refine definitions_fillEach (fun c hc share hshare => ?_) hlength
      exact ih c hc share fun d hd => hds d (hshare hd)

theorem keyword_of_mem_definitions {e : Expr} :
    ∀ d ∈ e.definitions keywords, keywords.contains d.keyword := by
  induction e using inductionOnChildren with
  | node e ih =>
    cases h : e.definition? keywords with
    | some d =>
      rw [definitions_of_some h]
      exact List.forall_mem_singleton.mpr (eq_of_definition? h).2
    | none =>
      rw [definitions_of_none h]
      intro d hd
      obtain ⟨c, hc, hdc⟩ := List.mem_flatMap.mp hd
      exact ih c hc d hdc

end Expr

namespace Block

variable {keywords : Keywords}

theorem keyword_of_mem_definitions {block : Block} :
    ∀ d ∈ block.definitions keywords, keywords.contains d.keyword := by
  intro d hd
  obtain ⟨e, -, hde⟩ := List.mem_flatMap.mp hd
  exact Expr.keyword_of_mem_definitions d hde

/-- Filling the definitions themselves in gives the block back. -/
theorem fill_definitions (block : Block) :
    block.fill keywords ((block.definitions keywords).map Definition.expr) = block := by
  unfold fill definitions
  rw [Expr.fillEach_definitions fun e _ => Expr.fill_definitions e, withChildren_children]

/-- The topmost definitions of a filled block are those that were filled in. -/
theorem definitions_fill (block : Block) (ds : List Definition)
    (hds : ∀ d ∈ ds, keywords.contains d.keyword)
    (hlength : ds.length = (block.definitions keywords).length) :
    (block.fill keywords (ds.map Definition.expr)).definitions keywords = ds := by
  unfold fill definitions
  rw [children_withChildren _ _ (Expr.length_fillEach ..)]
  refine Expr.definitions_fillEach (fun e _ share hshare => ?_) hlength
  exact Expr.definitions_fill e share fun d hd => hds d (hshare hd)

end Block

/-! ### Desugaring lists, transforms and fills in -/

section Desugar

variable {keywords : Keywords}

private theorem desugarChunks_eq (chunks : List Chunk) :
    desugarChunks keywords chunks = chunks.mapM (Chunk.walk (Expr.desugar keywords)) := by
  induction chunks with
  | nil => simp [desugarChunks]
  | cons chunk chunks ih => cases chunk <;> simp [desugarChunks, Chunk.walk, ih]

private theorem desugarExprs_eq (es : List Expr) :
    desugarExprs keywords es = es.mapM (Expr.desugar keywords) := by
  induction es with
  | nil => simp [desugarExprs]
  | cons e es ih => simp [desugarExprs, ih]

private theorem desugarEntries_eq (entries : List Entry) :
    desugarEntries keywords entries = entries.mapM (Entry.walk (Expr.desugar keywords)) := by
  induction entries with
  | nil => simp [desugarEntries]
  | cons entry entries ih => cases entry; simp [desugarEntries, Entry.walk, ih]

private theorem desugarStmts_eq (scope : ScopeId) (stmts : List Stmt) :
    Block.mk scope <$> desugarStmts keywords stmts
      = Block.walk (Expr.desugar keywords) ⟨scope, stmts⟩ := by
  simp only [Block.walk, bind_pure_comp]
  refine congrArg (Block.mk scope <$> ·) ?_
  induction stmts with
  | nil => simp [desugarStmts]
  | cons stmt stmts ih => cases stmt; simp [desugarStmts, Stmt.withExpr, ih]

theorem Block.desugar_eq_walk (block : Block) :
    block.desugar keywords = block.walk (Expr.desugar keywords) := by
  cases block with
  | mk scope stmts =>
    rw [← desugarStmts_eq, Block.desugar, bind_pure_comp]

namespace Expr

theorem desugar_of_some {e : Expr} {d : Definition} (h : e.definition? keywords = some d) :
    e.desugar keywords = d.canonical := by
  obtain ⟨rfl, hk⟩ := eq_of_definition? h
  exact if_pos hk

theorem desugar_of_none {e : Expr} (h : e.definition? keywords = none) :
    e.desugar keywords = e.walk (desugar keywords) := by
  cases e with
  | literal loc value => rfl
  | gstring loc chunks => rw [desugar, walk, desugarChunks_eq]
  | var loc name => rfl
  | property loc target name => rfl
  | call loc receiver method args =>
    cases receiver with
    | none =>
      -- a call of a keyword would be a definition
      by_cases hk : keywords.contains method
      · rw [definition?, if_pos hk] at h
        cases h
      · rw [desugar, if_neg hk, walk, desugarExprs_eq, walkReceiver, pure_bind]
    | some receiver => simp [desugar, walk, walkReceiver, desugarExprs_eq]
  | map loc entries => rw [desugar, walk, desugarEntries_eq]
  | list loc items => rw [desugar, walk, desugarExprs_eq]
  | binary loc op left right => rfl
  | closure loc params body =>
    cases body with
    | mk scope stmts => simp [desugar, walk, ← desugarStmts_eq]
  | thunk loc body =>
    cases body with
    | mk scope stmts => simp [desugar, walk, ← desugarStmts_eq]

/-- Results of a run over a list may be taken to be as many as its items. -/
private theorem mapM_bind_congr {α β γ : Type} {f : α → Pass β} (as : List α)
    {g h : List β → Pass γ} (hgh : ∀ bs, bs.length = as.length → g bs = h bs) :
    as.mapM f >>= g = as.mapM f >>= h := by
  induction as generalizing g h with
  | nil => simpa using hgh [] rfl
  | cons a as ih =>
    simp only [List.mapM_cons, bind_assoc, pure_bind]
    exact bind_congr fun b => ih fun bs hbs => hgh (b :: bs) (congrArg Nat.succ hbs)

/-- A list of expressions each of which is desugared by listing, transforming and filling in is
desugared so as a whole. -/
private theorem mapM_desugar_eq (es : List Expr)
    (hes : ∀ e ∈ es, e.desugar keywords
      = e.fill keywords <$> (e.definitions keywords).mapM Definition.canonical) :
    es.mapM (desugar keywords)
      = fillEach keywords es
        <$> (es.flatMap (definitions keywords)).mapM Definition.canonical := by
  induction es with
  | nil => simp [fillEach_nil]
  | cons e es ih =>
    rw [List.mapM_cons, hes e List.mem_cons_self,
      ih fun e' he' => hes e' (List.mem_cons_of_mem e he'), List.flatMap_cons, List.mapM_append]
    simp only [map_eq_pure_bind, bind_assoc, pure_bind]
    -- the run over `e` gives as many calls as `e` has definitions, so that `fillEach` cuts the
    -- calls apart where the two runs meet
    refine mapM_bind_congr _ fun calls hcalls => bind_congr fun rest => ?_
    rw [fillEach_cons e es rest hcalls]

/-- **Desugaring an expression** lists its topmost definitions, puts each into canonical form, in
order, and fills the results in. -/
theorem desugar_eq (e : Expr) :
    e.desugar keywords
      = e.fill keywords <$> (e.definitions keywords).mapM Definition.canonical := by
  induction e using inductionOnChildren with
  | node e ih =>
    cases h : e.definition? keywords with
    | some d =>
      rw [desugar_of_some h, definitions_of_some h]
      simp [fill_of_some h]
    | none =>
      -- the walk desugars the children, and what is filled into them is put back into the node
      have hfill : e.fill keywords = fun calls =>
          e.withChildren (fillEach keywords e.children calls) := funext (fill_of_none h)
      rw [desugar_of_none h, walk_eq_mapM, mapM_desugar_eq e.children ih, definitions_of_none h,
        hfill, Functor.map_map]

end Expr

/-- **Desugaring a block** lists its topmost definitions, puts each into canonical form, in order,
and fills the results in. -/
theorem Block.desugar_eq (block : Block) :
    block.desugar keywords
      = block.fill keywords <$> (block.definitions keywords).mapM Definition.canonical := by
  rw [Block.desugar_eq_walk, Block.walk_eq_mapM,
    Expr.mapM_desugar_eq block.children fun e _ => e.desugar_eq, Functor.map_map]
  rfl

/-! ### Induction over a pass -/

/-- **Induction over a pass** that has a result: what holds of putting a definition into canonical
form, and passes from the children of any other node to the node, holds of desugaring. The children
come in pairs with what they become. -/
theorem Expr.desugar_induction {motive : Expr → Expr → Progress → Progress → Prop}
    (definition : ∀ {d : Definition} {call : Expr} {before after : Progress},
      d.canonical.run before = (.ok call, after) → motive d.expr call before after)
    (node : ∀ {e : Expr} {pairs : List (Expr × Expr)} {before after : Progress},
      e.definition? keywords = none → pairs.map Prod.fst = e.children →
      Threaded (fun pair => motive pair.1 pair.2) pairs before after →
      motive e (e.withChildren (pairs.map Prod.snd)) before after)
    {e out : Expr} {before after : Progress}
    (h : (e.desugar keywords).run before = (.ok out, after)) : motive e out before after := by
  induction e using inductionOnChildren generalizing out before after with
  | node e ih =>
    cases hdef : e.definition? keywords with
    | some d =>
      rw [desugar_of_some hdef] at h
      rw [(eq_of_definition? hdef).1]
      exact definition h
    | none =>
      rw [desugar_of_none hdef, walk_eq_mapM, Pass.run_map_eq_ok] at h
      obtain ⟨outs, hrun, rfl⟩ := h
      obtain ⟨pairs, hfst, rfl, hthreaded⟩ := Pass.threaded_of_run_mapM hrun
      refine node hdef hfst (hthreaded.imp fun pair hpair _ _ hstep => ih pair.1 ?_ hstep)
      rw [← hfst]
      exact List.mem_map_of_mem hpair

/-- A pass over a block goes through its statements, one after another. -/
theorem Block.threaded_of_desugar {block out : Block} {before after : Progress}
    (h : (block.desugar keywords).run before = (.ok out, after)) :
    ∃ pairs : List (Expr × Expr), pairs.map Prod.fst = block.children ∧
      out = block.withChildren (pairs.map Prod.snd) ∧
      Threaded (fun pair s t => (pair.1.desugar keywords).run s = (.ok pair.2, t)) pairs before
        after := by
  rw [Block.desugar_eq_walk, Block.walk_eq_mapM, Pass.run_map_eq_ok] at h
  obtain ⟨outs, hrun, rfl⟩ := h
  obtain ⟨pairs, hfst, rfl, hthreaded⟩ := Pass.threaded_of_run_mapM hrun
  exact ⟨pairs, hfst, rfl, hthreaded⟩

end Desugar

end FlowDesugar
