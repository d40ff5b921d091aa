import Mathlib.Data.List.Basic
import FlowDesugar.Proofs.Everywhere

/-!
# The blocks of a tree

`Expr.nested` lists all blocks inside an expression, each before those inside it. Here they are put
into layers: `Expr.outermost` lists the blocks of an expression that lie inside no other block of
it, and `Block.immediate` those that lie immediately inside a block.

* `Expr.nested_eq` and `Block.nested_eq` — the blocks of a tree are those of the first layer, each
  with what is inside it;
* `Block.inductionOnImmediate` — what passes from the blocks immediately inside a block to the block
  holds of every block;
* `Expr.outermost_canonicalize` — the canonical form of a declaration has the same blocks, in the
  same order.
-/

namespace FlowDesugar

/-! ### Nested blocks, by children -/

private theorem nestedInExprs_eq (es : List Expr) : nestedInExprs es = es.flatMap Expr.nested := by
  induction es with
  | nil => rfl
  | cons e es ih => rw [nestedInExprs, ih, List.flatMap_cons]

private theorem nestedInChunks_eq (chunks : List Chunk) :
    nestedInChunks chunks = (chunks.filterMap Chunk.expr?).flatMap Expr.nested := by
  induction chunks with
  | nil => rfl
  | cons chunk chunks ih =>
    cases chunk with
    | text value => rw [nestedInChunks, ih, interpolated_text]
    | interpolation e => rw [nestedInChunks, ih, interpolated_interpolation, List.flatMap_cons]

private theorem nestedInReceiver_eq (receiver : Option Expr) :
    nestedInReceiver receiver = receiver.toList.flatMap Expr.nested := by
  cases receiver with
  | none => rfl
  | some receiver =>
    rw [nestedInReceiver, Option.toList_some, List.flatMap_singleton]

private theorem nestedInEntries_eq (entries : List Entry) :
    nestedInEntries entries = (entries.map Entry.value).flatMap Expr.nested := by
  induction entries with
  | nil => rfl
  | cons entry entries ih =>
    cases entry
    rw [nestedInEntries, ih, List.map_cons, List.flatMap_cons]

private theorem nestedInStmts_eq (stmts : List Stmt) :
    nestedInStmts stmts = (stmts.map Stmt.expr).flatMap Expr.nested := by
  induction stmts with
  | nil => rfl
  | cons stmt stmts ih =>
    cases stmt
    rw [nestedInStmts, ih, List.map_cons, List.flatMap_cons]

theorem Block.nested_eq_children (block : Block) :
    block.nested = block :: block.children.flatMap Expr.nested := by
  cases block with
  | mk scope stmts => rw [Block.nested, nestedInStmts_eq, Block.children]

namespace Expr

theorem nested_of_some {e : Expr} {body : Block} (h : e.body? = some body) :
    e.nested = body.nested := by
  cases e with
  | closure loc params block =>
    obtain rfl := Option.some.inj h
    rw [nested]
  | thunk loc block =>
    obtain rfl := Option.some.inj h
    rw [nested]
  | _ => cases h

theorem nested_of_none {e : Expr} (h : e.body? = none) :
    e.nested = e.children.flatMap nested := by
  cases e with
  | literal loc value => rfl
  | gstring loc chunks => rw [nested, nestedInChunks_eq, children]
  | var loc name => rfl
  | property loc target name => rw [nested, children, List.flatMap_singleton]
  | call loc receiver method args =>
    rw [nested, nestedInReceiver_eq, nestedInExprs_eq, children, List.flatMap_append]
  | map loc entries => rw [nested, nestedInEntries_eq, children]
  | list loc items => rw [nested, nestedInExprs_eq, children]
  | binary loc op left right =>
    rw [nested, children, List.flatMap_cons, List.flatMap_singleton]
  | closure loc params body => cases h
  | thunk loc body => cases h

/-! ### Layers -/

theorem children_of_some {e : Expr} {body : Block} (h : e.body? = some body) :
    e.children = body.children := by
  cases e with
  | closure loc params block =>
    obtain rfl := Option.some.inj h
    rfl
  | thunk loc block =>
    obtain rfl := Option.some.inj h
    rfl
  | _ => cases h

/-- The blocks of an expression that lie inside no other block of it, from left to right. -/
def outermost (e : Expr) : List Block :=
  match e.body? with
  | some body => [body]
  | none => e.children.attach.flatMap fun c => c.val.outermost
termination_by sizeOf e
decreasing_by exact sizeOf_lt_of_mem_children c.property

theorem outermost_of_some {e : Expr} {body : Block} (h : e.body? = some body) :
    e.outermost = [body] := by
  rw [outermost, h]

theorem outermost_of_none {e : Expr} (h : e.body? = none) :
    e.outermost = e.children.flatMap outermost := by
  rw [outermost, h]
  simp

end Expr

/-- The blocks that lie immediately inside a block, from left to right. -/
def Block.immediate (block : Block) : List Block :=
  block.children.flatMap Expr.outermost

/-- **The blocks of an expression**: the outermost ones, each with what is inside it. -/
theorem Expr.nested_eq (e : Expr) : e.nested = e.outermost.flatMap Block.nested := by
  induction e using inductionOnChildren with
  | node e ih =>
    cases h : e.body? with
    | some body => rw [nested_of_some h, outermost_of_some h, List.flatMap_singleton]
    | none =>
      rw [nested_of_none h, outermost_of_none h, List.flatMap_assoc]
      exact List.flatMap_congr ih

/-- **The blocks of a block**: itself, and those immediately inside, each with what is inside it. -/
theorem Block.nested_eq (block : Block) :
    block.nested = block :: block.immediate.flatMap Block.nested := by
  rw [nested_eq_children, immediate, List.flatMap_assoc]
  exact congrArg (block :: ·) (List.flatMap_congr fun e _ => e.nested_eq)

namespace Block

theorem mem_nested_self (block : Block) : block ∈ block.nested := by
  rw [nested_eq]
  exact List.mem_cons_self

theorem mem_nested_iff {block b : Block} :
    b ∈ block.nested ↔ b = block ∨ ∃ c ∈ block.immediate, b ∈ c.nested := by
  rw [nested_eq, List.mem_cons, List.mem_flatMap]

theorem mem_nested_of_immediate {block b c : Block} (hc : c ∈ block.immediate) (hb : b ∈ c.nested) :
    b ∈ block.nested :=
  mem_nested_iff.mpr (.inr ⟨c, hc, hb⟩)

/-- What is inside the expressions of a block is what is inside the blocks immediately inside it. -/
theorem exists_immediate {block b : Block} {e : Expr} (he : e ∈ block.children)
    (hb : b ∈ e.nested) : ∃ c ∈ block.immediate, b ∈ c.nested := by
  rw [e.nested_eq] at hb
  obtain ⟨c, hc, hbc⟩ := List.mem_flatMap.mp hb
  exact ⟨c, List.mem_flatMap.mpr ⟨e, he, hc⟩, hbc⟩

theorem sizeOf_lt_of_mem_outermost {e : Expr} {b : Block} (h : b ∈ e.outermost) :
    sizeOf b < sizeOf e := by
  induction e using Expr.inductionOnChildren with
  | node e ih =>
    cases hbody : e.body? with
    | some body =>
      rw [Expr.outermost_of_some hbody] at h
      obtain rfl := List.mem_singleton.mp h
      cases e with
      | closure loc params block =>
        obtain rfl := Option.some.inj hbody
        rw [Expr.closure.sizeOf_spec]
        omega
      | thunk loc block =>
        obtain rfl := Option.some.inj hbody
        rw [Expr.thunk.sizeOf_spec]
        omega
      | _ => cases hbody
    | none =>
      rw [Expr.outermost_of_none hbody] at h
      obtain ⟨c, hc, hb⟩ := List.mem_flatMap.mp h
      exact Nat.lt_trans (ih c hc hb) (Expr.sizeOf_lt_of_mem_children hc)

theorem sizeOf_lt_of_mem_immediate {block b : Block} (h : b ∈ block.immediate) :
    sizeOf b < sizeOf block := by
  obtain ⟨e, he, hb⟩ := List.mem_flatMap.mp h
  exact Nat.lt_trans (sizeOf_lt_of_mem_outermost hb) (Expr.sizeOf_lt_of_mem_block he)

/-- **Induction over blocks.** What passes from the blocks immediately inside a block to the block
holds of every block. -/
theorem inductionOnImmediate {motive : Block → Prop}
    (block : ∀ b, (∀ c ∈ b.immediate, motive c) → motive b) (b : Block) : motive b :=
  block b fun c hc =>
    have _smaller := sizeOf_lt_of_mem_immediate hc
    inductionOnImmediate block c
termination_by sizeOf b

theorem mem_nested_trans {a b c : Block} (hb : b ∈ a.nested) (hc : c ∈ b.nested) :
    c ∈ a.nested := by
  induction a using inductionOnImmediate with
  | block a ih =>
    obtain rfl | ⟨d, hd, hbd⟩ := mem_nested_iff.mp hb
    · exact hc
    · exact mem_nested_of_immediate hd (ih d hd hbd)

/-- Every block inside a block but itself lies immediately inside some block of it. -/
theorem exists_outer {block b : Block} (h : b ∈ block.nested) :
    b = block ∨ ∃ outer ∈ block.nested, b ∈ outer.immediate := by
  induction block using inductionOnImmediate with
  | block block ih =>
    obtain rfl | ⟨c, hc, hbc⟩ := mem_nested_iff.mp h
    · exact .inl rfl
    · obtain rfl | ⟨outer, houter, hb⟩ := ih c hc hbc
      · exact .inr ⟨block, block.mem_nested_self, hc⟩
      · exact .inr ⟨outer, mem_nested_of_immediate hc houter, hb⟩

end Block

/-- The scopes of blocks and of the blocks inside them, each before those inside it. -/
def scopesOf (blocks : List Block) : List ScopeId :=
  (blocks.flatMap Block.nested).map Block.scope

theorem scopesOf_append (blocks blocks' : List Block) :
    scopesOf (blocks ++ blocks') = scopesOf blocks ++ scopesOf blocks' := by
  unfold scopesOf
  rw [List.flatMap_append, List.map_append]

theorem scopesOf_singleton (block : Block) :
    scopesOf [block] = block.scope :: scopesOf block.immediate := by
  unfold scopesOf
  rw [List.flatMap_singleton, block.nested_eq, List.map_cons]

theorem scopesOf_perm {blocks blocks' : List Block} (h : blocks.Perm blocks') :
    (scopesOf blocks).Perm (scopesOf blocks') :=
  (h.flatMap_right Block.nested).map Block.scope

/-! ### Other children -/

namespace Expr

variable {e : Expr}

theorem body?_withChildren_of_some {body : Block} (h : e.body? = some body) (exprs : List Expr) :
    (e.withChildren exprs).body? = some (body.withChildren exprs) := by
  cases e with
  | closure loc params block =>
    obtain rfl := Option.some.inj h
    rfl
  | thunk loc block =>
    obtain rfl := Option.some.inj h
    rfl
  | _ => cases h

theorem body?_withChildren_of_none (h : e.body? = none) (exprs : List Expr) :
    (e.withChildren exprs).body? = none := by
  -- where `withChildren` looks at the number of expressions, every number gives a node without body
  cases e with
  | call loc receiver method args =>
    cases receiver with
    | none => rfl
    | some receiver => cases exprs <;> rfl
  | property loc target name =>
    match exprs with
    | [] | [_] | _ :: _ :: _ => rfl
  | binary loc op left right =>
    match exprs with
    | [] | [_] | [_, _] | _ :: _ :: _ :: _ => rfl
  | closure loc params body => cases h
  | thunk loc body => cases h
  | _ => rfl

theorem outermost_withChildren_of_none (h : e.body? = none) {exprs : List Expr}
    (hlength : exprs.length = e.children.length) :
    (e.withChildren exprs).outermost = exprs.flatMap outermost := by
  rw [outermost_of_none (body?_withChildren_of_none h exprs), children_withChildren e exprs hlength]

end Expr

theorem Block.immediate_withChildren {block : Block} {exprs : List Expr}
    (h : exprs.length = block.children.length) :
    (block.withChildren exprs).immediate = exprs.flatMap Expr.outermost := by
  rw [Block.immediate, Block.children_withChildren block exprs h]

/-! ### Declarations keep their blocks -/

@[simp] theorem Expr.outermost_ofText (loc : Handle) (value : String) :
    (Expr.ofText loc value).outermost = [] :=
  Expr.outermost_of_none rfl

@[simp] theorem Expr.outermost_ofBool (loc : Handle) (value : Bool) :
    (Expr.ofBool loc value).outermost = [] :=
  Expr.outermost_of_none rfl

theorem outermost_encode (encoding : Encoding) (arg : Expr) :
    (encoding.apply arg).flatMap Expr.outermost = arg.outermost := by
  -- an identifier has no blocks, and neither have the name and the flag in its place
  have hvar : ∀ loc ident, (Expr.var loc ident).outermost = [] :=
    fun _ _ => Expr.outermost_of_none rfl
  cases encoding with
  | untouched => exact List.flatMap_singleton ..
  | name => cases arg <;> simp [Encoding.apply, hvar]
  | flagged => cases arg <;> simp [Encoding.apply, hvar]

theorem outermost_encodeArgs (rule : Rule) (args : List Expr) :
    (rule.encodeArgs args).flatMap Expr.outermost = args.flatMap Expr.outermost := by
  unfold Rule.encodeArgs Encoding.applyAt
  generalize rule.treatment.slot.index args = index
  split
  · rfl
  · next arg harg =>
    obtain ⟨hlt, rfl⟩ := List.getElem?_eq_some_iff.mp harg
    have hsplit : args.take index ++ [args[index]] ++ args.drop (index + 1) = args := by
      rw [List.take_append_getElem hlt, List.take_append_drop]
    have hargs : args.flatMap Expr.outermost
        = (args.take index ++ [args[index]] ++ args.drop (index + 1)).flatMap Expr.outermost := by
      rw [hsplit]
    rw [hargs, List.flatMap_append, List.flatMap_append, outermost_encode, List.flatMap_append,
      List.flatMap_append, List.flatMap_singleton]

/-- **The canonical form of a declaration** has the blocks that the declaration has. -/
theorem Expr.outermost_canonicalize (inside : Section) (e : Expr) :
    (e.canonicalize inside).outermost = e.outermost := by
  induction e using inductionOnChildren with
  | node e ih =>
    cases e with
    | call loc receiver method args =>
      -- a call has the blocks of its receiver and of its arguments
      have hcall : ∀ receiver method args, (Expr.call loc receiver method args).outermost
          = receiver.toList.flatMap outermost ++ args.flatMap outermost := by
        intro receiver method args
        rw [outermost_of_none rfl, children, List.flatMap_append]
      have hreceiver : (canonicalizeReceiver inside receiver).toList.flatMap outermost
          = receiver.toList.flatMap outermost := by
        cases receiver with
        | none => rfl
        | some receiver =>
          have hself := ih receiver List.mem_cons_self
          simpa [canonicalizeReceiver] using hself
      have hargs : (canonicalizeComponents inside args).flatMap outermost
          = args.flatMap outermost := by
        rw [canonicalizeComponents_eq, List.flatMap_map]
        exact List.flatMap_congr fun arg harg => ih arg (List.mem_append_right _ harg)
      rw [canonicalize]
      split
      · rw [hcall, hcall, hreceiver]
      · split
        · rw [hcall, hcall, hreceiver, hargs]
        · rw [hcall, hcall, hreceiver, outermost_encodeArgs]
    | _ => rfl

theorem Section.outermost_rewrite (inside : Section) (e : Expr) :
    (inside.rewrite e).outermost = e.outermost := by
  unfold Section.rewrite
  split
  · exact e.outermost_canonicalize inside
  · rfl

end FlowDesugar
