import FlowDesugar.Proofs.Depth
import FlowDesugar.Proofs.RoundTrip

/-!
# How deep a written tree is nested

A node is written as an object, and its children some levels further in: in a field of it, in an
array of it, or in a statement in an array of it. `Expr.steps` lists the children with these
distances, so that the depth of what is written for a tree is described node by node
(`Interchange.depth_writeExpr_le`). It does not depend on the locations, so that it is a number of
the tree itself: `Expr.depth`.
-/

namespace FlowDesugar

open Json (Value Fields depthOfItems depthOfFields depthOfItems_le)

namespace Expr

/-- The levels that a node takes without its children: it is an object, which for most kinds has an
array or an object in it. -/
def levels : Expr → Nat
  | literal _ _ => 1
  | var _ _ => 1
  | property _ _ _ => 1
  | binary _ _ _ _ => 1
  | _ => 2

/-- How many levels further in than the node each of its children is written. -/
def gaps : Expr → List Nat
  | literal _ _ => []
  | gstring _ chunks => List.replicate (chunks.filterMap Chunk.expr?).length 2
  | var _ _ => []
  | property _ _ _ => [1]
  | call _ receiver _ args =>
    List.replicate receiver.toList.length 1 ++ List.replicate args.length 2
  | map _ entries => List.replicate entries.length 2
  | list _ items => List.replicate items.length 2
  | binary _ _ _ _ => [1, 1]
  | closure _ _ body => List.replicate body.stmts.length 3
  | thunk _ body => List.replicate body.stmts.length 3

/-- The children of a node, each with how many levels further in it is written. -/
def steps (e : Expr) : List (Nat × Expr) :=
  e.gaps.zip e.children

theorem snd_mem_of_mem_steps {e : Expr} {step : Nat × Expr} (h : step ∈ e.steps) :
    step.2 ∈ e.children :=
  (List.of_mem_zip h).2

/-- Every child has a step. -/
theorem exists_gap {e c : Expr} (h : c ∈ e.children) : ∃ gap, (gap, c) ∈ e.steps := by
  have hlength : e.children.length ≤ e.gaps.length := by
    cases e <;> simp [children, gaps, Block.children]
  rw [← List.map_snd_zip hlength] at h
  obtain ⟨⟨gap, c⟩, hstep, rfl⟩ := List.mem_map.mp h
  exact ⟨gap, hstep⟩

theorem levels_withChildren (e : Expr) (exprs : List Expr) :
    (e.withChildren exprs).levels = e.levels := by
  cases e with
  | call loc receiver method args =>
    cases receiver with
    | none => rfl
    | some receiver => cases exprs <;> rfl
  | property loc target name =>
    match exprs with
    | [] | [_] | _ :: _ :: _ => rfl
  | binary loc op left right =>
    match exprs with
    | [] | [_] | [_, _] | _ :: _ :: _ :: _ => rfl
  | _ => rfl

theorem gaps_withChildren (e : Expr) (exprs : List Expr) (h : exprs.length = e.children.length) :
    (e.withChildren exprs).gaps = e.gaps := by
  cases e with
  | literal loc value => rfl
  | gstring loc chunks =>
    rw [withChildren, gaps, gaps, filterMap_refillChunks chunks exprs h]
    rw [h]
    rfl
  | var loc name => rfl
  | property loc target name =>
    obtain ⟨e, rfl⟩ := List.length_eq_one_iff.mp h
    rfl
  | call loc receiver method args =>
    cases receiver with
    | none =>
      rw [withChildren, gaps, gaps, h]
      rfl
    | some receiver =>
      cases exprs with
      | nil => simp [children] at h
      | cons e exprs =>
        have hargs : exprs.length = args.length := Nat.succ.inj h
        rw [withChildren, gaps, gaps, hargs]
        rfl
  | map loc entries =>
    rw [children, List.length_map] at h
    rw [withChildren, gaps, gaps, List.length_zipWith, h, Nat.min_self]
  | list loc items => rw [withChildren, gaps, gaps, h]; rfl
  | binary loc op left right =>
    obtain ⟨left', rest, rfl⟩ := List.exists_cons_of_length_eq_add_one h
    obtain ⟨right', rfl⟩ := List.length_eq_one_iff.mp (Nat.succ.inj h)
    rfl
  | closure loc params body =>
    rw [children, Block.children, List.length_map] at h
    rw [withChildren, gaps, gaps, Block.withChildren, List.length_zipWith, h, Nat.min_self]
  | thunk loc body =>
    rw [children, Block.children, List.length_map] at h
    rw [withChildren, gaps, gaps, Block.withChildren, List.length_zipWith, h, Nat.min_self]

/-- With other children, each is as far in as the one whose place it takes. -/
theorem mem_steps_withChildren {e : Expr} {pairs : List (Expr × Expr)}
    (hfst : pairs.map Prod.fst = e.children) {step : Nat × Expr}
    (h : step ∈ (e.withChildren (pairs.map Prod.snd)).steps) :
    ∃ pair ∈ pairs, (step.1, pair.1) ∈ e.steps ∧ step.2 = pair.2 := by
  have hlength : (pairs.map Prod.snd).length = e.children.length := by
    rw [← hfst, List.length_map, List.length_map]
  rw [steps, gaps_withChildren e _ hlength, children_withChildren e _ hlength,
    List.zip_map_right] at h
  obtain ⟨⟨gap, pair⟩, hmem, rfl⟩ := List.mem_map.mp h
  refine ⟨pair, (List.of_mem_zip hmem).2, ?_, rfl⟩
  rw [steps, ← hfst, List.zip_map_right]
  exact List.mem_map.mpr ⟨(gap, pair), hmem, rfl⟩

end Expr

/-- The same distance for all. -/
theorem forall_mem_zip_replicate {α : Type} {p : Nat × α → Prop} {k : Nat} {as : List α} :
    (∀ step ∈ (List.replicate as.length k).zip as, p step) ↔ ∀ a ∈ as, p (k, a) := by
  induction as with
  | nil => exact ⟨nofun, nofun⟩
  | cons a as ih =>
    rw [List.length_cons, List.replicate_succ, List.zip_cons_cons, List.forall_mem_cons, ih,
      List.forall_mem_cons]

namespace Interchange

variable {map : SourceMap} {n : Nat}

/-! ### The depth of a node -/

theorem depth_node (kind : String) (loc : Handle) (fields : Fields) :
    (node map kind loc fields).depth = depthOfFields fields + 1 := by
  unfold node
  cases map.position? loc with
  | none => simp [Value.depth, depthOfFields]
  | some position => simp [Value.depth, depthOfFields]

theorem depthOfItems_writeExprs_le {es : List Expr} :
    depthOfItems (writeExprs map es) ≤ n ↔ ∀ e ∈ es, (writeExpr map e).depth ≤ n := by
  induction es with
  | nil => exact ⟨fun _ => List.forall_mem_nil _, fun _ => Nat.zero_le n⟩
  | cons e es ih => rw [writeExprs, depthOfItems, Nat.max_le, ih, List.forall_mem_cons]

theorem depthOfItems_writeChunks_le {chunks : List Chunk} :
    depthOfItems (writeChunks map chunks) ≤ n ↔
      ∀ e ∈ chunks.filterMap Chunk.expr?, (writeExpr map e).depth ≤ n := by
  induction chunks with
  | nil => exact ⟨fun _ => List.forall_mem_nil _, fun _ => Nat.zero_le n⟩
  | cons chunk chunks ih =>
    cases chunk with
    | text value =>
      rw [writeChunks, depthOfItems, Value.depth_string, Nat.zero_max, ih, interpolated_text]
    | interpolation e =>
      rw [writeChunks, depthOfItems, Nat.max_le, ih, interpolated_interpolation,
        List.forall_mem_cons]

theorem depthOfFields_writeEntries_le {entries : List Entry} :
    depthOfFields (writeEntries map entries) ≤ n ↔
      ∀ e ∈ entries.map Entry.value, (writeExpr map e).depth ≤ n := by
  induction entries with
  | nil => exact ⟨fun _ => List.forall_mem_nil _, fun _ => Nat.zero_le n⟩
  | cons entry entries ih =>
    obtain ⟨key, value⟩ := entry
    rw [writeEntries, depthOfFields, Nat.max_le, ih, List.map_cons, List.forall_mem_cons]

theorem depth_stmt (stmt : Stmt) (kind : String) :
    (node map kind stmt.loc (stmtFields map stmt)).depth = (writeExpr map stmt.expr).depth + 1 := by
  rw [depth_node, stmtFields]
  cases stmt.label with
  | none => simp [depthOfFields]
  | some label => simp [depthOfFields, Value.depth]

theorem depthOfItems_writeStmts_le {stmts : List Stmt} :
    depthOfItems (writeStmts map stmts) ≤ n ↔
      ∀ e ∈ stmts.map Stmt.expr, 1 + (writeExpr map e).depth ≤ n := by
  induction stmts with
  | nil => exact ⟨fun _ => List.forall_mem_nil _, fun _ => Nat.zero_le n⟩
  | cons stmt stmts ih =>
    rw [writeStmts_cons, depthOfItems, Nat.max_le, ih, List.map_cons, List.forall_mem_cons,
      depth_stmt, Nat.add_comm]

/-- What is `k` levels further in than the deepest of some things. -/
theorem add_le_iff_forall {α : Type} {as : List α} {f : α → Nat} {d : Nat}
    (hd : ∀ m, d ≤ m ↔ ∀ a ∈ as, f a ≤ m) (k : Nat) :
    k + d ≤ n ↔ k ≤ n ∧ ∀ a ∈ as, k + f a ≤ n := by
  constructor
  · intro h
    refine ⟨Nat.le_trans (Nat.le_add_right k d) h, fun a ha => ?_⟩
    have hle := (hd d).mp (Nat.le_refl d) a ha
    omega
  · rintro ⟨hk, h⟩
    have hle : d ≤ n - k := (hd (n - k)).mpr fun a ha => by
      have := h a ha
      omega
    omega

theorem depth_writeExpr_literal (loc : Handle) (value : Literal) :
    (writeExpr map (.literal loc value)).depth = 1 := by
  refine (depth_node _ loc _).trans ?_
  cases value <;> simp [depthOfFields, Value.depth]

theorem depth_writeExpr_gstring (loc : Handle) (chunks : List Chunk) :
    (writeExpr map (.gstring loc chunks)).depth = 2 + depthOfItems (writeChunks map chunks) := by
  refine (depth_node _ loc _).trans ?_
  simp only [depthOfFields, Value.depth]
  omega

theorem depth_writeExpr_var (loc : Handle) (name : String) :
    (writeExpr map (.var loc name)).depth = 1 := by
  refine (depth_node _ loc _).trans ?_
  simp [depthOfFields, Value.depth]

theorem depth_writeExpr_property (loc : Handle) (target : Expr) (name : String) :
    (writeExpr map (.property loc target name)).depth = 1 + (writeExpr map target).depth := by
  refine (depth_node _ loc _).trans ?_
  simp only [depthOfFields, Value.depth]
  omega

theorem depth_writeExpr_call (loc : Handle) (receiver : Option Expr) (method : String)
    (args : List Expr) :
    (writeExpr map (.call loc receiver method args)).depth =
      1 + max (depthOfFields (writeReceiver map receiver))
        (1 + depthOfItems (writeExprs map args)) := by
  refine (depth_node _ loc _).trans ?_
  cases receiver with
  | none =>
    simp only [writeReceiver, List.nil_append, depthOfFields, Value.depth]
    omega
  | some receiver =>
    simp only [writeReceiver, List.cons_append, List.nil_append, depthOfFields, Value.depth]
    omega

theorem depth_writeExpr_map (loc : Handle) (entries : List Entry) :
    (writeExpr map (.map loc entries)).depth = 2 + depthOfFields (writeEntries map entries) := by
  refine (depth_node _ loc _).trans ?_
  simp only [depthOfFields, Value.depth]
  omega

theorem depth_writeExpr_list (loc : Handle) (items : List Expr) :
    (writeExpr map (.list loc items)).depth = 2 + depthOfItems (writeExprs map items) := by
  refine (depth_node _ loc _).trans ?_
  simp only [depthOfFields, Value.depth]
  omega

theorem depth_writeExpr_binary (loc : Handle) (op : Operator) (left right : Expr) :
    (writeExpr map (.binary loc op left right)).depth =
      1 + max (writeExpr map left).depth (writeExpr map right).depth := by
  refine (depth_node _ loc _).trans ?_
  simp only [depthOfFields, Value.depth]
  omega

theorem depth_writeExpr_thunk (loc : Handle) (body : Block) :
    (writeExpr map (.thunk loc body)).depth = 2 + depthOfItems (writeBlock map body) := by
  refine (depth_node _ loc _).trans ?_
  simp only [depthOfFields, Value.depth]
  omega

theorem depth_writeExpr_closure (loc : Handle) (params : List String) (body : Block) :
    (writeExpr map (.closure loc params body)).depth = 2 + depthOfItems (writeBlock map body) := by
  have hparams : depthOfItems (params.map Value.string) ≤ 0 := by
    rw [depthOfItems_le]
    exact List.forall_mem_map.mpr fun param _ => Nat.le_refl 0
  refine (depth_node _ loc _).trans ?_
  simp only [depthOfFields, Value.depth]
  omega

/-- The statements of a block are two levels further in than what holds them, and their expressions
one more. -/
theorem depth_block_le {body : Block} :
    2 + depthOfItems (writeBlock map body) ≤ n ↔
      2 ≤ n ∧ ∀ e ∈ body.children, 3 + (writeExpr map e).depth ≤ n := by
  obtain ⟨scope, stmts⟩ := body
  rw [writeBlock, add_le_iff_forall (fun m => depthOfItems_writeStmts_le) 2]
  simp only [← Nat.add_assoc]
  rfl

theorem depth_writeExpr_call_le {loc : Handle} {receiver : Option Expr} {method : String}
    {args : List Expr} :
    (writeExpr map (.call loc receiver method args)).depth ≤ n ↔
      2 ≤ n ∧ (∀ e ∈ receiver.toList, 1 + (writeExpr map e).depth ≤ n) ∧
        ∀ e ∈ args, 2 + (writeExpr map e).depth ≤ n := by
  have hargs : 2 + depthOfItems (writeExprs map args) ≤ n ↔
      2 ≤ n ∧ ∀ e ∈ args, 2 + (writeExpr map e).depth ≤ n :=
    add_le_iff_forall (fun m => depthOfItems_writeExprs_le) 2
  have hreceiver : 1 + depthOfFields (writeReceiver map receiver) ≤ n ↔
      1 ≤ n ∧ ∀ e ∈ receiver.toList, 1 + (writeExpr map e).depth ≤ n := by
    refine add_le_iff_forall (fun m => ?_) 1
    cases receiver with
    | none => exact ⟨fun _ => List.forall_mem_nil _, fun _ => Nat.zero_le m⟩
    | some receiver =>
      rw [writeReceiver, depthOfFields, depthOfFields, Nat.max_zero, Option.toList_some,
        List.forall_mem_singleton]
  have hmax : 1 + max (depthOfFields (writeReceiver map receiver))
        (1 + depthOfItems (writeExprs map args)) ≤ n ↔
      1 + depthOfFields (writeReceiver map receiver) ≤ n ∧
        2 + depthOfItems (writeExprs map args) ≤ n := by
    omega
  rw [depth_writeExpr_call, hmax, hreceiver, hargs]
  constructor
  · rintro ⟨⟨-, hfirst⟩, htwo, hrest⟩
    exact ⟨htwo, hfirst, hrest⟩
  · rintro ⟨htwo, hfirst, hrest⟩
    exact ⟨⟨Nat.le_of_succ_le htwo, hfirst⟩, htwo, hrest⟩

/-- **The depth of what is written for a node**, by its children. -/
theorem depth_writeExpr_le {e : Expr} :
    (writeExpr map e).depth ≤ n ↔
      e.levels ≤ n ∧ ∀ step ∈ e.steps, step.1 + (writeExpr map step.2).depth ≤ n := by
  unfold Expr.steps
  cases e with
  | literal loc value =>
    rw [depth_writeExpr_literal]
    exact (and_iff_left (List.forall_mem_nil _)).symm
  | gstring loc chunks =>
    rw [Expr.gaps, Expr.children, forall_mem_zip_replicate, depth_writeExpr_gstring,
      add_le_iff_forall (fun m => depthOfItems_writeChunks_le) 2]
    rfl
  | var loc name =>
    rw [depth_writeExpr_var]
    exact (and_iff_left (List.forall_mem_nil _)).symm
  | property loc target name =>
    rw [depth_writeExpr_property]
    change _ ↔ 1 ≤ n ∧ ∀ step ∈ [(1, target)], _
    rw [List.forall_mem_singleton]
    dsimp only
    omega
  | call loc receiver method args =>
    rw [Expr.gaps, Expr.children, List.zip_append List.length_replicate, List.forall_mem_append,
      forall_mem_zip_replicate, forall_mem_zip_replicate]
    exact depth_writeExpr_call_le
  | map loc entries =>
    have hlength : entries.length = (entries.map Entry.value).length := (List.length_map _).symm
    rw [Expr.gaps, Expr.children, hlength, forall_mem_zip_replicate, depth_writeExpr_map,
      add_le_iff_forall (fun m => depthOfFields_writeEntries_le) 2]
    rfl
  | list loc items =>
    rw [Expr.gaps, Expr.children, forall_mem_zip_replicate, depth_writeExpr_list,
      add_le_iff_forall (fun m => depthOfItems_writeExprs_le) 2]
    rfl
  | binary loc op left right =>
    rw [depth_writeExpr_binary]
    change _ ↔ 1 ≤ n ∧ ∀ step ∈ [(1, left), (1, right)], _
    rw [List.forall_mem_cons, List.forall_mem_singleton]
    dsimp only
    omega
  | closure loc params body =>
    have hlength : body.stmts.length = body.children.length := (List.length_map _).symm
    rw [Expr.gaps, Expr.children, hlength, forall_mem_zip_replicate, depth_writeExpr_closure,
      depth_block_le]
    rfl
  | thunk loc body =>
    have hlength : body.stmts.length = body.children.length := (List.length_map _).symm
    rw [Expr.gaps, Expr.children, hlength, forall_mem_zip_replicate, depth_writeExpr_thunk,
      depth_block_le]
    rfl

/-- The depth does not depend on the locations. -/
theorem depth_writeExpr_eq (map map' : SourceMap) (e : Expr) :
    (writeExpr map e).depth = (writeExpr map' e).depth := by
  have hle : ∀ (map map' : SourceMap) (e : Expr),
      (writeExpr map e).depth ≤ (writeExpr map' e).depth := by
    intro map map' e
    induction e using Expr.inductionOnChildren with
    | node e ih =>
      -- a node has the same levels and steps under either map
      obtain ⟨hlevels, hsteps⟩ := depth_writeExpr_le.mp (Nat.le_refl (writeExpr map' e).depth)
      refine depth_writeExpr_le.mpr ⟨hlevels, fun step hstep => ?_⟩
      have hchild := ih step.2 (Expr.snd_mem_of_mem_steps hstep)
      have hgap := hsteps step hstep
      omega
  exact Nat.le_antisymm (hle map map' e) (hle map' map e)

end Interchange

/-! ### The depth of a tree -/

namespace Expr

variable {n : Nat}

/-- How deep what is written for an expression is nested. -/
def depth (e : Expr) : Nat :=
  (Interchange.writeExpr .empty e).depth

theorem depth_le {e : Expr} :
    e.depth ≤ n ↔ e.levels ≤ n ∧ ∀ step ∈ e.steps, step.1 + step.2.depth ≤ n :=
  Interchange.depth_writeExpr_le

theorem depth_call_le {loc : Handle} {receiver : Option Expr} {method : String} {args : List Expr} :
    (call loc receiver method args).depth ≤ n ↔
      2 ≤ n ∧ (∀ e ∈ receiver.toList, 1 + e.depth ≤ n) ∧ ∀ e ∈ args, 2 + e.depth ≤ n :=
  Interchange.depth_writeExpr_call_le

theorem depth_thunk_le {loc : Handle} {body : Block} :
    (thunk loc body).depth ≤ n ↔ 2 ≤ n ∧ ∀ e ∈ body.children, 3 + e.depth ≤ n := by
  rw [depth, Interchange.depth_writeExpr_thunk]
  exact Interchange.depth_block_le

theorem depth_literal (loc : Handle) (value : Literal) : (literal loc value).depth = 1 :=
  Interchange.depth_writeExpr_literal loc value

theorem depth_pos (e : Expr) : 1 ≤ e.depth := by
  have hlevels : 1 ≤ e.levels := by
    cases e <;> simp [levels]
  exact Nat.le_trans hlevels (depth_le.mp (Nat.le_refl e.depth)).1

end Expr

theorem Interchange.depth_writeExpr (map : SourceMap) (e : Expr) :
    (writeExpr map e).depth = e.depth :=
  depth_writeExpr_eq map .empty e

/-- The statements of a document are three levels in. -/
theorem Interchange.depth_writeDocument_le {map : SourceMap} {source : Option String} {body : Block}
    {n : Nat} :
    (writeDocument map source body).depth ≤ n ↔ 2 ≤ n ∧ ∀ e ∈ body.children, 3 + e.depth ≤ n := by
  have hdepth : (writeDocument map source body).depth
      = 2 + depthOfItems (writeBlock map body) := by
    unfold writeDocument
    cases source with
    | none =>
      simp only [List.nil_append, Value.depth, depthOfFields]
      omega
    | some source =>
      simp only [List.cons_append, List.nil_append, Value.depth, depthOfFields]
      omega
  rw [hdepth, depth_block_le]
  simp only [depth_writeExpr]

end FlowDesugar
