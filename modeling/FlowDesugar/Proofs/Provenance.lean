import Mathlib.Data.List.Forall2
import FlowDesugar.Proofs.Arguments
import FlowDesugar.Proofs.ClosedForm

/-!
# Generated nodes point back at the source

Desugaring makes nodes that nobody wrote. Each of them takes over the handle of a node that was
there, but for the script flag of a definition: it gets a handle of its own, with the position of
the definition. So every node of the result has the position of a node of the tree, and a node
inside a definition has the position of a node inside the same definition.

* `Encodes` — where the new nodes of a declaration come from, link by link: the name and the flag
  have the handle of the argument in whose place they stand;
* `Block.handles_scriptedIn`, `Definition.handles_canonicalAt` and `Block.handles_fill` — a body, a
  definition and a tree get no handles from elsewhere;
* `SourceMap.position?_withFlags` — the position of a script flag;
* `Block.desugar_points_back` — what this says of a pass.
-/

namespace FlowDesugar

/-! ### Declarations -/

mutual

/-- The second expression is the first with declarations encoded. What is new has the handle of the
argument that it stands for. -/
inductive Encodes : Expr → Expr → Prop
  | same (e : Expr) : Encodes e e
  | call {loc : Handle} {receiver receiver' : Option Expr} {method method' : String}
    {args args' : List Expr} : EncodesReceiver receiver receiver' → EncodesArgs args args' →
    Encodes (.call loc receiver method args) (.call loc receiver' method' args')

/-- The same for the receiver of a chain. -/
inductive EncodesReceiver : Option Expr → Option Expr → Prop
  | none : EncodesReceiver none none
  | some {receiver receiver' : Expr} : Encodes receiver receiver' →
    EncodesReceiver (some receiver) (some receiver')

/-- The same for arguments, one of which may be replaced by its name, or have a flag before it. -/
inductive EncodesArgs : List Expr → List Expr → Prop
  | nil : EncodesArgs [] []
  | cons {arg arg' : Expr} {args args' : List Expr} : Encodes arg arg' → EncodesArgs args args' →
    EncodesArgs (arg :: args) (arg' :: args')
  | name {loc : Handle} {ident : String} {args args' : List Expr} : EncodesArgs args args' →
    EncodesArgs (.var loc ident :: args) (.ofText loc ident :: args')
  | flaggedName {loc : Handle} {ident : String} {args args' : List Expr} : EncodesArgs args args' →
    EncodesArgs (.var loc ident :: args) (.ofBool loc true :: .ofText loc ident :: args')
  | flagged {arg : Expr} {args args' : List Expr} : EncodesArgs args args' →
    EncodesArgs (arg :: args) (.ofBool arg.loc false :: arg :: args')

end

theorem EncodesArgs.refl (args : List Expr) : EncodesArgs args args := by
  induction args with
  | nil => exact .nil
  | cons arg args ih => exact .cons (.same arg) ih

theorem Encoding.apply_encodes (encoding : Encoding) (arg : Expr) (args : List Expr) :
    EncodesArgs (arg :: args) (encoding.apply arg ++ args) := by
  have hargs := EncodesArgs.refl args
  cases encoding with
  | untouched => exact .cons (.same arg) hargs
  | name =>
    cases arg with
    | var loc ident => exact .name hargs
    | _ => exact .cons (.same _) hargs
  | flagged =>
    cases arg with
    | var loc ident => exact .flaggedName hargs
    | _ => exact .flagged hargs

theorem Encoding.applyAt_encodes (encoding : Encoding) (index : Nat) (args : List Expr) :
    EncodesArgs args (encoding.applyAt index args) := by
  induction args generalizing index with
  | nil => exact .nil
  | cons arg args ih =>
    cases index with
    | zero => exact encoding.apply_encodes arg args
    | succ index =>
      -- the first argument is not the designated one
      have hcons : encoding.applyAt (index + 1) (arg :: args)
          = arg :: encoding.applyAt index args := by
        unfold applyAt
        rw [List.getElem?_cons_succ]
        cases args[index]? <;> rfl
      rw [hcons]
      exact .cons (.same arg) (ih index)

/-- **The canonical form of a declaration** has new nodes only as `Encodes` says. -/
theorem Expr.canonicalize_encodes (inside : Section) (e : Expr) :
    Encodes e (e.canonicalize inside) := by
  induction e using inductionOnChildren with
  | node e ih =>
    cases e with
    | call loc receiver method args =>
      have hreceiver : EncodesReceiver receiver (canonicalizeReceiver inside receiver) := by
        cases receiver with
        | none => exact .none
        | some receiver => exact .some (ih receiver List.mem_cons_self)
      have hargs : ∀ arg ∈ args, Encodes arg (arg.canonicalize inside) :=
        fun arg harg => ih arg (List.mem_append_right _ harg)
      have hcomponents : EncodesArgs args (canonicalizeComponents inside args) := by
        clear ih hreceiver
        induction args with
        | nil => exact .nil
        | cons arg args ih =>
          obtain ⟨hfirst, hrest⟩ := List.forall_mem_cons.mp hargs
          exact .cons hfirst (ih hrest)
      rw [canonicalize]
      split
      · exact .call hreceiver (.refl args)
      · split
        · exact .call hreceiver hcomponents
        · exact .call hreceiver (Encoding.applyAt_encodes ..)
    | _ => exact .same _

theorem Section.rewrite_encodes (inside : Section) (e : Expr) : Encodes e (inside.rewrite e) := by
  unfold rewrite
  split
  · exact e.canonicalize_encodes inside
  · exact .same e

/-! ### No handles from elsewhere -/

/-- Every handle inside the second expressions is inside one of the first. -/
def HandlesAmong (es es' : List Expr) : Prop :=
  ∀ e' ∈ es', ∃ e ∈ es, e'.handles ⊆ e.handles

namespace HandlesAmong

variable {e e' : Expr} {es es' : List Expr}

theorem nil (es : List Expr) : HandlesAmong es [] :=
  List.forall_mem_nil _

/-- One more expression, whose handles are those of one more. -/
theorem cons (hfirst : e'.handles ⊆ e.handles) (hrest : HandlesAmong es es') :
    HandlesAmong (e :: es) (e' :: es') := by
  refine List.forall_mem_cons.mpr ⟨⟨e, List.mem_cons_self, hfirst⟩, fun c' hc' => ?_⟩
  obtain ⟨c, hc, hsubset⟩ := hrest c' hc'
  exact ⟨c, List.mem_cons_of_mem e hc, hsubset⟩

/-- One more expression, whose handles are there already. -/
theorem extra (hfirst : e'.handles ⊆ e.handles) (h : HandlesAmong (e :: es) es') :
    HandlesAmong (e :: es) (e' :: es') :=
  List.forall_mem_cons.mpr ⟨⟨e, List.mem_cons_self, hfirst⟩, h⟩

end HandlesAmong

namespace Expr

theorem mem_handles_call {loc handle : Handle} {receiver : Option Expr} {method : String}
    {args : List Expr} :
    handle ∈ (Expr.call loc receiver method args).handles ↔
      handle = loc ∨ ∃ e ∈ receiver.toList ++ args, handle ∈ e.handles := by
  rw [handles_of_none rfl, List.mem_cons, List.mem_flatMap]
  rfl

/-- The flag before an argument has its handle. -/
theorem handles_ofBool_subset (e : Expr) (value : Bool) :
    (Expr.ofBool e.loc value).handles ⊆ e.handles :=
  List.cons_subset.mpr ⟨e.loc_mem_handles, List.nil_subset _⟩

end Expr

mutual

theorem Encodes.handles_subset {e e' : Expr} : Encodes e e' → e'.handles ⊆ e.handles
  | .same e => List.Subset.refl _
  | .call hreceiver hargs => by
    intro handle hhandle
    rw [Expr.mem_handles_call] at hhandle ⊢
    obtain hloc | ⟨c', hc', hmem⟩ := hhandle
    · exact .inl hloc
    · refine .inr ?_
      rcases List.mem_append.mp hc' with hc' | hc'
      · obtain ⟨c, hc, hsubset⟩ := hreceiver.handles_among c' hc'
        exact ⟨c, List.mem_append_left _ hc, hsubset hmem⟩
      · obtain ⟨c, hc, hsubset⟩ := hargs.handles_among c' hc'
        exact ⟨c, List.mem_append_right _ hc, hsubset hmem⟩

theorem EncodesReceiver.handles_among {receiver receiver' : Option Expr} :
    EncodesReceiver receiver receiver' → HandlesAmong receiver.toList receiver'.toList
  | .none => .nil _
  | .some h => .cons h.handles_subset (.nil _)

theorem EncodesArgs.handles_among {args args' : List Expr} :
    EncodesArgs args args' → HandlesAmong args args'
  | .nil => .nil _
  | .cons hfirst hrest => .cons hfirst.handles_subset hrest.handles_among
  | .name hrest => .cons (List.Subset.refl _) hrest.handles_among
  | .flaggedName hrest =>
    .extra (List.Subset.refl _) (.cons (List.Subset.refl _) hrest.handles_among)
  | .flagged hrest =>
    .extra (Expr.handles_ofBool_subset _ false) (.cons (List.Subset.refl _) hrest.handles_among)

end

namespace Block

variable {block : Block}

theorem handles_of_mem_stmts {stmt : Stmt} (h : stmt ∈ block.stmts) :
    stmt.handles ⊆ block.handles := by
  intro handle hhandle
  rw [block.handles_eq_stmts]
  exact List.mem_flatMap.mpr ⟨stmt, h, hhandle⟩

theorem handles_of_mem_children {e : Expr} (h : e ∈ block.children) :
    e.handles ⊆ block.handles := by
  obtain ⟨stmt, hstmt, rfl⟩ := List.mem_map.mp h
  exact List.Subset.trans (List.subset_cons_self stmt.loc _) (handles_of_mem_stmts hstmt)

theorem handles_subset_iff {handles : List Handle} :
    block.handles ⊆ handles ↔ ∀ stmt ∈ block.stmts, stmt.handles ⊆ handles := by
  constructor
  · exact fun h stmt hstmt => List.Subset.trans (handles_of_mem_stmts hstmt) h
  · intro h handle hhandle
    rw [block.handles_eq_stmts] at hhandle
    obtain ⟨stmt, hstmt, hmem⟩ := List.mem_flatMap.mp hhandle
    exact h stmt hstmt hmem

/-- The declarations of a body are its statements outside the script, with their expressions
encoded. -/
theorem declared_encodes (block : Block) :
    List.Forall₂ (fun stmt stmt' => ∃ e, stmt' = stmt.withExpr e ∧ Encodes stmt.expr e)
      ((Section.retained block.stmts).map Prod.snd) block.declared := by
  unfold declared
  rw [List.forall₂_map_left_iff, List.forall₂_map_right_iff]
  exact List.forall₂_same.mpr fun p _ => ⟨_, rfl, p.1.rewrite_encodes p.2.expr⟩

theorem handles_declared {stmt : Stmt} (h : stmt ∈ block.declared) :
    stmt.handles ⊆ block.handles := by
  obtain ⟨part, hpart, rfl⟩ := List.mem_map.mp h
  have hencoded := (part.1.rewrite_encodes part.2.expr).handles_subset
  have hwhole := handles_of_mem_stmts (Section.snd_mem_of_mem_retained hpart)
  exact List.Subset.trans (List.cons_subset_cons part.2.loc hencoded) hwhole

/-- A script that is deferred has the handle of a statement that is there. -/
theorem handles_deferred {stmt : Stmt} (hstmt : stmt ∈ block.stmts) (scope : ScopeId)
    {stmts : List Stmt} (h : ∀ s ∈ stmts, s.handles ⊆ block.handles) :
    (Stmt.deferred stmt.loc scope stmts).handles ⊆ block.handles := by
  have hloc : stmt.loc ∈ block.handles := handles_of_mem_stmts hstmt List.mem_cons_self
  have hbody : (Block.mk scope stmts).handles ⊆ block.handles := handles_subset_iff.mpr h
  unfold Stmt.handles Stmt.deferred Stmt.plain
  rw [Expr.handles_of_some rfl]
  exact List.cons_subset.mpr ⟨hloc, List.cons_subset.mpr ⟨hloc, hbody⟩⟩

/-- **A body gets no handles from elsewhere.** -/
theorem handles_scriptedIn (scope : ScopeId) (block : Block) :
    (block.scriptedIn scope).handles ⊆ block.handles := by
  rw [handles_subset_iff]
  cases hs : Section.script block.stmts with
  | cons first rest =>
    rw [scriptedIn_of_section hs]
    have hscript : ∀ stmt ∈ first :: rest, stmt ∈ block.stmts := by
      intro stmt hstmt
      rw [← hs] at hstmt
      exact Section.mem_of_mem_script hstmt
    refine List.forall_mem_append.mpr ⟨fun stmt => handles_declared, ?_⟩
    refine List.forall_mem_singleton.mpr (handles_deferred (hscript first List.mem_cons_self) _ ?_)
    exact fun stmt hstmt => handles_of_mem_stmts (hscript stmt hstmt)
  | nil =>
    by_cases hdefers : block.defersScript
    · -- without a section, a script that is deferred is a string at the end
      obtain ⟨last, hl, ht⟩ : ∃ last, block.stmts.getLast? = some last ∧ last.expr.isTextual := by
        unfold defersScript at hdefers
        rw [hs] at hdefers
        cases hl : block.stmts.getLast? with
        | none => rw [hl] at hdefers; cases hdefers
        | some last => rw [hl] at hdefers; exact ⟨last, rfl, hdefers⟩
      have hlast : last ∈ block.stmts := List.mem_of_getLast? hl
      have hhandles : last.handles ⊆ block.handles := handles_of_mem_stmts hlast
      rw [scriptedIn_of_text hs hl ht]
      refine List.forall_mem_append.mpr ⟨fun stmt hstmt => ?_, ?_⟩
      · exact handles_declared (List.dropLast_subset _ hstmt)
      · refine List.forall_mem_singleton.mpr (handles_deferred hlast _ ?_)
        exact List.forall_mem_singleton.mpr hhandles
    · rw [scriptedIn_of_kept hdefers]
      exact fun stmt => handles_declared

end Block

namespace Definition

variable {d : Definition}

/-- The handles of a definition: its own, that of its inner call and those inside the arguments. -/
theorem handles_of_inner? {nameLoc : Handle} {name : String} {inner : List Expr}
    (h : inner? d.args = some (nameLoc, name, inner)) :
    d.expr.handles = d.loc :: nameLoc :: inner.flatMap Expr.handles := by
  unfold expr
  rw [args_of_inner? h, Expr.handles_of_none rfl, Expr.children, Option.toList_none,
    List.nil_append, List.flatMap_singleton, Expr.handles_of_none rfl]
  rfl

theorem handles_of_mem_inner {nameLoc : Handle} {name : String} {inner : List Expr}
    (h : inner? d.args = some (nameLoc, name, inner)) {e : Expr} (he : e ∈ inner) :
    e.handles ⊆ d.expr.handles := by
  intro handle hhandle
  rw [handles_of_inner? h]
  refine List.mem_cons_of_mem _ (List.mem_cons_of_mem _ ?_)
  exact List.mem_flatMap.mpr ⟨e, he, hhandle⟩

theorem nameLoc_mem_handles {nameLoc : Handle} {name : String} {inner : List Expr}
    (h : inner? d.args = some (nameLoc, name, inner)) : nameLoc ∈ d.expr.handles := by
  rw [handles_of_inner? h]
  exact List.mem_cons_of_mem _ List.mem_cons_self

/-- **A definition gets no handles from elsewhere**, but for that of its script flag. -/
theorem handles_canonicalAt (flag : Handle) (scope : ScopeId) (h : d.WellFormed) :
    (d.canonicalAt flag scope).expr.handles ⊆ flag :: d.expr.handles := by
  obtain ⟨⟨nameLoc, name, inner⟩, hinner⟩ := Option.isSome_iff_exists.mp (wellFormed_iff.mp h)
  -- what the arguments were, and what the name is
  have hargs : ∀ e ∈ inner, e.handles ⊆ flag :: d.expr.handles :=
    fun e he => List.Subset.trans (handles_of_mem_inner hinner he) (List.subset_cons_self _ _)
  have hname : (Expr.ofText nameLoc name).handles ⊆ flag :: d.expr.handles :=
    List.cons_subset.mpr
      ⟨List.mem_cons_of_mem _ (nameLoc_mem_handles hinner), List.nil_subset _⟩
  have hflag : ∀ value, (Expr.ofBool flag value).handles ⊆ flag :: d.expr.handles :=
    fun value => List.cons_subset.mpr ⟨List.mem_cons_self, List.nil_subset _⟩
  have hall : ∀ e ∈ d.canonicalArgs flag scope, e.handles ⊆ flag :: d.expr.handles := by
    by_cases hbody : endsInThunk inner
    · obtain ⟨init, bodyLoc, body, rfl⟩ := eq_append_of_endsInThunk hbody
      rw [canonicalArgs_of_body hinner]
      obtain ⟨hinit, hthunk⟩ := List.forall_mem_append.mp hargs
      have hbody' : (Expr.thunk bodyLoc (body.scriptedIn scope)).handles
          ⊆ flag :: d.expr.handles := by
        have hthunk' := hthunk _ List.mem_cons_self
        rw [Expr.handles_of_some rfl] at hthunk' ⊢
        have hscripted := List.cons_subset_cons bodyLoc (body.handles_scriptedIn scope)
        exact List.Subset.trans hscripted hthunk'
      refine List.forall_mem_append.mpr ⟨forall_mem_withName hinit hname, ?_⟩
      exact List.forall_mem_cons.mpr ⟨hflag _, List.forall_mem_singleton.mpr hbody'⟩
    · rw [canonicalArgs_of_noBody hinner hbody]
      refine List.forall_mem_append.mpr ⟨forall_mem_withName hargs hname, ?_⟩
      exact List.forall_mem_singleton.mpr (hflag _)
  intro handle hhandle
  obtain rfl | ⟨e, he, hmem⟩ := Expr.mem_handles_call.mp hhandle
  · exact List.mem_cons_of_mem _ d.expr.loc_mem_handles
  · exact hall e he hmem

/-- The problem of a definition is at one of its nodes. -/
theorem loc_mem_of_problem? {problem : ScriptError} (h : d.problem? = some problem) :
    problem.loc ∈ d.expr.handles := by
  have hown : d.loc ∈ d.expr.handles := d.expr.loc_mem_handles
  cases hinner : inner? d.args with
  | none =>
    unfold problem? at h
    rw [hinner] at h
    cases h
  | some inner =>
    obtain ⟨nameLoc, name, inner⟩ := inner
    by_cases hbody : endsInThunk inner
    · obtain ⟨init, bodyLoc, body, rfl⟩ := eq_append_of_endsInThunk hbody
      rw [problem?_of_body hinner] at h
      unfold Block.scriptProblem? at h
      split at h
      · cases h
      · split at h
        · cases h
          exact hown
        · next last hlast =>
          split at h
          · cases h
          · -- the last statement of the body
            cases h
            have hthunk : (Expr.thunk bodyLoc body).handles ⊆ d.expr.handles :=
              handles_of_mem_inner hinner (List.mem_append_right _ List.mem_cons_self)
            rw [Expr.handles_of_some rfl] at hthunk
            refine hthunk (List.mem_cons_of_mem _ ?_)
            exact Block.handles_of_mem_stmts (List.mem_of_getLast? hlast) List.mem_cons_self
    · rw [problem?_of_noBody hinner hbody] at h
      cases h
      exact hown

end Definition

/-! ### Trees -/

/-- The statements of a block with other expressions have their own handles and those of the
expressions. -/
theorem Block.handles_withChildren {block : Block} {es : List Expr} {handles : List Handle}
    (hblock : block.handles ⊆ handles) (hes : ∀ c ∈ es, c.handles ⊆ handles) :
    (block.withChildren es).handles ⊆ handles := by
  obtain ⟨scope, stmts⟩ := block
  rw [handles_subset_iff] at hblock ⊢
  simp only [withChildren] at hblock ⊢
  induction stmts generalizing es with
  | nil => exact List.forall_mem_nil _
  | cons stmt stmts ih =>
    obtain ⟨hfirst, hrest⟩ := List.forall_mem_cons.mp hblock
    cases es with
    | nil => exact List.forall_mem_nil _
    | cons e es =>
      obtain ⟨he, hes⟩ := List.forall_mem_cons.mp hes
      refine List.forall_mem_cons.mpr ⟨?_, ih hes hrest⟩
      exact List.cons_subset.mpr ⟨hfirst List.mem_cons_self, he⟩

namespace Expr

@[simp] theorem loc_withChildren (e : Expr) (es : List Expr) : (e.withChildren es).loc = e.loc := by
  cases e with
  | call loc receiver method args =>
    cases receiver with
    | none => rfl
    | some receiver => cases es <;> rfl
  | property loc target name =>
    match es with
    | [] | [_] | _ :: _ :: _ => rfl
  | binary loc op left right =>
    match es with
    | [] | [_] | [_, _] | _ :: _ :: _ :: _ => rfl
  | _ => rfl

/-- The handles of a node with other children are its own and theirs. -/
theorem handles_withChildren {e : Expr} {es : List Expr} {handles : List Handle}
    (hlength : es.length = e.children.length) (he : e.handles ⊆ handles)
    (hes : ∀ c ∈ es, c.handles ⊆ handles) : (e.withChildren es).handles ⊆ handles := by
  have hloc : e.loc ∈ handles := he e.loc_mem_handles
  cases hbody : e.body? with
  | some body =>
    have hblock : body.handles ⊆ handles := by
      rw [handles_of_some hbody] at he
      exact List.Subset.trans (List.subset_cons_self _ _) he
    rw [handles_of_some (body?_withChildren_of_some hbody es), loc_withChildren]
    exact List.cons_subset.mpr ⟨hloc, Block.handles_withChildren hblock hes⟩
  | none =>
    rw [handles_of_none (body?_withChildren_of_none hbody es), loc_withChildren,
      children_withChildren e es hlength]
    refine List.cons_subset.mpr ⟨hloc, fun handle hhandle => ?_⟩
    obtain ⟨c, hc, hmem⟩ := List.mem_flatMap.mp hhandle
    exact hes c hc hmem

variable {keywords : Keywords}

/-- **A tree gets no handles from elsewhere** than from the calls that are put in it. -/
theorem handles_fill {e : Expr} {calls : List Expr} {handles : List Handle}
    (he : e.handles ⊆ handles) (hcalls : ∀ call ∈ calls, call.handles ⊆ handles) :
    (e.fill keywords calls).handles ⊆ handles := by
  induction e using inductionOnChildren generalizing calls with
  | node e ih =>
    cases hdef : e.definition? keywords with
    | some d =>
      -- if there are too few calls, the definition stays
      rw [fill, hdef]
      cases calls with
      | nil => exact he
      | cons call calls => exact hcalls call List.mem_cons_self
    | none =>
      rw [fill_of_none hdef]
      refine handles_withChildren (length_fillEach ..) he ?_
      refine forall_mem_fillEach fun c hc share hshare => ?_
      have hchild : c.handles ⊆ handles := List.Subset.trans (handles_child hc) he
      exact ih c hc hchild fun call hcall => hcalls call (hshare hcall)

theorem handles_definition {e : Expr} {d : Definition} (h : d ∈ e.definitions keywords) :
    d.expr.handles ⊆ e.handles := by
  induction e using inductionOnChildren with
  | node e ih =>
    cases hdef : e.definition? keywords with
    | some d' =>
      rw [definitions_of_some hdef] at h
      obtain rfl := List.mem_singleton.mp h
      rw [(eq_of_definition? hdef).1]
      exact List.Subset.refl _
    | none =>
      rw [definitions_of_none hdef] at h
      obtain ⟨c, hc, hdc⟩ := List.mem_flatMap.mp h
      exact List.Subset.trans (ih c hc hdc) (handles_child hc)

end Expr

theorem Block.handles_definition {keywords : Keywords} {block : Block} {d : Definition}
    (h : d ∈ block.definitions keywords) : d.expr.handles ⊆ block.handles := by
  obtain ⟨e, he, hd⟩ := List.mem_flatMap.mp h
  exact List.Subset.trans (Expr.handles_definition hd) (handles_of_mem_children he)

theorem Block.handles_fill {keywords : Keywords} {block : Block} {calls : List Expr}
    {handles : List Handle} (hblock : block.handles ⊆ handles)
    (hcalls : ∀ call ∈ calls, call.handles ⊆ handles) :
    (block.fill keywords calls).handles ⊆ handles := by
  refine handles_withChildren hblock (Expr.forall_mem_fillEach fun e he share hshare => ?_)
  have hexpr : e.handles ⊆ handles := List.Subset.trans (handles_of_mem_children he) hblock
  exact Expr.handles_fill hexpr fun call hcall => hcalls call (hshare hcall)

/-! ### Positions -/

namespace SourceMap

/-- A handle that has a position is known. -/
theorem knows_of_position? {map : SourceMap} {handle : Handle}
    (h : (map.position? handle).isSome) : map.Knows handle := by
  cases handle with
  | unknown => trivial
  | entry index =>
    refine Nat.lt_of_not_le fun hle => ?_
    have hnone : map.entries[index]? = none := Array.getElem?_eq_none hle
    change ((map.entries[index]?).bind SourceInfo.position).isSome at h
    rw [hnone] at h
    cases h

/-- The handle of a script flag has the position of its definition. -/
theorem position?_withFlag (map : SourceMap) (loc : Handle) :
    (map.withFlag loc).position? (.entry map.size) = map.position? loc := by
  have hinfo : (map.withFlag loc).info? (.entry map.size)
      = some ⟨map.position? loc, some "script mode"⟩ := map.info?_mint_self _
  rw [position?, hinfo]
  rfl

/-- **The positions of script flags** are those of the definitions, one by one. -/
theorem position?_withFlags {map : SourceMap} {ds : List Definition}
    (hknown : ∀ d ∈ ds, map.Knows d.loc) {i : Nat} {d : Definition} (hd : ds[i]? = some d) :
    (map.withFlags ds).position? (.entry (map.size + i)) = map.position? d.loc := by
  induction ds generalizing map i with
  | nil => cases hd
  | cons first ds ih =>
    have hflag : (map.withFlag first.loc).Extends map := extends_mint map _
    have hsize : (map.withFlag first.loc).size = map.size + 1 := size_mint map _
    obtain ⟨-, hrest⟩ := List.forall_mem_cons.mp hknown
    rw [withFlags_cons]
    cases i with
    | zero =>
      obtain rfl := Option.some.inj hd
      -- the flag is known at once, and keeps its position
      have hself : (map.withFlag first.loc).Knows (.entry map.size) :=
        Nat.lt_of_lt_of_eq (Nat.lt_succ_self _) hsize.symm
      rw [Nat.add_zero, (extends_withFlags _ ds).position?_eq hself, position?_withFlag]
    | succ i =>
      have hmem : d ∈ ds := List.mem_of_getElem? hd
      have hnext := ih (fun d' hd' => hflag.knows (hrest d' hd')) hd
      rw [hsize, Nat.add_assoc, Nat.add_comm 1 i] at hnext
      rw [hnext, hflag.position?_eq (hrest d hmem)]

end SourceMap

namespace Definition

/-- Where the canonical forms of definitions are found. -/
theorem getElem?_canonicalsAt (flag : Nat → Handle) (scope : Nat → ScopeId) (ds : List Definition)
    (i : Nat) :
    (canonicalsAt flag scope ds)[i]? = ds[i]?.map fun d =>
      d.canonicalAt (flag i) (scope ((ds.take i).countP opensScope)) := by
  induction ds generalizing flag scope i with
  | nil => rfl
  | cons d ds ih =>
    cases i with
    | zero => rfl
    | succ i =>
      rw [canonicalsAt, List.getElem?_cons_succ, List.getElem?_cons_succ, ih,
        List.take_succ_cons, List.countP_cons]

/-- Canonical forms have the keywords and locations of the definitions. -/
theorem same_canonicalsAt (flag : Nat → Handle) (scope : Nat → ScopeId) (ds : List Definition) :
    (canonicalsAt flag scope ds).map (fun d => (d.keyword, d.loc))
      = ds.map (fun d => (d.keyword, d.loc)) := by
  induction ds generalizing flag scope with
  | nil => rfl
  | cons d ds ih => rw [canonicalsAt, List.map_cons, List.map_cons, ih]; rfl

/-- The reports of definitions whose handles are known from the start. What has been added since
does not matter. -/
theorem reportsFrom_eq {map later : SourceMap} (hgrows : later.Extends map) {ds : List Definition}
    (hknown : ∀ d ∈ ds, ∀ handle ∈ d.expr.handles, map.Knows handle) :
    reportsFrom later ds = ds.filterMap fun d => d.problem?.map (Report.ofProblem map) := by
  induction ds generalizing later with
  | nil => rfl
  | cons d ds ih =>
    obtain ⟨hfirst, hrest⟩ := List.forall_mem_cons.mp hknown
    have hnext : (later.withFlag d.loc).Extends map :=
      hgrows.trans (SourceMap.extends_mint later _)
    rw [reportsFrom, ih hnext hrest]
    cases hproblem : d.problem? with
    | none => simp [hproblem]
    | some problem =>
      have hposition : later.position? problem.loc = map.position? problem.loc :=
        hgrows.position?_eq (hfirst problem.loc (loc_mem_of_problem? hproblem))
      have hreport : Report.ofProblem later problem = Report.ofProblem map problem := by
        unfold Report.ofProblem
        rw [hposition]
      simp [hproblem, hreport]

end Definition

/-! ### Tracing a pass -/

/-- Where the statements of a body in canonical form come from: those outside the script are
encoded, and the thunk of the script and its statement have the handle of the first statement of the
script's section or, failing that, of the string at the end. -/
structure Block.Traced (body body' : Block) : Prop where
  declared : List.Forall₂ (fun stmt stmt' => ∃ e, stmt' = stmt.withExpr e ∧ Encodes stmt.expr e)
    ((Section.retained body.stmts).map Prod.snd) body.declared
  scriptSection : ∀ first rest, Section.script body.stmts = first :: rest →
    ∃ scope, body'.stmts = body.declared ++
      [⟨false, first.loc, none, .thunk first.loc ⟨scope, first :: rest⟩⟩]
  trailingText : ∀ last, Section.script body.stmts = [] → body.stmts.getLast? = some last →
    last.expr.isTextual →
    ∃ scope, body'.stmts = body.declared.dropLast ++
      [⟨false, last.loc, none, .thunk last.loc ⟨scope, [⟨false, last.loc, none, last.expr⟩]⟩⟩]
  kept : ¬ body.defersScript → body'.stmts = body.declared

theorem Block.traced_scriptedIn (scope : ScopeId) (body : Block) :
    body.Traced (body.scriptedIn scope) where
  declared := body.declared_encodes
  scriptSection := by
    intro first rest hs
    rw [scriptedIn_of_section hs]
    exact ⟨scope, rfl⟩
  trailingText := by
    intro last hs hl ht
    rw [scriptedIn_of_text hs hl ht]
    exact ⟨scope, rfl⟩
  kept := by
    intro hkept
    rw [scriptedIn_of_kept hkept]

namespace Definition

/-- Where the nodes of the canonical form `d'` of a definition `d` come from. The name has the
handle of the inner call, and the script flag the position of the definition. -/
structure Traced (before after : SourceMap) (d d' : Definition) : Prop where
  inside : ∀ handle ∈ d'.expr.handles, ∃ origin ∈ d.expr.handles,
    after.position? handle = before.position? origin
  parts : ∃ nameLoc name inner flag hasScript, d.args = [.call nameLoc none name inner] ∧
    d'.args[nameIndex inner]? = some (.ofText nameLoc name) ∧
    d'.args[flagIndex inner d'.args]? = some (.ofBool flag hasScript) ∧
    after.position? flag = before.position? d.loc ∧
    ∀ bodyLoc body, inner.getLast? = some (.thunk bodyLoc body) →
      ∃ body', d'.args.getLast? = some (.thunk bodyLoc body') ∧ body.Traced body'

theorem traced_canonicalAt {before after : SourceMap} {d : Definition} {flag : Handle}
    (scope : ScopeId) (hwell : d.WellFormed)
    (hkept : ∀ handle ∈ d.expr.handles, after.position? handle = before.position? handle)
    (hflag : after.position? flag = before.position? d.loc) :
    d.Traced before after (d.canonicalAt flag scope) where
  inside := by
    intro handle hhandle
    rcases List.mem_cons.mp (handles_canonicalAt flag scope hwell hhandle) with rfl | hmem
    · exact ⟨d.loc, d.expr.loc_mem_handles, hflag⟩
    · exact ⟨handle, hmem, hkept handle hmem⟩
  parts := by
    obtain ⟨⟨nameLoc, name, inner⟩, hinner⟩ := Option.isSome_iff_exists.mp (wellFormed_iff.mp hwell)
    refine ⟨nameLoc, name, inner, flag, d.problem?.isNone, args_of_inner? hinner, ?_⟩
    by_cases hbody : endsInThunk inner
    · obtain ⟨init, bodyLoc, body, rfl⟩ := eq_append_of_endsInThunk hbody
      have harranged := arranged_body init bodyLoc body (body.scriptedIn scope)
        (.ofText nameLoc name) (.ofBool flag d.problem?.isNone)
      have hargs : (d.canonicalAt flag scope).args = _ := canonicalArgs_of_body hinner
      rw [hargs]
      refine ⟨harranged.name_at, harranged.flag_at, hflag, fun bodyLoc' body' hlast => ?_⟩
      rw [List.getLast?_concat] at hlast
      cases hlast
      refine ⟨body.scriptedIn scope, ?_, body.traced_scriptedIn scope⟩
      rw [List.getLast?_append]
      rfl
    · have harranged := arranged_noBody hbody (.ofText nameLoc name)
        (.ofBool flag d.problem?.isNone)
      have hargs : (d.canonicalAt flag scope).args = _ := canonicalArgs_of_noBody hinner hbody
      rw [hargs]
      refine ⟨harranged.name_at, harranged.flag_at, hflag, fun bodyLoc body hlast => ?_⟩
      refine absurd ?_ hbody
      unfold endsInThunk
      rw [hlast]
      rfl

end Definition

open Definition

namespace Block

variable {keywords : Keywords} {block out : Block} {before after : Progress}

/-- What a pass gives is filled with its own definitions, which are the canonical forms of those
that were there. -/
theorem definitions_of_desugar (h : (block.desugar keywords).run before = (.ok out, after)) :
    out.definitions keywords
        = canonicalsAt (fun i => .entry (before.registry.sourceMap.size + i))
          (fun i => ⟨before.registry.scopes.size + i⟩) (block.definitions keywords) ∧
      out = block.fill keywords ((out.definitions keywords).map Definition.expr) := by
  obtain ⟨calls, rfl, hlaw⟩ := desugar_closed h
  have hsame := definitions_fill_same (same_canonicalsAt
    (fun i => .entry (before.registry.sourceMap.size + i))
    (fun i => ⟨before.registry.scopes.size + i⟩) (block.definitions keywords))
  rw [← hlaw.calls_eq] at hsame
  refine ⟨hsame, ?_⟩
  rw [hsame, ← hlaw.calls_eq]

/-- A pass adds no handles but those of the script flags. -/
theorem handles_of_desugar (h : (block.desugar keywords).run before = (.ok out, after))
    {handle : Handle} (hhandle : handle ∈ out.handles) :
    handle ∈ block.handles ∨ ∃ i d, (block.definitions keywords)[i]? = some d ∧
      handle = .entry (before.registry.sourceMap.size + i) := by
  obtain ⟨hdefinitions, hout⟩ := definitions_of_desugar h
  have hwell := (desugar_succeeds_iff keywords block before).mp ⟨out, after, h⟩
  -- a handle of the result is one of the tree or one of a canonical form
  have hamong : (block.fill keywords ((out.definitions keywords).map Definition.expr)).handles
      ⊆ block.handles ++ (out.definitions keywords).flatMap (·.expr.handles) := by
    refine handles_fill (List.subset_append_left _ _) ?_
    refine List.forall_mem_map.mpr fun d' hd' other hother => List.mem_append_right _ ?_
    exact List.mem_flatMap.mpr ⟨d', hd', hother⟩
  rw [← hout] at hamong
  rcases List.mem_append.mp (hamong hhandle) with hmem | hmem
  · exact .inl hmem
  · obtain ⟨d', hd', hmem'⟩ := List.mem_flatMap.mp hmem
    -- the definition that it was has the same number
    obtain ⟨i, hi⟩ := List.getElem?_of_mem hd'
    rw [hdefinitions, getElem?_canonicalsAt] at hi
    obtain ⟨d, hd, rfl⟩ := Option.map_eq_some_iff.mp hi
    have hd_mem : d ∈ block.definitions keywords := List.mem_of_getElem? hd
    rcases List.mem_cons.mp (handles_canonicalAt _ _ (hwell d hd_mem) hmem') with rfl | hkept
    · exact .inr ⟨i, d, hd, rfl⟩
    · exact .inl (handles_definition hd_mem hkept)

/-- Known handles keep their positions. -/
theorem position?_of_desugar (h : (block.desugar keywords).run before = (.ok out, after))
    {handle : Handle} (hknown : before.registry.sourceMap.Knows handle) :
    after.registry.sourceMap.position? handle = before.registry.sourceMap.position? handle := by
  obtain ⟨calls, -, hlaw⟩ := desugar_closed h
  rw [hlaw.sourceMap_eq]
  exact (SourceMap.extends_withFlags _ _).position?_eq hknown

section Known

variable (h : (block.desugar keywords).run before = (.ok out, after))
  (hknown : ∀ handle ∈ block.handles, before.registry.sourceMap.Knows handle)

include h hknown

/-- A script flag has the position of its definition. -/
theorem position?_flag_of_desugar {i : Nat} {d : Definition}
    (hd : (block.definitions keywords)[i]? = some d) :
    after.registry.sourceMap.position? (.entry (before.registry.sourceMap.size + i))
      = before.registry.sourceMap.position? d.loc := by
  obtain ⟨calls, -, hlaw⟩ := desugar_closed h
  rw [hlaw.sourceMap_eq]
  refine SourceMap.position?_withFlags (fun d hd => ?_) hd
  exact hknown d.loc (handles_definition hd d.expr.loc_mem_handles)

/-- The reports of a pass have the positions that were known before it. -/
theorem reports_eq_of_desugar :
    after.reports = before.reports ++ (block.definitions keywords).filterMap fun d =>
      d.problem?.map (Report.ofProblem before.registry.sourceMap) := by
  obtain ⟨calls, -, hlaw⟩ := desugar_closed h
  rw [hlaw.reports_eq, reportsFrom_eq (.refl _) fun d hd handle hhandle => ?_]
  exact hknown handle (handles_definition hd hhandle)

/-- Definition by definition, the canonical forms are traced. -/
theorem traced_of_desugar {i : Nat} {d d' : Definition}
    (hd : (block.definitions keywords)[i]? = some d)
    (hd' : (out.definitions keywords)[i]? = some d') :
    d.Traced before.registry.sourceMap after.registry.sourceMap d' := by
  have hwell := (desugar_succeeds_iff keywords block before).mp ⟨out, after, h⟩
  have hmem : d ∈ block.definitions keywords := List.mem_of_getElem? hd
  rw [(definitions_of_desugar h).1, getElem?_canonicalsAt, hd] at hd'
  obtain rfl := Option.some.inj hd'
  refine traced_canonicalAt _ (hwell d hmem) (fun handle hhandle => ?_)
    (position?_flag_of_desugar h hknown hd)
  exact position?_of_desugar h (hknown handle (handles_definition hmem hhandle))

/-- Every node of the result has the position of a node of the tree. -/
theorem exists_origin_of_desugar : ∀ handle ∈ out.handles, ∃ origin ∈ block.handles,
    after.registry.sourceMap.position? handle = before.registry.sourceMap.position? origin := by
  intro handle hhandle
  obtain hmem | ⟨i, d, hd, rfl⟩ := handles_of_desugar h hhandle
  · exact ⟨handle, hmem, position?_of_desugar h (hknown handle hmem)⟩
  · have hloc : d.loc ∈ block.handles :=
      handles_definition (List.mem_of_getElem? hd) d.expr.loc_mem_handles
    exact ⟨d.loc, hloc, position?_flag_of_desugar h hknown hd⟩

end Known

/-- Every report is about a definition without a script, at one of its nodes. -/
theorem reports_of_desugar
    (hlocated : ∀ handle ∈ block.handles, (before.registry.sourceMap.position? handle).isSome)
    (h : (block.desugar keywords).run before = (.ok out, after)) :
    ∃ about : List (Definition × Report),
      about.map Prod.fst = (block.definitions keywords).filter (·.problem?.isSome) ∧
      after.reports = before.reports ++ about.map Prod.snd ∧
      ∀ p ∈ about, ∃ handle ∈ p.1.expr.handles,
        after.registry.sourceMap.position? handle = some ⟨p.2.line, p.2.column⟩ := by
  have hknown : ∀ handle ∈ block.handles, before.registry.sourceMap.Knows handle :=
    fun handle hhandle => SourceMap.knows_of_position? (hlocated handle hhandle)
  refine ⟨(block.definitions keywords).filterMap fun d =>
    d.problem?.map fun problem => (d, .ofProblem before.registry.sourceMap problem), ?_, ?_, ?_⟩
  · rw [List.map_filterMap, ← List.filterMap_eq_filter]
    refine List.filterMap_congr fun d _ => ?_
    cases hproblem : d.problem? <;> simp [Option.guard, hproblem]
  · rw [reports_eq_of_desugar h hknown, List.map_filterMap]
    simp only [Option.map_map]
    rfl
  · intro p hp
    obtain ⟨d, hd, hpair⟩ := List.mem_filterMap.mp hp
    obtain ⟨problem, hproblem, rfl⟩ := Option.map_eq_some_iff.mp hpair
    have hloc : problem.loc ∈ d.expr.handles := loc_mem_of_problem? hproblem
    have hmem : problem.loc ∈ block.handles := handles_definition hd hloc
    obtain ⟨position, hposition⟩ := Option.isSome_iff_exists.mp (hlocated problem.loc hmem)
    refine ⟨problem.loc, hloc, ?_⟩
    rw [position?_of_desugar h (hknown problem.loc hmem), hposition]
    unfold Report.ofProblem
    rw [hposition]
    rfl

/-- **Generated nodes point back at the source.** If every statement and expression of a tree has a
position, then so has every statement and expression of what a pass makes of it, and it is the
position of one in the tree. A node inside a definition has the position of a node inside the
definition that it was, and the new nodes have the positions of those that they stand for
(`Definition.Traced`). Every report is about one of the definitions without a script, in order, and
has the position of a node of it. -/
theorem desugar_points_back
    (hlocated : ∀ handle ∈ block.handles, (before.registry.sourceMap.position? handle).isSome)
    (h : (block.desugar keywords).run before = (.ok out, after)) :
    (∀ handle ∈ block.handles,
      after.registry.sourceMap.position? handle = before.registry.sourceMap.position? handle) ∧
    (∀ handle ∈ out.handles, (after.registry.sourceMap.position? handle).isSome ∧
      ∃ origin ∈ block.handles,
        after.registry.sourceMap.position? handle = before.registry.sourceMap.position? origin) ∧
    (out.definitions keywords).length = (block.definitions keywords).length ∧
    (∀ (i : Nat) (d d' : Definition), (block.definitions keywords)[i]? = some d →
      (out.definitions keywords)[i]? = some d' →
      d.Traced before.registry.sourceMap after.registry.sourceMap d') ∧
    ∃ about : List (Definition × Report),
      about.map Prod.fst = (block.definitions keywords).filter (·.problem?.isSome) ∧
      after.reports = before.reports ++ about.map Prod.snd ∧
      ∀ p ∈ about, ∃ handle ∈ p.1.expr.handles,
        after.registry.sourceMap.position? handle = some ⟨p.2.line, p.2.column⟩ := by
  have hlength : (out.definitions keywords).length = (block.definitions keywords).length := by
    have hsame := congrArg List.length (same_canonicalsAt
      (fun i => .entry (before.registry.sourceMap.size + i))
      (fun i => ⟨before.registry.scopes.size + i⟩) (block.definitions keywords))
    rwa [List.length_map, List.length_map, ← (definitions_of_desugar h).1] at hsame
  have hknown : ∀ handle ∈ block.handles, before.registry.sourceMap.Knows handle :=
    fun handle hhandle => SourceMap.knows_of_position? (hlocated handle hhandle)
  refine ⟨fun handle hhandle => position?_of_desugar h (hknown handle hhandle),
    fun handle hhandle => ?_, hlength, fun i d d' hd hd' => traced_of_desugar h hknown hd hd',
    reports_of_desugar hlocated h⟩
  obtain ⟨origin, hmem, hposition⟩ := exists_origin_of_desugar h hknown handle hhandle
  refine ⟨?_, origin, hmem, hposition⟩
  rw [hposition]
  exact hlocated origin hmem

/-- A list of two definitions. The body of the first declares an input and ends in a string, and the
second has no body. Every statement and expression has a location. -/
def sampleTraced : Block :=
  let input : Stmt := ⟨false, .entry 5, some "input",
    .call (.entry 6) none "val" [.var (.entry 7) "x"]⟩
  let script : Stmt := .plain (.entry 8) (.ofText (.entry 9) "ls")
  ⟨Scopes.root, [.plain (.entry 0) (.list (.entry 1)
    [.call (.entry 2) none "process"
      [.call (.entry 3) none "foo" [.thunk (.entry 4) ⟨⟨1⟩, [input, script]⟩]],
     .call (.entry 10) none "process" [.call (.entry 11) none "bar" []]])]⟩

/-- Locations for twelve nodes, each on a line of its own. -/
def sampleLines : SourceMap :=
  ⟨#[⟨some ⟨1, 1⟩, none⟩, ⟨some ⟨2, 1⟩, none⟩, ⟨some ⟨3, 1⟩, none⟩, ⟨some ⟨4, 1⟩, none⟩,
    ⟨some ⟨5, 1⟩, none⟩, ⟨some ⟨6, 1⟩, none⟩, ⟨some ⟨7, 1⟩, none⟩, ⟨some ⟨8, 1⟩, none⟩,
    ⟨some ⟨9, 1⟩, none⟩, ⟨some ⟨10, 1⟩, none⟩, ⟨some ⟨11, 1⟩, none⟩, ⟨some ⟨12, 1⟩, none⟩]⟩

theorem desugar_points_back_list :
    (∀ handle ∈ sampleTraced.handles, (sampleLines.position? handle).isSome) ∧
    ∃ out after, (sampleTraced.desugar .default).run { registry := { sourceMap := sampleLines } }
        = (.ok out, after) ∧
      (∀ handle ∈ out.handles, (after.registry.sourceMap.position? handle).isSome) ∧
      after.reports = [⟨"process bar has no body", 11, 1⟩] ∧
      ∃ about : List (Definition × Report), about.map Prod.snd = after.reports ∧
        ∀ p ∈ about, ∃ handle ∈ p.1.expr.handles,
          after.registry.sourceMap.position? handle = some ⟨p.2.line, p.2.column⟩ := by
  have hlocated : ∀ handle ∈ sampleTraced.handles, (sampleLines.position? handle).isSome := by
    decide
  obtain ⟨out, after, h, hreports⟩ : ∃ out after,
      (sampleTraced.desugar .default).run { registry := { sourceMap := sampleLines } }
        = (.ok out, after) ∧ after.reports = [⟨"process bar has no body", 11, 1⟩] :=
    ⟨_, _, rfl, rfl⟩
  obtain ⟨-, hresolved, -, -, about, -, habout, hplaced⟩ := desugar_points_back hlocated h
  exact ⟨hlocated, out, after, h, fun handle hhandle => (hresolved handle hhandle).1, hreports,
    about, habout.symm, hplaced⟩

end Block

end FlowDesugar
