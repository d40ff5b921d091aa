import FlowDesugar.Proofs.Levels
import FlowDesugar.Proofs.Origins

/-!
# How much deeper a document gets

Between a document and the one that is written for what becomes of it, two things add to the depth,
by one level each at most:

* `Interchange.ReadFrom.depth_le` — the arguments of a call may be missing in a document, but they
  are always written;
* `Expr.depth_of_desugar` — a script goes into a thunk, three levels further in, while the call
  around the arguments of a definition goes away, and with it two levels. Declarations get no
  deeper: what is put beside an argument, or in its place, is a constant.

Together they are `Interchange.depth_writeDocument_of_desugar`.
-/

namespace FlowDesugar

open Json (Value Fields Path depthOfFields depthOfFields_le)

namespace Interchange

/-! ### Reading -/

/-- The part is inside the value, at least so many levels further in. -/
structure Within (value : Value) (gap : Nat) (part : Value) : Prop where
  inside : part.Inside value
  depth_le : gap + part.depth ≤ value.depth

theorem within_entry {fields : Fields} {field : String × Value} (h : field ∈ fields) :
    Within (.object fields) 1 field.2 where
  inside := .field h
  depth_le := by
    have hle := depthOfFields_le.mp (Nat.le_refl (depthOfFields fields)) field h
    rw [Value.depth]
    omega

theorem within_field {fields : Fields} {name : String} {part : Value}
    (h : fields.get? name = some part) : Within (.object fields) 1 part :=
  within_entry (Fields.mem_of_get? h)

theorem within_item {item : Value} {items : List Value} (h : item ∈ items) :
    Within (.array items) 1 item where
  inside := .item h
  depth_le := by
    have hlt := Value.depth_lt_of_item h
    omega

theorem Within.trans {value part inner : Value} {gap gap' : Nat} (h : Within value gap part)
    (h' : Within part gap' inner) : Within value (gap + gap') inner where
  inside := h'.inside.trans h.inside
  depth_le := by
    have hle := h.depth_le
    have hle' := h'.depth_le
    omega

section

variable {path : Path} {scope : ScopeId} {fields : Fields} {before after : Registry}
  {values : List Value} {name : String}

/-- Expressions that were read from an array in a field. -/
theorem within_of_readExprs {es : List Expr} (hget : fields.get? name = some (.array values))
    (h : (readExprs (path.field name) scope 0 values).run before = .ok (es, after)) :
    ∀ e ∈ es, ∃ part, Within (.object fields) 2 part ∧ ReadFrom part e := by
  intro e he
  obtain ⟨part, hmem, hread⟩ := (paired_of_readExprs h).back e he
  exact ⟨part, (within_field hget).trans (within_item hmem), hread⟩

theorem within_of_readBody {stmts : List Stmt}
    (h : (readBody path scope fields).run before = .ok (stmts, after)) :
    ∀ e ∈ stmts.map Stmt.expr, ∃ part, Within (.object fields) 3 part ∧ ReadFrom part e := by
  obtain ⟨values, hget, hstmts⟩ := readBody_eq_ok.mp h
  refine List.forall_mem_map.mpr fun stmt hstmt => ?_
  obtain ⟨value, hmem, hfrom⟩ := (paired_of_readStmts hstmts).back stmt hstmt
  cases hfrom with
  | stmt _ _ _ hexpr hread =>
    exact ⟨_, ((within_field hget).trans (within_item hmem)).trans (within_field hexpr), hread⟩

theorem within_of_documentOf {value : Value} {document : Document}
    (h : (documentOf value).run before = .ok (document, after)) :
    ∀ e ∈ document.body.children, ∃ part, Within value 3 part ∧ ReadFrom part e := by
  obtain ⟨fields, stmts, rfl, -, hbody, hstmts⟩ := documentOf_eq_ok.mp h
  rw [hbody]
  exact within_of_readBody hstmts

end

/-- **The children of an expression that was read** were read from inside the value, as far in as
they are written again. -/
theorem ReadFrom.steps {value : Value} {e : Expr} (h : ReadFrom value e) :
    ∀ step ∈ e.steps, ∃ part, Within value step.1 part ∧ ReadFrom part step.2 := by
  obtain ⟨path, scope, before, after, hrun⟩ := h
  obtain ⟨fields, loc, noted, kind, rfl, -, -, hnode⟩ := readExpr_eq_ok.mp hrun
  unfold Expr.steps
  -- a child in an array is two levels further in, one in a statement three
  cases hnode with
  | str | num | bool | null | var => exact List.forall_mem_nil _
  | gstring hparts =>
    obtain ⟨values, hget, hchunks⟩ := readParts_eq_ok.mp hparts
    refine forall_mem_zip_replicate.mpr fun e he => ?_
    obtain ⟨chunk, hchunk, hexpr⟩ := List.mem_filterMap.mp he
    obtain ⟨part, hmem, hfrom⟩ := (paired_of_readChunks hchunks).back chunk hchunk
    cases hfrom with
    | text => cases hexpr
    | interpolation hread =>
      obtain rfl := Option.some.inj hexpr
      exact ⟨part, (within_field hget).trans (within_item hmem), hread⟩
  | property htarget =>
    obtain ⟨part, hget, hread⟩ := readField_eq_ok.mp htarget
    exact List.forall_mem_singleton.mpr ⟨part, within_field hget, _, _, _, _, hread⟩
  | call hreceiver _ hargs =>
    rw [Expr.gaps, Expr.children, List.zip_append List.length_replicate]
    refine List.forall_mem_append.mpr
      ⟨forall_mem_zip_replicate.mpr ?_, forall_mem_zip_replicate.mpr ?_⟩
    · cases readReceiver_eq_ok.mp hreceiver with
      | missing | null => exact List.forall_mem_nil _
      | node hget hread =>
        exact List.forall_mem_singleton.mpr ⟨_, within_field hget, _, _, _, _, hread⟩
    · cases readArgs_eq_ok.mp hargs with
      | missing => exact List.forall_mem_nil _
      | nodes hget hexprs => exact within_of_readExprs hget hexprs
  | @map entries _ hentries =>
    obtain ⟨values, hget, hvalues⟩ := readEntries_eq_ok.mp hentries
    have hlength : entries.length = (entries.map Entry.value).length := (List.length_map _).symm
    rw [Expr.gaps, Expr.children, hlength]
    refine forall_mem_zip_replicate.mpr (List.forall_mem_map.mpr fun entry hentry => ?_)
    obtain ⟨field, hmem, hread⟩ := (paired_of_readValues hvalues).back entry hentry
    exact ⟨field.2, (within_field hget).trans (within_entry hmem), hread⟩
  | list hitems =>
    obtain ⟨values, hget, hexprs⟩ := readItems_eq_ok.mp hitems
    exact forall_mem_zip_replicate.mpr (within_of_readExprs hget hexprs)
  | binary _ _ hleft hright =>
    obtain ⟨part, hget, hread⟩ := readField_eq_ok.mp hleft
    obtain ⟨part', hget', hread'⟩ := readField_eq_ok.mp hright
    exact List.forall_mem_cons.mpr ⟨⟨part, within_field hget, _, _, _, _, hread⟩,
      List.forall_mem_singleton.mpr ⟨part', within_field hget', _, _, _, _, hread'⟩⟩
  | @thunk inner _ stmts _ _ _ hstmts =>
    have hlength : stmts.length = (stmts.map Stmt.expr).length := (List.length_map _).symm
    rw [Expr.gaps, hlength]
    exact forall_mem_zip_replicate.mpr (within_of_readBody hstmts)
  | @closure _ inner _ stmts _ _ _ _ hstmts =>
    have hlength : stmts.length = (stmts.map Stmt.expr).length := (List.length_map _).symm
    rw [Expr.gaps, hlength]
    exact forall_mem_zip_replicate.mpr (within_of_readBody hstmts)

/-- **An expression that was read** is written with one level more than it was read from, at
most. -/
theorem ReadFrom.depth_le {value : Value} {e : Expr} (h : ReadFrom value e) :
    e.depth ≤ value.depth + 1 := by
  induction e using Expr.inductionOnChildren generalizing value with
  | node e ih =>
    refine Expr.depth_le.mpr ⟨?_, fun step hstep => ?_⟩
    · -- no node takes more than two levels, and an object is one
      obtain ⟨path, scope, before, after, hrun⟩ := h
      obtain ⟨fields, loc, noted, kind, rfl, -⟩ := readExpr_eq_ok.mp hrun
      have hlevels : e.levels ≤ 2 := by
        cases e <;> simp [Expr.levels]
      have hobject : 1 ≤ (Value.object fields).depth := Nat.succ_pos _
      omega
    · obtain ⟨part, hwithin, hread⟩ := h.steps step hstep
      have hchild := ih step.2 (Expr.snd_mem_of_mem_steps hstep) hread
      have hgap := hwithin.depth_le
      omega

end Interchange

/-! ### Declarations -/

section

variable {n : Nat}

theorem Encoding.depth_apply {encoding : Encoding} {arg : Expr} (h : arg.depth ≤ n) :
    ∀ e ∈ encoding.apply arg, e.depth ≤ n := by
  -- nothing is less deep than a constant
  have hconstant : ∀ loc value, (Expr.literal loc value).depth ≤ n := by
    intro loc value
    rw [Expr.depth_literal]
    exact Nat.le_trans arg.depth_pos h
  have hself : ∀ e ∈ [arg], e.depth ≤ n := List.forall_mem_singleton.mpr h
  have hflagged : ∀ e ∈ [Expr.ofBool arg.loc false, arg], e.depth ≤ n :=
    List.forall_mem_cons.mpr ⟨hconstant _ _, hself⟩
  cases encoding with
  | untouched => exact hself
  | name =>
    cases arg with
    | var loc ident => exact List.forall_mem_singleton.mpr (hconstant _ _)
    | _ => exact hself
  | flagged =>
    cases arg with
    | var loc ident =>
      exact List.forall_mem_cons.mpr ⟨hconstant _ _, List.forall_mem_singleton.mpr (hconstant _ _)⟩
    | _ => exact hflagged

theorem Rule.depth_encodeArgs {rule : Rule} {args : List Expr} (h : ∀ e ∈ args, e.depth ≤ n) :
    ∀ e ∈ rule.encodeArgs args, e.depth ≤ n := by
  unfold Rule.encodeArgs Encoding.applyAt
  split
  · exact h
  · next arg harg =>
    refine List.forall_mem_append.mpr ⟨List.forall_mem_append.mpr ⟨?_, ?_⟩, ?_⟩
    · exact fun e he => h e (List.mem_of_mem_take he)
    · exact Encoding.depth_apply (h arg (List.mem_of_getElem? harg))
    · exact fun e he => h e (List.mem_of_mem_drop he)

end

/-- Declarations get no deeper. -/
theorem Expr.depth_canonicalize (inside : Section) (e : Expr) :
    (e.canonicalize inside).depth ≤ e.depth := by
  induction e using Expr.inductionOnChildren with
  | node e ih =>
    cases e with
    | call loc receiver method args =>
      obtain ⟨htwo, hreceiver, hargs⟩ := Expr.depth_call_le.mp (Nat.le_refl (depth _))
      generalize (call loc receiver method args).depth = n at htwo hreceiver hargs ⊢
      have hlink : ∀ e ∈ (canonicalizeReceiver inside receiver).toList, 1 + e.depth ≤ n := by
        cases receiver with
        | none => exact List.forall_mem_nil _
        | some receiver =>
          refine List.forall_mem_singleton.mpr ?_
          have hle := ih receiver List.mem_cons_self
          have hold := hreceiver receiver List.mem_cons_self
          omega
      have hcomponents : ∀ e ∈ canonicalizeComponents inside args, 2 + e.depth ≤ n := by
        rw [canonicalizeComponents_eq]
        refine List.forall_mem_map.mpr fun arg harg => ?_
        have hle := ih arg (List.mem_append_right _ harg)
        have hold := hargs arg harg
        omega
      have hencoded : ∀ rule : Rule, ∀ e ∈ rule.encodeArgs args, 2 + e.depth ≤ n := by
        intro rule e he
        have hold : ∀ e ∈ args, e.depth ≤ n - 2 := fun e he => Nat.le_sub_of_add_le' (hargs e he)
        have hle := Rule.depth_encodeArgs hold e he
        omega
      -- the arguments stay, are canonicalized as the components of a tuple, or get encoded
      rw [Expr.canonicalize]
      split
      · exact Expr.depth_call_le.mpr ⟨htwo, hlink, hargs⟩
      · split
        · exact Expr.depth_call_le.mpr ⟨htwo, hlink, hcomponents⟩
        · exact Expr.depth_call_le.mpr ⟨htwo, hlink, hencoded _⟩
    | _ => exact Nat.le_refl _

theorem Section.depth_rewrite (inside : Section) (e : Expr) :
    (inside.rewrite e).depth ≤ e.depth := by
  unfold Section.rewrite
  split
  · exact e.depth_canonicalize inside
  · exact Nat.le_refl _

/-! ### Bodies -/

section

variable {n : Nat} {body : Block}

theorem Block.depth_declared (h : ∀ e ∈ body.children, e.depth ≤ n) :
    ∀ stmt ∈ body.declared, stmt.expr.depth ≤ n := by
  refine List.forall_mem_map.mpr fun part hpart => ?_
  have hold := h part.2.expr (List.mem_map_of_mem (Section.snd_mem_of_mem_retained hpart))
  exact Nat.le_trans (part.1.depth_rewrite part.2.expr) hold

/-- A thunk is three levels further out than what is in it. -/
theorem Stmt.depth_deferred {loc : Handle} {scope : ScopeId} {stmts : List Stmt}
    (h : ∀ stmt ∈ stmts, stmt.expr.depth ≤ n) :
    (Stmt.deferred loc scope stmts).expr.depth ≤ n + 3 := by
  refine Expr.depth_thunk_le.mpr ⟨Nat.le_add_left 2 (n + 1), ?_⟩
  refine List.forall_mem_map.mpr fun stmt hstmt => ?_
  have hold := h stmt hstmt
  omega

/-- The statements of a body get three levels deeper at most, by the thunk around the script. -/
theorem Definition.depth_scriptedBody (scopes : Scopes) (definition : Handle)
    (h : ∀ e ∈ body.children, e.depth ≤ n) :
    ∀ e ∈ (scriptedBody scopes definition body).1.block.children, e.depth ≤ n + 3 := by
  have hstmts : ∀ stmt ∈ body.stmts, stmt.expr.depth ≤ n := List.forall_mem_map.mp h
  have hdeclared : ∀ stmt ∈ body.declared, stmt.expr.depth ≤ n + 3 := by
    intro stmt hstmt
    exact Nat.le_trans (Block.depth_declared h stmt hstmt) (Nat.le_add_right n 3)
  cases hscript : Section.script body.stmts with
  | cons first rest =>
    -- a thunk at the end, with the statements of the section
    rw [scriptedBody_of_section hscript]
    refine List.forall_mem_map.mpr (List.forall_mem_append.mpr ⟨hdeclared, ?_⟩)
    refine List.forall_mem_singleton.mpr (Stmt.depth_deferred fun stmt hstmt => ?_)
    rw [← hscript] at hstmt
    exact hstmts stmt (Section.mem_of_mem_script hstmt)
  | nil =>
    cases hlast : body.stmts.getLast? with
    | none =>
      rw [scriptedBody_of_empty (List.getLast?_eq_none_iff.mp hlast)]
      exact List.forall_mem_nil _
    | some last =>
      by_cases hthunk : last.expr.isThunk
      · rw [scriptedBody_of_thunk hscript hlast hthunk]
        exact List.forall_mem_map.mpr hdeclared
      · by_cases htext : last.expr.isTextual
        · -- the last statement goes into a thunk in its place
          rw [scriptedBody_of_text hscript hlast htext]
          refine List.forall_mem_map.mpr (List.forall_mem_append.mpr ⟨?_, ?_⟩)
          · exact fun stmt hstmt => hdeclared stmt (List.dropLast_subset _ hstmt)
          · refine List.forall_mem_singleton.mpr (Stmt.depth_deferred ?_)
            exact List.forall_mem_singleton.mpr (hstmts last (List.mem_of_getLast? hlast))
        · rw [scriptedBody_of_other hscript hlast hthunk htext]
          exact List.forall_mem_map.mpr hdeclared

end

/-! ### Definitions and trees -/

/-- The arguments of the inner call of a definition are four levels further in. -/
theorem Definition.depth_inner {d : Definition} {n : Nat} {nameLoc : Handle} {name : String}
    {inner : List Expr} (h : d.expr.depth ≤ n)
    (hinner : inner? d.args = some (nameLoc, name, inner)) :
    4 ≤ n ∧ ∀ e ∈ inner, 4 + e.depth ≤ n := by
  rw [Definition.expr, args_of_inner? hinner] at h
  obtain ⟨-, -, hargs⟩ := Expr.depth_call_le.mp h
  have hcall : (Expr.call nameLoc none name inner).depth ≤ n - 2 :=
    Nat.le_sub_of_add_le' (hargs _ List.mem_cons_self)
  obtain ⟨htwo, -, hinners⟩ := Expr.depth_call_le.mp hcall
  refine ⟨by omega, fun e he => ?_⟩
  have hle := hinners e he
  omega

/-- The first arguments of a canonical form, and its flag. -/
theorem Definition.depth_front {n : Nat} {inner : List Expr} (hfour : 4 ≤ n)
    (h : ∀ e ∈ inner, 4 + e.depth ≤ n) (loc : Handle) (name : String) :
    ∀ e ∈ withName inner (.ofText loc name), 2 + e.depth ≤ n + 1 := by
  refine forall_mem_withName (fun e he => ?_) ?_
  · have hle := h e he
    omega
  · rw [Expr.ofText, Expr.depth_literal]
    omega

/-- **A definition gets one level deeper**, at most. -/
theorem Definition.depth_canonical {d : Definition} {n : Nat} (h : d.expr.depth ≤ n)
    {before after : Progress} {call : Expr} (hrun : d.canonical.run before = (.ok call, after)) :
    call.depth ≤ n + 1 := by
  cases canonicalRun_of_run hrun with
  | @body nameLoc bodyLoc name init body hinner =>
    obtain ⟨hfour, hargs⟩ := depth_inner h hinner
    obtain ⟨hinit, hlast⟩ := List.forall_mem_append.mp hargs
    have hthunk : (Expr.thunk bodyLoc body).depth ≤ n - 4 :=
      Nat.le_sub_of_add_le' (hlast _ List.mem_cons_self)
    obtain ⟨htwo, hbody⟩ := Expr.depth_thunk_le.mp hthunk
    refine Expr.depth_call_le.mpr ⟨by omega, List.forall_mem_nil _, ?_⟩
    refine List.forall_mem_append.mpr ⟨depth_front hfour hinit nameLoc name, ?_⟩
    refine List.forall_mem_cons.mpr ⟨?_, List.forall_mem_singleton.mpr ?_⟩
    · rw [Expr.ofBool, Expr.depth_literal]
      omega
    · -- the body leaves the inner call, which is two levels, and its script gets a thunk of three
      suffices hdepth : (Expr.thunk bodyLoc
          (scriptedBody before.registry.scopes d.loc body).1.block).depth ≤ n - 1 by omega
      refine Expr.depth_thunk_le.mpr ⟨by omega, fun e he => ?_⟩
      by_cases hempty : body.stmts = []
      · rw [scriptedBody_of_empty hempty] at he
        cases he
      · obtain ⟨stmt, hstmt⟩ := List.exists_mem_of_ne_nil _ hempty
        have hseven := hbody stmt.expr (List.mem_map_of_mem hstmt)
        have hold : ∀ e ∈ body.children, e.depth ≤ n - 7 := by
          intro e he
          have hle := hbody e he
          omega
        have hle := depth_scriptedBody before.registry.scopes d.loc hold e he
        omega
  | @noBody nameLoc name inner hinner hbody =>
    obtain ⟨hfour, hargs⟩ := depth_inner h hinner
    refine Expr.depth_call_le.mpr ⟨by omega, List.forall_mem_nil _, ?_⟩
    refine List.forall_mem_append.mpr ⟨depth_front hfour hargs nameLoc name, ?_⟩
    refine List.forall_mem_singleton.mpr ?_
    rw [Expr.ofBool, Expr.depth_literal]
    omega

/-- **A tree gets one level deeper**, at most: no definition is inside another's canonical form. -/
theorem Expr.depth_of_desugar {keywords : Keywords} {e out : Expr} {n : Nat} (h : e.depth ≤ n)
    {before after : Progress} (hrun : (e.desugar keywords).run before = (.ok out, after)) :
    out.depth ≤ n + 1 := by
  refine Expr.desugar_induction (motive := fun e out _ _ => ∀ n, e.depth ≤ n → out.depth ≤ n + 1)
    ?_ ?_ hrun n h
  · intro d call _ _ hrun n h
    exact Definition.depth_canonical h hrun
  · intro e pairs _ _ _ hfst hthreaded n h
    obtain ⟨hlevels, hsteps⟩ := Expr.depth_le.mp h
    refine Expr.depth_le.mpr ⟨?_, fun step hstep => ?_⟩
    · rw [levels_withChildren]
      exact Nat.le_succ_of_le hlevels
    · -- a child is where the one was that it comes from, and at most one level deeper
      obtain ⟨pair, hpair, hold, hsnd⟩ := mem_steps_withChildren hfst hstep
      obtain ⟨_, _, ih⟩ := hthreaded.exists_step pair hpair
      have hdeep := hsteps _ hold
      have hgrown := ih pair.1.depth (Nat.le_refl _)
      rw [hsnd]
      dsimp only at hdeep
      omega

theorem Block.depth_of_desugar {keywords : Keywords} {block out : Block} {n : Nat}
    (h : ∀ e ∈ block.children, e.depth ≤ n) {before after : Progress}
    (hrun : (block.desugar keywords).run before = (.ok out, after)) :
    ∀ e ∈ out.children, e.depth ≤ n + 1 := by
  obtain ⟨pairs, hfst, rfl, hthreaded⟩ := Block.threaded_of_desugar hrun
  have hlength : (pairs.map Prod.snd).length = block.children.length := by
    rw [← hfst, List.length_map, List.length_map]
  rw [Block.children_withChildren _ _ hlength]
  refine List.forall_mem_map.mpr fun pair hpair => ?_
  obtain ⟨_, _, hstep⟩ := hthreaded.exists_step pair hpair
  refine Expr.depth_of_desugar (h pair.1 ?_) hstep
  rw [← hfst]
  exact List.mem_map_of_mem hpair

/-- **A document gets two levels deeper**, at most, from where it is read to where what becomes of
it is written. -/
theorem Interchange.depth_writeDocument_of_desugar {value : Value} {start registry : Registry}
    {document : Document} {keywords : Keywords} {before after : Progress} {out : Block}
    (hread : (documentOf value).run start = .ok (document, registry))
    (hrun : (document.body.desugar keywords).run before = (.ok out, after))
    (map : SourceMap) (source : Option String) :
    (writeDocument map source out).depth ≤ value.depth + 2 := by
  have htwo : 2 ≤ value.depth := by
    obtain ⟨fields, stmts, rfl, -, -, hstmts⟩ := documentOf_eq_ok.mp hread
    obtain ⟨values, hget, -⟩ := readBody_eq_ok.mp hstmts
    have hlt := Value.depth_lt_of_get? hget
    rw [Value.depth] at hlt
    omega
  -- three levels less for the place of a statement, and one more for arguments that are missing
  have hbody : ∀ e ∈ document.body.children, e.depth ≤ value.depth - 2 := by
    intro e he
    obtain ⟨part, hwithin, hpart⟩ := within_of_documentOf hread e he
    have hdepth := hpart.depth_le
    have hgap := hwithin.depth_le
    omega
  refine depth_writeDocument_le.mpr ⟨Nat.le_add_left 2 _, fun e he => ?_⟩
  have hout := Block.depth_of_desugar hbody hrun e he
  omega

end FlowDesugar
