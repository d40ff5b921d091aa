import FlowDesugar.Proofs.Blocks

/-!
# The scopes that scripts open

Putting a definition into canonical form opens at most one scope, for its script. Which definitions
do so can be read off the tree (`Definition.opensScope`), so that the scopes after a run are known
before it: `Scopes.withScripts`.

What moves between blocks is said once, by `BodyBlocks` for the body of a definition and by
`Definition.canonical_blocks` for the definition as a whole: either all blocks stay where they are,
or some of those immediately inside the body go into the new block of the script, which is then the
last one in the body. No block is lost or copied, and only the body and the new block get other
blocks inside.

`PassBlocks` says the same of a whole pass. `Expr.passBlocks_of_desugar` and
`Block.passBlocks_of_desugar` are all that is to be known about desugaring in order to tell what
becomes of blocks and scopes.
-/

namespace FlowDesugar

namespace Block

/-- The script of a body is deferred to a scope of its own: it has a section, or is a string at the
end. -/
def defersScript (block : Block) : Bool :=
  !(Section.script block.stmts).isEmpty || block.stmts.getLast?.any (·.expr.isTextual)

/-- The script of a body is deferred already: there is no section for it, and a thunk at the end. -/
def deferredAlready (block : Block) : Bool :=
  (Section.script block.stmts).isEmpty && block.stmts.getLast?.any (·.expr.isThunk)

end Block

namespace Definition

/-- The body of a definition: the block of the thunk that the inner arguments end in. -/
def body? (d : Definition) : Option Block :=
  match inner? d.args with
  | none => none
  | some (_, _, inner) =>
    match inner.getLast? with
    | some (.thunk _ body) => some body
    | _ => none

/-- Whether a scope is opened for the script of a definition. -/
def opensScope (d : Definition) : Bool :=
  d.body?.any Block.defersScript

end Definition

namespace Scopes

/-- The scopes after the script of a definition has been deferred. -/
def withScript (scopes : Scopes) (d : Definition) : Scopes :=
  match d.body? with
  | some body => if body.defersScript then (scopes.child body.scope).2 else scopes
  | none => scopes

/-- The scopes after the scripts of definitions have been deferred, one after another. -/
def withScripts (scopes : Scopes) (ds : List Definition) : Scopes :=
  ds.foldl withScript scopes

@[simp] theorem withScripts_cons (scopes : Scopes) (d : Definition) (ds : List Definition) :
    scopes.withScripts (d :: ds) = (scopes.withScript d).withScripts ds := rfl

theorem size_withScript (scopes : Scopes) (d : Definition) :
    (scopes.withScript d).size = scopes.size + if d.opensScope then 1 else 0 := by
  unfold withScript Definition.opensScope
  cases d.body? with
  | none => rfl
  | some body =>
    rw [Option.any_some]
    by_cases hdefers : body.defersScript
    · simp only [hdefers, if_true]
      exact (opened_child scopes body.scope).size_eq
    · simp only [hdefers, Bool.false_eq_true, if_false]
      rfl

/-- There are as many new scopes as definitions that open one. -/
theorem size_withScripts (scopes : Scopes) (ds : List Definition) :
    (scopes.withScripts ds).size = scopes.size + ds.countP Definition.opensScope := by
  induction ds generalizing scopes with
  | nil => rfl
  | cons d ds ih =>
    rw [withScripts_cons, ih, size_withScript, List.countP_cons]
    omega

end Scopes

/-- A script is deferred to a new scope exactly if there is one that is not deferred already. -/
theorem Block.defersScript_eq (block : Block) (definition : Handle) :
    block.defersScript
      = ((block.scriptProblem? definition).isNone && !block.deferredAlready) := by
  unfold defersScript scriptProblem? deferredAlready
  cases Section.script block.stmts with
  | cons first rest => rfl
  | nil =>
    cases block.stmts.getLast? with
    | none => rfl
    | some last =>
      by_cases htext : last.expr.isTextual
      · have hthunk := Expr.not_isThunk_of_isTextual htext
        simp [htext, hthunk]
      · by_cases hthunk : last.expr.isThunk
        · simp [htext, hthunk]
        · simp [htext, hthunk]

/-! ### The scopes of a run -/

namespace Definition

variable {d : Definition} {before after : Progress} {call : Expr}

/-- A body has its script deferred exactly if `Block.defersScript` says so. -/
theorem scriptedBody_scopes (scopes : Scopes) (definition : Handle) (block : Block) :
    (scriptedBody scopes definition block).2
      = if block.defersScript then (scopes.child block.scope).2 else scopes := by
  unfold Block.defersScript
  cases hs : Section.script block.stmts with
  | cons first rest =>
    rw [scriptedBody_of_section hs]
    rfl
  | nil =>
    cases hl : block.stmts.getLast? with
    | none =>
      rw [scriptedBody_of_empty (List.getLast?_eq_none_iff.mp hl)]
      rfl
    | some last =>
      rw [List.isEmpty_nil, Bool.not_true, Bool.false_or, Option.any_some]
      by_cases htext : last.expr.isTextual
      · rw [scriptedBody_of_text hs hl htext, if_pos htext]
      · rw [if_neg htext]
        by_cases hthunk : last.expr.isThunk
        · rw [scriptedBody_of_thunk hs hl hthunk]
        · rw [scriptedBody_of_other hs hl hthunk htext]

theorem body?_of_body {nameLoc bodyLoc : Handle} {name : String} {init : List Expr} {body : Block}
    (h : inner? d.args = some (nameLoc, name, init ++ [.thunk bodyLoc body])) :
    d.body? = some body := by
  unfold body?
  rw [h]
  simp only [List.getLast?_concat]

theorem body?_of_noBody {nameLoc : Handle} {name : String} {inner : List Expr}
    (h : inner? d.args = some (nameLoc, name, inner)) (hbody : ¬ endsInThunk inner) :
    d.body? = none := by
  unfold body?
  rw [h]
  simp only
  split
  · next bodyLoc body hlast =>
    refine absurd ?_ hbody
    unfold endsInThunk
    rw [hlast]
    rfl
  · rfl

/-- The scopes after a definition has been put into canonical form. -/
theorem scopes_of_canonical_run (h : d.canonical.run before = (.ok call, after)) :
    after.registry.scopes = before.registry.scopes.withScript d := by
  unfold Scopes.withScript
  cases canonicalRun_of_run h with
  | @body nameLoc bodyLoc name init body hinner =>
    rw [body?_of_body hinner]
    exact scriptedBody_scopes before.registry.scopes d.loc body
  | @noBody nameLoc name inner hinner hbody => rw [body?_of_noBody hinner hbody]

/-- **The scopes of a run** over definitions. -/
theorem scopes_of_run {ds : List Definition} {calls : List Expr}
    (h : (ds.mapM canonical).run before = (.ok calls, after)) :
    after.registry.scopes = before.registry.scopes.withScripts ds := by
  refine Pass.run_mapM_induction (motive := fun ds _ before after =>
    after.registry.scopes = before.registry.scopes.withScripts ds) ?_ ?_ h
  · exact fun _ => rfl
  · intro d ds call calls before middle after hd ih
    rw [ih, Scopes.withScripts_cons, scopes_of_canonical_run hd]

/-- A definition opens a scope exactly if it has a script that is not deferred already. -/
theorem opensScope_eq {name : String} (h : d.name? = some name) :
    d.opensScope = (d.problem?.isNone && !d.body?.any Block.deferredAlready) := by
  obtain ⟨⟨nameLoc, _, inner⟩, hinner, rfl⟩ := Option.map_eq_some_iff.mp h
  unfold opensScope
  by_cases hbody : endsInThunk inner
  · obtain ⟨init, bodyLoc, body, rfl⟩ := eq_append_of_endsInThunk hbody
    rw [body?_of_body hinner, problem?_of_body hinner]
    exact body.defersScript_eq d.loc
  · rw [body?_of_noBody hinner hbody, problem?_of_noBody hinner hbody]
    rfl

end Definition

/-! ### The blocks of a body -/

/-- What becomes of the body of a definition, in terms of blocks and scopes. -/
inductive BodyBlocks (scopes : Scopes) (body : Block) : Block → Scopes → Prop
  /-- All blocks stay. -/
  | stay {block : Block} : block.scope = body.scope → block.immediate = body.immediate →
    BodyBlocks scopes body block scopes
  /-- Some blocks go to a new one, which is that of the script and comes last. -/
  | defer {block : Block} {loc : Handle} {script : List Stmt} (rest : List Block) :
    block.scope = body.scope →
    block.stmts.getLast? = some (.deferred loc (scopes.child body.scope).1 script) →
    block.immediate = rest ++ [⟨(scopes.child body.scope).1, script⟩] →
    body.immediate.Perm (rest ++ Block.immediate ⟨(scopes.child body.scope).1, script⟩) →
    BodyBlocks scopes body block (scopes.child body.scope).2

namespace Block

theorem immediate_eq (block : Block) :
    block.immediate = block.stmts.flatMap fun stmt => stmt.expr.outermost := by
  rw [immediate, children, List.flatMap_map]

theorem immediate_eq_sectioned (block : Block) :
    block.immediate
      = (Section.sectioned block.stmts).flatMap fun part => part.2.expr.outermost := by
  calc block.immediate
      = ((Section.sectioned block.stmts).map Prod.snd).flatMap fun stmt => stmt.expr.outermost := by
        rw [Section.map_snd_sectioned, immediate_eq]
    _ = _ := List.flatMap_map ..

/-- Statements that go after those of a block. -/
theorem immediate_append (scope : ScopeId) (stmts stmts' : List Stmt) :
    immediate ⟨scope, stmts ++ stmts'⟩ = immediate ⟨scope, stmts⟩ ++ immediate ⟨scope, stmts'⟩ := by
  simp only [immediate_eq, List.flatMap_append]

theorem immediate_deferred (scope inner : ScopeId) (loc : Handle) (stmts : List Stmt) :
    immediate ⟨scope, [.deferred loc inner stmts]⟩ = [⟨inner, stmts⟩] := by
  rw [immediate_eq, List.flatMap_singleton]
  exact Expr.outermost_of_some rfl

/-- The declarations of a block have the blocks of the statements outside the script's section. -/
theorem immediate_declared (block : Block) (scope : ScopeId) :
    immediate ⟨scope, block.declared⟩
      = (Section.retained block.stmts).flatMap fun part => part.2.expr.outermost := by
  rw [immediate_eq, declared, List.flatMap_map]
  exact List.flatMap_congr fun part _ => part.1.outermost_rewrite part.2.expr

/-- Without a script's section, the declarations of a block have all of its blocks. -/
theorem immediate_declared_of_script_nil {block : Block} (hs : Section.script block.stmts = [])
    (scope : ScopeId) : immediate ⟨scope, block.declared⟩ = block.immediate := by
  rw [immediate_declared, Section.retained_of_script_nil hs, immediate_eq_sectioned]

/-- Taking the script out of a block splits its blocks in two. -/
theorem immediate_perm_split (block : Block) (scope : ScopeId) :
    block.immediate.Perm
      (immediate ⟨scope, block.declared⟩ ++ immediate ⟨scope, Section.script block.stmts⟩) := by
  let blocksOf : Section × Stmt → List Block := fun part => part.2.expr.outermost
  have hscript : immediate ⟨scope, Section.script block.stmts⟩
      = ((Section.sectioned block.stmts).filter fun part => !decide (part.1 ≠ .exec)).flatMap
          blocksOf := by
    rw [immediate_eq, Section.script, List.flatMap_map]
    simp [blocksOf]
  rw [immediate_eq_sectioned, immediate_declared, hscript, Section.retained, ← List.flatMap_append]
  exact (List.filter_append_perm _ _).symm.flatMap_right blocksOf

end Block

namespace Definition

variable {scopes : Scopes} {definition : Handle} {body : Block}

/-- The statements of a script's section take their blocks along. -/
theorem bodyBlocks_of_section {first : Stmt} {rest : List Stmt}
    (hs : Section.script body.stmts = first :: rest) :
    BodyBlocks scopes body (scriptedBody scopes definition body).1.block
      (scriptedBody scopes definition body).2 := by
  rw [scriptedBody_of_section hs]
  refine .defer (Block.immediate ⟨body.scope, body.declared⟩) rfl List.getLast?_concat ?_ ?_
  · rw [Block.immediate_append, Block.immediate_deferred]
  · rw [← hs]
    exact body.immediate_perm_split body.scope

/-- A string at the end takes the blocks of its interpolations along. -/
theorem bodyBlocks_of_text (hs : Section.script body.stmts = []) {last : Stmt}
    (hl : body.stmts.getLast? = some last) (ht : last.expr.isTextual) :
    BodyBlocks scopes body (scriptedBody scopes definition body).1.block
      (scriptedBody scopes definition body).2 := by
  obtain ⟨inside, hdeclared⟩ := Block.getLast?_declared hs hl
  rw [Section.rewrite_of_isTextual ht] at hdeclared
  obtain ⟨front, hfront⟩ := List.getLast?_eq_some_iff.mp hdeclared
  rw [scriptedBody_of_text hs hl ht]
  refine .defer (Block.immediate ⟨body.scope, front⟩) rfl List.getLast?_concat ?_ ?_
  · rw [hfront, List.dropLast_concat, Block.immediate_append, Block.immediate_deferred]
  · -- the string stands last among the declarations, as it is
    rw [← Block.immediate_declared_of_script_nil hs body.scope, hfront, Block.immediate_append]
    exact .refl _

/-- **The blocks of a body** stay, or some go to that of the script. -/
theorem bodyBlocks_scriptedBody (scopes : Scopes) (definition : Handle) (body : Block) :
    BodyBlocks scopes body (scriptedBody scopes definition body).1.block
      (scriptedBody scopes definition body).2 := by
  cases hs : Section.script body.stmts with
  | cons first rest => exact bodyBlocks_of_section hs
  | nil =>
    have hstay := Block.immediate_declared_of_script_nil hs body.scope
    cases hl : body.stmts.getLast? with
    | none =>
      have hempty := List.getLast?_eq_none_iff.mp hl
      rw [Block.declared_nil hempty] at hstay
      rw [scriptedBody_of_empty hempty]
      exact .stay rfl hstay
    | some last =>
      by_cases htext : last.expr.isTextual
      · exact bodyBlocks_of_text hs hl htext
      · by_cases hthunk : last.expr.isThunk
        · rw [scriptedBody_of_thunk hs hl hthunk]
          exact .stay rfl hstay
        · rw [scriptedBody_of_other hs hl hthunk htext]
          exact .stay rfl hstay

/-! ### The blocks of a definition -/

variable {d : Definition} {before after : Progress} {call : Expr}

theorem outermost_withName (args : List Expr) (nameLoc : Handle) (name : String) :
    (withName args (.ofText nameLoc name)).flatMap Expr.outermost
      = args.flatMap Expr.outermost := by
  unfold withName
  rw [List.flatMap_append, List.flatMap_cons, Expr.outermost_ofText, List.nil_append,
    ← List.flatMap_append, List.take_append_drop]

/-- A call without a receiver has the blocks of its arguments. -/
theorem outermost_call (loc : Handle) (method : String) (args : List Expr) :
    (Expr.call loc none method args).outermost = args.flatMap Expr.outermost :=
  Expr.outermost_of_none rfl

theorem outermost_expr {nameLoc : Handle} {name : String} {inner : List Expr}
    (h : inner? d.args = some (nameLoc, name, inner)) :
    d.expr.outermost = inner.flatMap Expr.outermost := by
  unfold expr
  rw [outermost_call, args_of_inner? h, List.flatMap_singleton, outermost_call]

/-- **The blocks of a definition.** Its canonical form has the outermost blocks of the definition in
the same order; only the body, which is the last of them, may be changed. -/
theorem canonical_blocks (h : d.canonical.run before = (.ok call, after)) :
    (call.outermost = d.expr.outermost ∧ after.registry.scopes = before.registry.scopes) ∨
      ∃ front body block, d.expr.outermost = front ++ [body] ∧ call.outermost = front ++ [block] ∧
        BodyBlocks before.registry.scopes body block after.registry.scopes := by
  cases canonicalRun_of_run h with
  | @body nameLoc bodyLoc name init body hinner =>
    refine .inr ⟨init.flatMap Expr.outermost, body, _, ?_, ?_,
      bodyBlocks_scriptedBody before.registry.scopes d.loc body⟩
    · rw [outermost_expr hinner, List.flatMap_append, List.flatMap_singleton,
        Expr.outermost_of_some rfl]
    · rw [outermost_call, List.flatMap_append, outermost_withName, List.flatMap_cons,
        Expr.outermost_ofBool, List.nil_append, List.flatMap_singleton, Expr.outermost_of_some rfl]
  | @noBody nameLoc name inner hinner hbody =>
    refine .inl ⟨?_, rfl⟩
    rw [outermost_call, List.flatMap_append, outermost_withName, List.flatMap_singleton,
      Expr.outermost_ofBool, List.append_nil, outermost_expr hinner]

end Definition

/-! ### The blocks of a pass -/

/-- What a pass does to blocks: the blocks of the first list become those of the second, while the
arena goes from the first to the second. -/
inductive PassBlocks : List Block → List Block → Scopes → Scopes → Prop
  | stay (blocks : List Block) (scopes : Scopes) : PassBlocks blocks blocks scopes scopes
  | append {olds olds' news news' : List Block} {before middle after : Scopes} :
    PassBlocks olds news before middle → PassBlocks olds' news' middle after →
    PassBlocks (olds ++ olds') (news ++ news') before after
  /-- The body of a definition. -/
  | body {body block : Block} {before after : Scopes} : BodyBlocks before body block after →
    PassBlocks [body] [block] before after
  /-- A block that is no such body keeps its scope, and the pass goes on inside it. -/
  | around {old new : Block} {before after : Scopes} : new.scope = old.scope →
    PassBlocks old.immediate new.immediate before after → PassBlocks [old] [new] before after

variable {keywords : Keywords} {before after : Progress}

theorem Definition.passBlocks_of_canonical_run {d : Definition} {call : Expr}
    (h : d.canonical.run before = (.ok call, after)) :
    PassBlocks d.expr.outermost call.outermost before.registry.scopes after.registry.scopes := by
  obtain ⟨hsame, hscopes⟩ | ⟨front, body, block, hold, hnew, hbody⟩ := canonical_blocks h
  · rw [hsame, hscopes]
    exact .stay _ _
  · rw [hold, hnew]
    exact .append (.stay front _) (.body hbody)

/-- Expressions, one after another. -/
theorem PassBlocks.flatMap {pairs : List (Expr × Expr)}
    (h : Threaded (fun pair before after => PassBlocks pair.1.outermost pair.2.outermost
      before.registry.scopes after.registry.scopes) pairs before after) :
    PassBlocks ((pairs.map Prod.fst).flatMap Expr.outermost)
      ((pairs.map Prod.snd).flatMap Expr.outermost)
      before.registry.scopes after.registry.scopes := by
  induction h with
  | nil progress => exact .stay [] _
  | cons hfirst _ ih =>
    simp only [List.map_cons, List.flatMap_cons]
    exact .append hfirst ih

/-- **The blocks of an expression** in a pass. -/
theorem Expr.passBlocks_of_desugar {e out : Expr}
    (h : (e.desugar keywords).run before = (.ok out, after)) :
    PassBlocks e.outermost out.outermost before.registry.scopes after.registry.scopes := by
  refine Expr.desugar_induction (motive := fun e out before after =>
    PassBlocks e.outermost out.outermost before.registry.scopes after.registry.scopes)
    Definition.passBlocks_of_canonical_run ?_ h
  intro e pairs before after _ hchildren hthreaded
  have hlength : (pairs.map Prod.snd).length = e.children.length := by
    rw [← hchildren, List.length_map, List.length_map]
  have hpairs := PassBlocks.flatMap hthreaded
  rw [hchildren] at hpairs
  cases hbody : e.body? with
  | none =>
    rw [outermost_of_none hbody, outermost_withChildren_of_none hbody hlength]
    exact hpairs
  | some body =>
    -- the children are those of the body, and what they become goes back into it
    rw [children_of_some hbody] at hpairs hlength
    rw [outermost_of_some hbody, outermost_of_some (body?_withChildren_of_some hbody _)]
    refine .around rfl ?_
    rw [Block.immediate_withChildren hlength]
    exact hpairs

/-- **The blocks of a block** in a pass. -/
theorem Block.passBlocks_of_desugar {block out : Block}
    (h : (block.desugar keywords).run before = (.ok out, after)) :
    out.scope = block.scope ∧
      PassBlocks block.immediate out.immediate before.registry.scopes after.registry.scopes := by
  obtain ⟨pairs, hchildren, rfl, hthreaded⟩ := Block.threaded_of_desugar h
  have hlength : (pairs.map Prod.snd).length = block.children.length := by
    rw [← hchildren, List.length_map, List.length_map]
  have hpairs := PassBlocks.flatMap
    (hthreaded.imp fun _ _ _ _ hstep => Expr.passBlocks_of_desugar hstep)
  rw [hchildren] at hpairs
  refine ⟨rfl, ?_⟩
  rw [Block.immediate_withChildren hlength]
  exact hpairs

end FlowDesugar
