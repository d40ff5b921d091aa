import FlowDesugar.Proofs.Body
import FlowDesugar.Proofs.Links

/-!
# A body is rewritten once

A body in canonical form is left alone: rewriting it again gives the same body, with the same
account of its script, and opens no scope. Two things are behind that. The canonical form of a
declaration is its own canonical form, since the table has no rule for a name that it gives out, or
one that changes nothing any more. And the statements that stay in a body are found in the same
sections again, with the deferred script, which has no label, under whatever label came last.

* `Expr.canonicalize_canonicalize` — for declarations;
* `Section.IsCanonical` — statements that rewriting leaves alone, none of them in the script's
  section;
* `Block.IsFinal` — a body that rewriting leaves alone. Rewriting makes such bodies
  (`Definition.isFinal_scriptedBody`) and changes none (`Block.IsFinal.scriptedBody_eq`);
* `Definition.canonicalizeBody_stable` — what this comes to for a pass.
-/

namespace FlowDesugar

/-! ### Declarations -/

/-- There is no rule for a canonical name, except where it is the name of the method itself and the
rule only takes the identifier out. -/
theorem Rule.find?_canonical {inside : Section} {method : String} {rule : Rule}
    (h : find? inside method = some rule) :
    find? inside rule.canonical = none ∨
      rule.canonical = method ∧ rule.treatment = .encode .name .first := by
  have htable : ∀ rule ∈ all, find? rule.inside rule.canonical = none ∨
      rule.canonical = rule.method ∧ rule.treatment = .encode .name .first := by decide
  have hrule := htable rule (mem_all_of_find? h)
  rw [inside_of_find? h, method_of_find? h] at hrule
  exact hrule

/-- A first argument that has been replaced by its name stays. -/
theorem Encoding.applyAt_name_twice (args : List Expr) :
    Encoding.name.applyAt 0 (Encoding.name.applyAt 0 args) = Encoding.name.applyAt 0 args := by
  cases args with
  | nil => rfl
  | cons arg args => cases arg <;> rfl

theorem Link.canonicalize_canonicalize (inside : Section) (link : Link) :
    (link.canonicalize inside).canonicalize inside = link.canonicalize inside := by
  cases hrule : Rule.find? inside link.method with
  | none => rw [canonicalize_of_none hrule, canonicalize_of_none hrule]
  | some rule =>
    rw [canonicalize_of_some hrule]
    obtain hnone | ⟨hname, htreatment⟩ := Rule.find?_canonical hrule
    · exact canonicalize_of_none hnone
    · have hagain : Rule.find? inside rule.canonical = some rule := by rw [hname, hrule]
      rw [canonicalize_of_some hagain, Rule.canonicalArgs_of_encode htreatment,
        Rule.canonicalArgs_of_encode htreatment]
      exact congrArg (Link.mk _ _) (Encoding.applyAt_name_twice link.args)

/-- **A canonical form is its own canonical form.** -/
theorem Expr.canonicalize_canonicalize (inside : Section) (e : Expr) :
    (e.canonicalize inside).canonicalize inside = e.canonicalize inside := by
  induction e using inductionOnChildren with
  | node e ih =>
    cases e with
    | call loc receiver method args =>
      have hreceiver : (receiver.map (canonicalize inside)).map (canonicalize inside)
          = receiver.map (canonicalize inside) := by
        cases receiver with
        | none => rfl
        | some receiver => exact congrArg some (ih receiver List.mem_cons_self)
      -- the call at hand is the canonical link, with the location it had
      have hlink := Link.canonicalize_canonicalize inside ⟨loc, method, args⟩
      have hloc := Link.loc_canonicalize inside ⟨loc, method, args⟩
      rw [canonicalize_call, canonicalize_call, hreceiver]
      generalize Link.canonicalize inside ⟨loc, method, args⟩ = link at hlink hloc
      obtain rfl : link.loc = loc := hloc
      rw [show Link.mk link.loc link.method link.args = link from rfl, hlink]
    | _ => rfl

namespace Section

theorem rewrite_rewrite (inside : Section) (e : Expr) :
    inside.rewrite (inside.rewrite e) = inside.rewrite e := by
  unfold rewrite
  split
  · exact e.canonicalize_canonicalize inside
  · rfl

theorem rewrite_of_isThunk {inside : Section} {e : Expr} (h : e.isThunk) :
    inside.rewrite e = e := by
  cases e with
  | thunk loc body =>
    unfold rewrite
    split <;> rfl
  | _ => cases h

/-! ### Statements -/

/-- No statement is in the script's section, and the declarations are in canonical form. -/
def IsCanonical (stmts : List Stmt) : Prop :=
  ∀ part ∈ sectioned stmts, part.1 ≠ exec ∧ part.1.rewrite part.2.expr = part.2.expr

namespace IsCanonical

variable {stmts : List Stmt}

theorem script_eq_nil (h : IsCanonical stmts) : script stmts = [] := by
  rw [script, List.map_eq_nil_iff, List.filter_eq_nil_iff]
  intro part hpart
  simpa using (h part hpart).1

/-- The statements before the last one. -/
theorem of_concat {stmt : Stmt} (h : IsCanonical (stmts ++ [stmt])) : IsCanonical stmts := by
  intro part hpart
  apply h part
  rw [sectioned_concat]
  exact List.mem_append_left _ hpart

/-- A thunk without a label can be added: it joins the section that came last, which is not the
script's, and is in canonical form in any. -/
theorem concat_thunk (h : IsCanonical stmts) {stmt : Stmt} (hlabel : stmt.label = none)
    (hthunk : stmt.expr.isThunk) : IsCanonical (stmts ++ [stmt]) := by
  have hlast : stmts.foldl advance plain ≠ exec := by
    obtain heq | hmem := List.mem_cons.mp (foldl_advance_mem plain stmts)
    · rw [heq]
      nofun
    · rw [← assign, ← map_fst_sectioned] at hmem
      obtain ⟨part, hpart, hsection⟩ := List.mem_map.mp hmem
      rw [← hsection]
      exact (h part hpart).1
  have hadvance : (stmts.foldl advance plain).advance stmt = stmts.foldl advance plain := by
    unfold advance
    rw [hlabel]
  intro part hpart
  rw [sectioned_concat, hadvance] at hpart
  obtain hold | hnew := List.mem_append.mp hpart
  · exact h part hold
  · obtain rfl := List.mem_singleton.mp hnew
    exact ⟨hlast, rewrite_of_isThunk hthunk⟩

end IsCanonical

end Section

namespace Block

/-- The declarations of a block stay in the sections they were in. -/
theorem sectioned_declared (block : Block) :
    Section.sectioned block.declared = (Section.retained block.stmts).map fun p =>
      (p.1, { p.2 with expr := p.1.rewrite p.2.expr }) := by
  have hlabels : block.declared.map Stmt.label
      = ((Section.retained block.stmts).map Prod.snd).map Stmt.label := by
    unfold declared
    rw [List.map_map, List.map_map]
    rfl
  have hassign : Section.assign block.declared = (Section.retained block.stmts).map Prod.fst :=
    (Section.assignFrom_congr .plain hlabels).trans (Section.assign_retained block.stmts)
  rw [Section.sectioned_eq_zip, hassign, declared, List.zip_map']

theorem isCanonical_declared (block : Block) : Section.IsCanonical block.declared := by
  intro part hpart
  rw [sectioned_declared] at hpart
  obtain ⟨p, hp, rfl⟩ := List.mem_map.mp hpart
  refine ⟨?_, Section.rewrite_rewrite p.1 p.2.expr⟩
  simpa using (List.mem_filter.mp hp).2

theorem declared_of_isCanonical {block : Block} (h : Section.IsCanonical block.stmts) :
    block.declared = block.stmts := by
  unfold declared
  rw [Section.retained_of_script_nil h.script_eq_nil]
  calc (Section.sectioned block.stmts).map fun p => { p.2 with expr := p.1.rewrite p.2.expr }
    _ = (Section.sectioned block.stmts).map Prod.snd := by
        refine List.map_congr_left fun part hpart => ?_
        rw [(h part hpart).2]
        exact part.2.withExpr_self
    _ = block.stmts := Section.map_snd_sectioned block.stmts

/-! ### Bodies -/

/-- The block of a definition has been rewritten: its statements are in canonical form, and the last
of them is no script that is still to be deferred. -/
structure IsFinal (block : Block) : Prop where
  canonical : Section.IsCanonical block.stmts
  deferred : ∀ last, block.stmts.getLast? = some last → ¬ last.expr.isTextual

section Final

variable {block : Block} {last : Stmt}

/-- Statements in canonical form that end in a thunk are final, and have a script. -/
theorem isFinal_of_thunk (definition : Handle) (h : Section.IsCanonical block.stmts)
    (hl : block.stmts.getLast? = some last) (hthunk : last.expr.isThunk) :
    block.IsFinal ∧ block.scriptProblem? definition = none := by
  constructor
  · refine ⟨h, fun other hother htext => ?_⟩
    obtain rfl : last = other := Option.some.inj (hl.symm.trans hother)
    exact Expr.not_isThunk_of_isTextual htext hthunk
  · unfold scriptProblem?
    rw [h.script_eq_nil, if_neg (fun hne => hne rfl), hl]
    exact if_pos (.inl hthunk)

/-- If they end in anything but a thunk or a string they are final, and have no script. -/
theorem isFinal_of_other (block : Block) (definition : Handle)
    (h : Section.IsCanonical block.stmts) (hl : block.stmts.getLast? = some last)
    (hthunk : ¬ last.expr.isThunk) (htext : ¬ last.expr.isTextual) :
    block.IsFinal ∧ block.scriptProblem? definition = some (.noScript last.loc) := by
  constructor
  · refine ⟨h, fun other hother => ?_⟩
    obtain rfl : last = other := Option.some.inj (hl.symm.trans hother)
    exact htext
  · unfold scriptProblem?
    rw [h.script_eq_nil, if_neg (fun hne => hne rfl), hl]
    exact if_neg fun hor => hor.elim hthunk htext

/-- **A final body is left alone.** -/
theorem IsFinal.scriptedBody_eq (h : block.IsFinal) (scopes : Scopes) (definition : Handle) :
    Definition.scriptedBody scopes definition block
      = (⟨block, block.scriptProblem? definition⟩, scopes) := by
  have hscript : Section.script block.stmts = [] := h.canonical.script_eq_nil
  have hdeclared : block.declared = block.stmts := declared_of_isCanonical h.canonical
  have hproblem : block.scriptProblem? definition
      = (Definition.scriptedBody scopes definition block).1.problem :=
    Definition.scriptedBody_problem.symm
  have hblock : ⟨block.scope, block.stmts⟩ = block := by
    cases block
    rfl
  rw [hproblem]
  cases hl : block.stmts.getLast? with
  | none =>
    have hnil : block.stmts = [] := List.getLast?_eq_none_iff.mp hl
    rw [Definition.scriptedBody_of_empty hnil, ← hnil, hblock]
  | some last =>
    by_cases hthunk : last.expr.isThunk
    · rw [Definition.scriptedBody_of_thunk hscript hl hthunk, hdeclared, hblock]
    · have htext := h.deferred last hl
      rw [Definition.scriptedBody_of_other hscript hl hthunk htext, hdeclared, hblock]

end Final

end Block

/-- **Rewriting makes a body final**, and its script is accounted for as before. -/
theorem Definition.isFinal_scriptedBody (scopes : Scopes) (definition : Handle) (block : Block) :
    (scriptedBody scopes definition block).1.block.IsFinal ∧
      (scriptedBody scopes definition block).1.block.scriptProblem? definition
        = (scriptedBody scopes definition block).1.problem := by
  have hcanonical := block.isCanonical_declared
  cases hs : Section.script block.stmts with
  | cons first rest =>
    -- the script's section has become a thunk behind the declarations
    rw [scriptedBody_of_section hs]
    exact Block.isFinal_of_thunk definition (hcanonical.concat_thunk rfl rfl)
      List.getLast?_concat rfl
  | nil =>
    cases hl : block.stmts.getLast? with
    | none =>
      rw [scriptedBody_of_empty (List.getLast?_eq_none_iff.mp hl)]
      exact ⟨⟨List.forall_mem_nil _, fun _ h => nomatch h⟩, rfl⟩
    | some last =>
      obtain ⟨inside, hlast⟩ := Block.getLast?_declared hs hl
      by_cases hthunk : last.expr.isThunk
      · rw [scriptedBody_of_thunk hs hl hthunk]
        exact Block.isFinal_of_thunk definition hcanonical hlast
          ((Section.isThunk_rewrite inside last.expr).trans hthunk)
      · by_cases htext : last.expr.isTextual
        · -- a thunk takes the place of the string, and the label of that statement is gone
          have hinit : Section.IsCanonical block.declared.dropLast := by
            obtain ⟨init, heq⟩ := List.getLast?_eq_some_iff.mp hlast
            rw [heq] at hcanonical ⊢
            rw [List.dropLast_concat]
            exact hcanonical.of_concat
          rw [scriptedBody_of_text hs hl htext]
          exact Block.isFinal_of_thunk definition (hinit.concat_thunk rfl rfl)
            List.getLast?_concat rfl
        · have hother := Block.isFinal_of_other ⟨block.scope, block.declared⟩ definition hcanonical
            hlast (by rwa [Section.isThunk_rewrite]) (by rwa [Section.isTextual_rewrite])
          rw [scriptedBody_of_other hs hl hthunk htext]
          exact hother

/-- **Rewriting a body twice is rewriting it once.** Whatever the block, the second time gives the
same block with the same account of its script, and leaves everything else as it is: no scope is
opened. -/
theorem Definition.canonicalizeBody_stable (definition : Handle) (block : Block)
    (before : Progress) :
    ∃ scripted after,
      (canonicalizeBody definition block).run before = (.ok scripted, after) ∧
      ∀ later, (canonicalizeBody definition scripted.block).run later = (.ok scripted, later) := by
  refine ⟨_, _, canonicalizeBody_run definition block before, fun later => ?_⟩
  obtain ⟨hfinal, hproblem⟩ := isFinal_scriptedBody before.registry.scopes definition block
  rw [canonicalizeBody_run, hfinal.scriptedBody_eq, hproblem]

end FlowDesugar
