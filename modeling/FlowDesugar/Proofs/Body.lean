import FlowDesugar.Proofs.Arenas
import FlowDesugar.Proofs.Children
import FlowDesugar.Proofs.Pass
import FlowDesugar.Proofs.Sections

/-!
# The body of a definition

What becomes of the statements of a definition's body: the declarations stay in their places in
canonical form (`Block.declared`), and the script is deferred to a scope of its own. The script is
looked for after the declarations have been put into canonical form. The equations
`Definition.scriptedBody_of_*` say, one for each way in which a body can end, what comes out in
terms of the statements as they were before; they rest on the canonical form of an expression being
a string, or a thunk, exactly if the expression was one.

* `Definition.canonicalizeBody_lawful` — the law of a body, in its five cases;
* `Definition.scriptedBody_problem` — a body lacks a script exactly for the reason that
  `Block.scriptProblem?` reads off its statements.
-/

namespace FlowDesugar

/-- What becomes of an expression that stands in a section. -/
def Section.rewrite (inside : Section) (e : Expr) : Expr :=
  if inside.declares then e.canonicalize inside else e

namespace Block

/-- The statements outside the script's section, each with its expression in the canonical form for
its own section. Kinds, locations and labels stay. -/
def declared (block : Block) : List Stmt :=
  (Section.retained block.stmts).map fun p => { p.2 with expr := p.1.rewrite p.2.expr }

/-- Why the body of the definition at `definition` has no script, if it has none. -/
def scriptProblem? (definition : Handle) (block : Block) : Option ScriptError :=
  if Section.script block.stmts ≠ [] then none
  else
    match block.stmts.getLast? with
    | none => some (.emptyDefinition definition)
    | some last =>
      if last.expr.isThunk ∨ last.expr.isTextual then none else some (.noScript last.loc)

end Block

/-! ### Canonical forms of strings and thunks -/

namespace Expr

/-- The canonical form of a call is a call, and nothing else changes. -/
theorem canonicalize_eq_self_or_call (inside : Section) (e : Expr) :
    e.canonicalize inside = e ∨
      (∃ loc receiver method args, e = .call loc receiver method args) ∧
      ∃ loc receiver method args, e.canonicalize inside = .call loc receiver method args := by
  cases e with
  | call loc receiver method args =>
    refine .inr ⟨⟨loc, receiver, method, args, rfl⟩, ?_⟩
    rw [canonicalize]
    split
    · exact ⟨_, _, _, _, rfl⟩
    · split <;> exact ⟨_, _, _, _, rfl⟩
  | _ => exact .inl rfl

theorem isThunk_canonicalize (inside : Section) (e : Expr) :
    (e.canonicalize inside).isThunk = e.isThunk := by
  obtain h | ⟨⟨_, _, _, _, rfl⟩, _, _, _, _, h⟩ := e.canonicalize_eq_self_or_call inside
  · rw [h]
  · rw [h]
    rfl

theorem isTextual_canonicalize (inside : Section) (e : Expr) :
    (e.canonicalize inside).isTextual = e.isTextual := by
  obtain h | ⟨⟨_, _, _, _, rfl⟩, _, _, _, _, h⟩ := e.canonicalize_eq_self_or_call inside
  · rw [h]
  · rw [h]
    rfl

/-- A string is no thunk. -/
theorem not_isThunk_of_isTextual {e : Expr} (h : e.isTextual) : ¬ e.isThunk := by
  cases e with
  | thunk loc body => cases h
  | _ => nofun

theorem canonicalize_of_isTextual {inside : Section} {e : Expr} (h : e.isTextual) :
    e.canonicalize inside = e := by
  obtain heq | ⟨⟨_, _, _, _, rfl⟩, -⟩ := e.canonicalize_eq_self_or_call inside
  · exact heq
  · cases h

end Expr

namespace Section

theorem isThunk_rewrite (inside : Section) (e : Expr) :
    (inside.rewrite e).isThunk = e.isThunk := by
  unfold rewrite
  split
  · exact e.isThunk_canonicalize inside
  · rfl

theorem isTextual_rewrite (inside : Section) (e : Expr) :
    (inside.rewrite e).isTextual = e.isTextual := by
  unfold rewrite
  split
  · exact e.isTextual_canonicalize inside
  · rfl

theorem rewrite_of_isTextual {inside : Section} {e : Expr} (h : e.isTextual) :
    inside.rewrite e = e := by
  unfold rewrite
  split
  · exact Expr.canonicalize_of_isTextual h
  · rfl

end Section

theorem Stmt.canonicalize_eq (inside : Section) (stmt : Stmt) :
    stmt.canonicalize inside = { stmt with expr := inside.rewrite stmt.expr } := by
  unfold Stmt.canonicalize Section.rewrite
  split
  · rfl
  · exact stmt.withExpr_self.symm

/-! ### The last statement -/

namespace Block

theorem declared_nil {block : Block} (h : block.stmts = []) : block.declared = [] := by
  unfold declared
  rw [h]
  rfl

/-- Without a script's section, the last statement of a block is the last of its declarations too,
with its expression in canonical form. -/
theorem getLast?_declared {block : Block} (hs : Section.script block.stmts = []) {last : Stmt}
    (hl : block.stmts.getLast? = some last) :
    ∃ inside : Section,
      block.declared.getLast? = some { last with expr := inside.rewrite last.expr } := by
  have hlast : ((Section.sectioned block.stmts).getLast?).map Prod.snd = some last := by
    rw [← List.getLast?_map, Section.map_snd_sectioned, hl]
  obtain ⟨⟨inside, stmt⟩, hsec, hstmt⟩ := Option.map_eq_some_iff.mp hlast
  obtain rfl : stmt = last := hstmt
  refine ⟨inside, ?_⟩
  unfold declared
  rw [Section.retained_of_script_nil hs, List.getLast?_map, hsec]
  rfl

end Block

/-! ### The script, in terms of the statements as they were -/

namespace Definition

/-- A body in canonical form with its script deferred, and the scopes afterwards. -/
def scriptedBody (scopes : Scopes) (definition : Handle) (block : Block) : Scripted × Scopes :=
  deferScript scopes definition { block with stmts := block.declared }
    (Section.script block.stmts)

/-- A run over a body touches the scopes alone. -/
theorem canonicalizeBody_run (definition : Handle) (block : Block) (before : Progress) :
    (canonicalizeBody definition block).run before =
      (.ok (scriptedBody before.registry.scopes definition block).1,
        { before with registry :=
          { before.registry with
            scopes := (scriptedBody before.registry.scopes definition block).2 } }) := by
  have hdeclared : canonicalizeRetained (Section.retained block.stmts) = block.declared := by
    refine List.map_congr_left fun p _ => ?_
    exact p.2.canonicalize_eq p.1
  simp only [canonicalizeBody, Section.split_eq, hdeclared]
  rfl

variable {scopes : Scopes} {definition : Handle} {block : Block}

theorem scriptedBody_of_section {first : Stmt} {rest : List Stmt}
    (hs : Section.script block.stmts = first :: rest) :
    scriptedBody scopes definition block =
      (⟨⟨block.scope, block.declared ++
          [.deferred first.loc (scopes.child block.scope).1 (first :: rest)]⟩, none⟩,
        (scopes.child block.scope).2) := by
  unfold scriptedBody
  rw [hs]
  rfl

theorem scriptedBody_of_empty (h : block.stmts = []) :
    scriptedBody scopes definition block =
      (⟨⟨block.scope, []⟩, some (.emptyDefinition definition)⟩, scopes) := by
  have hs : Section.script block.stmts = [] := by rw [h]; rfl
  unfold scriptedBody
  rw [hs, Block.declared_nil h]
  rfl

theorem scriptedBody_of_thunk (hs : Section.script block.stmts = []) {last : Stmt}
    (hl : block.stmts.getLast? = some last) (ht : last.expr.isThunk) :
    scriptedBody scopes definition block = (⟨⟨block.scope, block.declared⟩, none⟩, scopes) := by
  -- the canonical form of a thunk is a thunk, so it is found at the end of the declarations
  obtain ⟨inside, hdeclared⟩ := Block.getLast?_declared hs hl
  have hthunk : (inside.rewrite last.expr).isThunk := by rw [Section.isThunk_rewrite]; exact ht
  unfold scriptedBody deferScript
  rw [hs]
  simp only [hdeclared, hthunk, if_true]

theorem scriptedBody_of_text (hs : Section.script block.stmts = []) {last : Stmt}
    (hl : block.stmts.getLast? = some last) (ht : last.expr.isTextual) :
    scriptedBody scopes definition block =
      (⟨⟨block.scope, block.declared.dropLast ++
          [.deferred last.loc (scopes.child block.scope).1 [.plain last.loc last.expr]]⟩, none⟩,
        (scopes.child block.scope).2) := by
  obtain ⟨inside, hdeclared⟩ := Block.getLast?_declared hs hl
  -- a string has itself as its canonical form, and is no thunk
  rw [Section.rewrite_of_isTextual ht] at hdeclared
  unfold scriptedBody deferScript
  rw [hs]
  simp only [hdeclared, ht, if_true]
  rw [if_neg (Expr.not_isThunk_of_isTextual ht)]

theorem scriptedBody_of_other (hs : Section.script block.stmts = []) {last : Stmt}
    (hl : block.stmts.getLast? = some last) (hthunk : ¬ last.expr.isThunk)
    (htext : ¬ last.expr.isTextual) :
    scriptedBody scopes definition block =
      (⟨⟨block.scope, block.declared⟩, some (.noScript last.loc)⟩, scopes) := by
  obtain ⟨inside, hdeclared⟩ := Block.getLast?_declared hs hl
  unfold scriptedBody deferScript
  rw [hs]
  simp only [hdeclared]
  rw [Section.isThunk_rewrite, Section.isTextual_rewrite, if_neg hthunk, if_neg htext]

/-- A body keeps its scope. -/
theorem scriptedBody_scope (scopes : Scopes) (definition : Handle) (block : Block) :
    (scriptedBody scopes definition block).1.block.scope = block.scope := by
  unfold scriptedBody deferScript
  split
  · rfl
  · split
    · rfl
    · split
      · rfl
      · split <;> rfl

/-- **Why a body has no script** can be read off its statements as they were. -/
theorem scriptedBody_problem :
    (scriptedBody scopes definition block).1.problem = block.scriptProblem? definition := by
  unfold Block.scriptProblem?
  cases hs : Section.script block.stmts with
  | cons first rest =>
    rw [scriptedBody_of_section hs, if_pos (List.cons_ne_nil first rest)]
  | nil =>
    rw [if_neg (fun h => h rfl)]
    cases hl : block.stmts.getLast? with
    | none => rw [scriptedBody_of_empty (List.getLast?_eq_none_iff.mp hl)]
    | some last =>
      by_cases hthunk : last.expr.isThunk
      · rw [scriptedBody_of_thunk hs hl hthunk]
        exact (if_pos (.inl hthunk)).symm
      · by_cases htext : last.expr.isTextual
        · rw [scriptedBody_of_text hs hl htext]
          exact (if_pos (.inr htext)).symm
        · rw [scriptedBody_of_other hs hl hthunk htext]
          exact (if_neg fun h => h.elim hthunk htext).symm

/-! ### The law of a body -/

/-- What becomes of the body `block` of the definition at `definition`, whatever it holds. -/
structure BodyLaw (definition : Handle) (block : Block) (before : Scopes) (scripted : Scripted)
    (after : Scopes) : Prop where
  /-- The statements of the script's section go, as they are, to a thunk after the others. -/
  scriptSection : ∀ first rest, Section.script block.stmts = first :: rest →
    scripted.hasScript = true ∧
    ∃ scope, Scopes.Opened before block.scope scope after ∧
      scripted.block = ⟨block.scope, block.declared ++
        [⟨false, first.loc, none, .thunk first.loc ⟨scope, first :: rest⟩⟩]⟩
  /-- Failing that, a string at the end goes to a thunk in its place. -/
  trailingText : ∀ last, Section.script block.stmts = [] → block.stmts.getLast? = some last →
    last.expr.isTextual →
    scripted.hasScript = true ∧
    ∃ scope, Scopes.Opened before block.scope scope after ∧
      scripted.block = ⟨block.scope, block.declared.dropLast ++
        [⟨false, last.loc, none,
          .thunk last.loc ⟨scope, [⟨false, last.loc, none, last.expr⟩]⟩⟩]⟩
  /-- A thunk at the end is the script already. -/
  trailingThunk : ∀ last, Section.script block.stmts = [] → block.stmts.getLast? = some last →
    last.expr.isThunk →
    scripted.hasScript = true ∧ after = before ∧ scripted.block = ⟨block.scope, block.declared⟩
  /-- Anything else at the end is no script. -/
  otherTail : ∀ last, Section.script block.stmts = [] → block.stmts.getLast? = some last →
    ¬ last.expr.isTextual → ¬ last.expr.isThunk →
    scripted.hasScript = false ∧ scripted.problem = some (.noScript last.loc) ∧ after = before ∧
      scripted.block = ⟨block.scope, block.declared⟩
  /-- Nothing at all is no script. -/
  empty : block.stmts = [] →
    scripted.hasScript = false ∧ scripted.problem = some (.emptyDefinition definition) ∧
      after = before ∧ scripted.block = ⟨block.scope, []⟩

/-- **The law of a body.** Putting the body of a definition into canonical form loses, doubles and
reorders none of its statements: what is outside the script's section stays in order, each statement
rewritten for its own effective section, and the script is deferred as it is. -/
theorem canonicalizeBody_lawful (definition : Handle) (block : Block) (before : Progress) :
    ∃ scripted scopes,
      (canonicalizeBody definition block).run before =
        (.ok scripted, { before with registry := { before.registry with scopes } }) ∧
      BodyLaw definition block before.registry.scopes scripted scopes := by
  refine ⟨_, _, canonicalizeBody_run definition block before, ?_⟩
  -- whichever script is deferred, the one scope opened for it is a child of the block's
  have hopened := Scopes.opened_child before.registry.scopes block.scope
  constructor
  case scriptSection =>
    intro first rest hs
    rw [scriptedBody_of_section hs]
    exact ⟨rfl, _, hopened, rfl⟩
  case trailingText =>
    intro last hs hl ht
    rw [scriptedBody_of_text hs hl ht]
    exact ⟨rfl, _, hopened, rfl⟩
  case trailingThunk =>
    intro last hs hl ht
    rw [scriptedBody_of_thunk hs hl ht]
    exact ⟨rfl, rfl, rfl⟩
  case otherTail =>
    intro last hs hl htext hthunk
    rw [scriptedBody_of_other hs hl hthunk htext]
    exact ⟨rfl, rfl, rfl, rfl⟩
  case empty =>
    intro h
    rw [scriptedBody_of_empty h]
    exact ⟨rfl, rfl, rfl, rfl⟩

end Definition

end FlowDesugar
