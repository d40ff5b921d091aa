import FlowDesugar.Proofs.Relocated

/-!
# The result of a pass, without the pass

What a pass makes of a tree can be written down from the tree alone, but for two things: the handle
that a script flag gets and the scope that a script is deferred to. Both are numbers that depend on
how much has been minted and opened before. `Definition.canonicalAt` takes them as arguments, and
`Definition.canonicalsAt` and `Block.canonicalAt` take a supply of them.

* `Block.desugar_closed` — a pass that has a result gives the tree with these canonical forms filled
  in, where the supply starts at the sizes of the source map and of the arena. The records and the
  reports are read off the definitions in the same way (`RunLaw`);
* `Block.desugar_succeeds_iff` — it has a result exactly if the definitions are well-formed;
* `Block.canonicalAt_relocate` — canonical forms commute with relocation, so that two passes can be
  compared whose handles and scopes are different.
-/

namespace FlowDesugar

/-! ### Bodies -/

namespace Block

/-- A body in canonical form, with its script deferred to `scope`. -/
def scriptedIn (scope : ScopeId) (block : Block) : Block :=
  match Section.script block.stmts with
  | first :: rest =>
    ⟨block.scope, block.declared ++ [.deferred first.loc scope (first :: rest)]⟩
  | [] =>
    match block.stmts.getLast? with
    | some last =>
      if last.expr.isTextual then
        ⟨block.scope,
          block.declared.dropLast ++ [.deferred last.loc scope [.plain last.loc last.expr]]⟩
      else ⟨block.scope, block.declared⟩
    | none => ⟨block.scope, block.declared⟩

variable {block : Block} {scope : ScopeId}

theorem scriptedIn_of_section {first : Stmt} {rest : List Stmt}
    (hs : Section.script block.stmts = first :: rest) :
    block.scriptedIn scope
      = ⟨block.scope, block.declared ++ [.deferred first.loc scope (first :: rest)]⟩ := by
  rw [scriptedIn, hs]

theorem scriptedIn_of_text (hs : Section.script block.stmts = []) {last : Stmt}
    (hl : block.stmts.getLast? = some last) (ht : last.expr.isTextual) :
    block.scriptedIn scope
      = ⟨block.scope,
          block.declared.dropLast ++ [.deferred last.loc scope [.plain last.loc last.expr]]⟩ := by
  rw [scriptedIn, hs, hl]
  exact if_pos ht

/-- A body that does not defer a script keeps its statements. -/
theorem scriptedIn_of_kept (h : ¬ block.defersScript) :
    block.scriptedIn scope = ⟨block.scope, block.declared⟩ := by
  unfold defersScript at h
  unfold scriptedIn
  cases hs : Section.script block.stmts with
  | cons first rest =>
    rw [hs] at h
    exact absurd rfl h
  | nil =>
    cases hl : block.stmts.getLast? with
    | none => rfl
    | some last =>
      rw [hs, hl] at h
      exact if_neg h

end Block

namespace Definition

/-- The block that a pass makes of a body, in the scope that is opened next. -/
theorem scriptedBody_block (scopes : Scopes) (definition : Handle) (block : Block) :
    (scriptedBody scopes definition block).1.block = block.scriptedIn ⟨scopes.size⟩ := by
  cases hs : Section.script block.stmts with
  | cons first rest =>
    rw [scriptedBody_of_section hs, Block.scriptedIn_of_section hs]
    rfl
  | nil =>
    cases hl : block.stmts.getLast? with
    | none =>
      have hempty := List.getLast?_eq_none_iff.mp hl
      rw [scriptedBody_of_empty hempty, Block.scriptedIn, hs, hl, Block.declared_nil hempty]
    | some last =>
      by_cases htext : last.expr.isTextual
      · rw [scriptedBody_of_text hs hl htext, Block.scriptedIn_of_text hs hl htext]
        rfl
      · have hkept : ¬ block.defersScript := by
          unfold Block.defersScript
          rw [hs, hl]
          exact htext
        rw [Block.scriptedIn_of_kept hkept]
        by_cases hthunk : last.expr.isThunk
        · rw [scriptedBody_of_thunk hs hl hthunk]
        · rw [scriptedBody_of_other hs hl hthunk htext]

/-! ### Definitions -/

/-- The arguments of the canonical form of a definition. -/
def canonicalArgs (flag : Handle) (scope : ScopeId) (d : Definition) : List Expr :=
  match inner? d.args with
  | none => d.args
  | some (nameLoc, name, inner) =>
    match inner.getLast? with
    | some (.thunk bodyLoc body) =>
      withName inner.dropLast (.ofText nameLoc name)
        ++ [.ofBool flag d.problem?.isNone, .thunk bodyLoc (body.scriptedIn scope)]
    | _ => withName inner (.ofText nameLoc name) ++ [.ofBool flag d.problem?.isNone]

/-- The canonical form of a definition, whose script flag has the handle `flag` and whose script, if
it is deferred, stands in `scope`. -/
def canonicalAt (flag : Handle) (scope : ScopeId) (d : Definition) : Definition :=
  { d with args := d.canonicalArgs flag scope }

/-- The canonical forms of definitions, each with the next handle and, if it needs one, the next
scope of a supply. -/
def canonicalsAt (flag : Nat → Handle) (scope : Nat → ScopeId) :
    List Definition → List Definition
  | [] => []
  | d :: ds =>
    let opened := if d.opensScope then 1 else 0
    d.canonicalAt (flag 0) (scope 0)
      :: canonicalsAt (fun i => flag (i + 1)) (fun i => scope (i + opened)) ds

/-- The record of a definition. -/
def summary? (d : Definition) : Option DefinitionSummary :=
  d.name?.map fun name => ⟨d.keyword, name, d.loc, d.problem?.isNone⟩

/-- The reports of definitions, each with the positions that are known when a pass comes to it. -/
def reportsFrom (map : SourceMap) : List Definition → List Report
  | [] => []
  | d :: ds => (d.problem?.map (Report.ofProblem map)).toList ++ reportsFrom (map.withFlag d.loc) ds

variable {d : Definition} {flag : Handle} {scope : ScopeId}

theorem summary?_of_name? {name : String} (h : d.name? = some name) :
    d.summary? = some ⟨d.keyword, name, d.loc, d.problem?.isNone⟩ := by
  unfold summary?
  rw [h]
  rfl

theorem canonicalArgs_of_body {nameLoc bodyLoc : Handle} {name : String} {init : List Expr}
    {body : Block} (h : inner? d.args = some (nameLoc, name, init ++ [.thunk bodyLoc body])) :
    d.canonicalArgs flag scope = withName init (.ofText nameLoc name)
      ++ [.ofBool flag d.problem?.isNone, .thunk bodyLoc (body.scriptedIn scope)] := by
  unfold canonicalArgs
  rw [h]
  simp only [List.getLast?_concat, List.dropLast_concat]

theorem canonicalArgs_of_noBody {nameLoc : Handle} {name : String} {inner : List Expr}
    (h : inner? d.args = some (nameLoc, name, inner)) (hbody : ¬ endsInThunk inner) :
    d.canonicalArgs flag scope
      = withName inner (.ofText nameLoc name) ++ [.ofBool flag d.problem?.isNone] := by
  unfold canonicalArgs
  rw [h]
  simp only
  split
  · next bodyLoc body hlast =>
    refine absurd ?_ hbody
    unfold endsInThunk
    rw [hlast]
    rfl
  · rfl

/-- What a pass makes of a definition is its canonical form, at the next handle and scope. -/
theorem call_of_canonical_run {before after : Progress} {call : Expr}
    (h : d.canonical.run before = (.ok call, after)) :
    call = (d.canonicalAt (.entry before.registry.sourceMap.size)
      ⟨before.registry.scopes.size⟩).expr := by
  unfold canonicalAt expr
  cases canonicalRun_of_run h with
  | @body nameLoc bodyLoc name init body hinner =>
    have hflag : (scriptedBody before.registry.scopes d.loc body).1.hasScript
        = d.problem?.isNone := by
      unfold Scripted.hasScript
      rw [scriptedBody_problem, problem?_of_body hinner]
    rw [canonicalArgs_of_body hinner, hflag, scriptedBody_block]
  | @noBody nameLoc name inner hinner hbody =>
    rw [canonicalArgs_of_noBody hinner hbody, problem?_of_noBody hinner hbody]
    rfl

/-! ### Runs -/

/-- What a run over definitions leaves, in terms of the definitions alone. -/
structure RunLaw (ds : List Definition) (calls : List Expr) (before after : Progress) : Prop where
  calls_eq : calls = (canonicalsAt (fun i => .entry (before.registry.sourceMap.size + i))
    (fun i => ⟨before.registry.scopes.size + i⟩) ds).map expr
  sourceMap_eq : after.registry.sourceMap = before.registry.sourceMap.withFlags ds
  records_eq : after.records = before.records ++ ds.filterMap summary?
  reports_eq : after.reports = before.reports ++ reportsFrom before.registry.sourceMap ds

theorem RunLaw.nil (progress : Progress) : RunLaw [] [] progress progress where
  calls_eq := rfl
  sourceMap_eq := rfl
  records_eq := (List.append_nil _).symm
  reports_eq := (List.append_nil _).symm

/-- One more definition at the start of a run. -/
theorem RunLaw.cons {ds : List Definition} {call : Expr} {calls : List Expr}
    {before middle after : Progress} (hd : d.canonical.run before = (.ok call, middle))
    (h : RunLaw ds calls middle after) : RunLaw (d :: ds) (call :: calls) before after := by
  obtain ⟨hmap, hreports, ⟨name, hname, hrecords⟩, -⟩ := step_of_canonical_run hd
  have hscopes := scopes_of_canonical_run hd
  constructor
  case calls_eq =>
    -- the run goes on with one handle more, and one scope more if the definition opened one
    have hsize : middle.registry.sourceMap.size = before.registry.sourceMap.size + 1 := by
      rw [hmap]
      exact SourceMap.size_mint _ _
    rw [call_of_canonical_run hd, h.calls_eq, canonicalsAt, List.map_cons, hsize, hscopes,
      Scopes.size_withScript]
    simp only [Nat.add_zero, Nat.add_assoc, Nat.add_comm 1, Nat.add_comm (if _ then 1 else 0)]
  case sourceMap_eq => rw [h.sourceMap_eq, hmap, SourceMap.withFlags_cons]
  case records_eq =>
    rw [h.records_eq, hrecords, List.filterMap_cons_some (summary?_of_name? hname),
      List.append_assoc]
    rfl
  case reports_eq => rw [h.reports_eq, hreports, hmap, reportsFrom, List.append_assoc]

theorem runLaw_of_run {ds : List Definition} {calls : List Expr} {before after : Progress}
    (h : (ds.mapM canonical).run before = (.ok calls, after)) : RunLaw ds calls before after := by
  refine Pass.run_mapM_induction (motive := RunLaw) ?_ ?_ h
  · exact RunLaw.nil
  · intro d ds call calls before middle after hd hds
    exact hds.cons hd

end Definition

open Definition

/-- The canonical form of a tree: its topmost definitions in theirs, with a supply of handles and
scopes. -/
def Block.canonicalAt (keywords : Keywords) (flag : Nat → Handle) (scope : Nat → ScopeId)
    (block : Block) : Block :=
  block.fill keywords ((canonicalsAt flag scope (block.definitions keywords)).map expr)

/-- **A pass in closed form.** -/
theorem Block.desugar_closed {keywords : Keywords} {block out : Block} {before after : Progress}
    (h : (block.desugar keywords).run before = (.ok out, after)) :
    ∃ calls, out = block.fill keywords calls ∧
      RunLaw (block.definitions keywords) calls before after := by
  rw [Block.desugar_eq, Pass.run_map_eq_ok] at h
  obtain ⟨calls, hrun, rfl⟩ := h
  exact ⟨calls, rfl, runLaw_of_run hrun⟩

theorem Block.eq_canonicalAt_of_desugar {keywords : Keywords} {block out : Block}
    {before after : Progress} (h : (block.desugar keywords).run before = (.ok out, after)) :
    out = block.canonicalAt keywords (fun i => .entry (before.registry.sourceMap.size + i))
      (fun i => ⟨before.registry.scopes.size + i⟩) := by
  obtain ⟨calls, rfl, hlaw⟩ := desugar_closed h
  rw [hlaw.calls_eq]
  rfl

/-- A pass has a result exactly if all topmost definitions are well-formed. -/
theorem Block.desugar_succeeds_iff (keywords : Keywords) (block : Block) (before : Progress) :
    (∃ out after, (block.desugar keywords).run before = (.ok out, after)) ↔
      ∀ d ∈ block.definitions keywords, d.WellFormed := by
  constructor
  · rintro ⟨out, after, h⟩
    rw [Block.desugar_eq, Pass.run_map_eq_ok] at h
    obtain ⟨calls, hrun, -⟩ := h
    exact wellFormed_of_run hrun
  · intro hwell
    rcases hrun : ((block.definitions keywords).mapM canonical).run before with ⟨result, after⟩
    cases result with
    | ok calls =>
      refine ⟨block.fill keywords calls, after, ?_⟩
      rw [Block.desugar_eq, Pass.run_map_eq_ok]
      exact ⟨calls, hrun, rfl⟩
    | error error =>
      obtain ⟨d, hd, hmalformed⟩ := (run_fails_iff _ before).mp ⟨error, after, hrun⟩
      exact absurd (hwell d hd) hmalformed

/-! ### Relocation -/

section Relocate

variable {f : Handle → Handle} {g : ScopeId → ScopeId}

theorem Stmt.deferred_relocate (loc : Handle) (scope : ScopeId) (stmts : List Stmt) :
    (Stmt.deferred loc scope stmts).relocate f g
      = .deferred (f loc) (g scope) (stmts.map (Stmt.relocate f g)) := by
  unfold Stmt.deferred Stmt.plain
  rw [Stmt.relocate, Expr.relocate, Block.relocate_eq]

theorem Block.scriptedIn_relocate (scope : ScopeId) (block : Block) :
    (block.scriptedIn scope).relocate f g = (block.relocate f g).scriptedIn (g scope) := by
  unfold scriptedIn
  rw [getLast?_relocate, stmts_relocate, Section.script_relocate, declared_relocate,
    scope_relocate]
  cases Section.script block.stmts with
  | cons first rest =>
    simp only [List.map_cons, relocate_eq, List.map_append, Stmt.deferred_relocate, List.map_nil]
    rfl
  | nil =>
    cases block.stmts.getLast? with
    | none => exact relocate_eq _
    | some last =>
      have htext : (last.relocate f g).expr.isTextual = last.expr.isTextual :=
        last.expr.isTextual_relocate
      simp only [List.map_nil, Option.map_some, htext]
      split
      · simp only [relocate_eq, List.map_append, List.map_dropLast, Stmt.deferred_relocate,
          List.map_cons, List.map_nil]
        rfl
      · exact relocate_eq _

namespace Definition

theorem endsInThunk_relocate (inner : List Expr) :
    endsInThunk (inner.map (Expr.relocate f g)) = endsInThunk inner := by
  unfold endsInThunk
  rw [List.getLast?_map, Option.any_map]
  congr 1
  funext e
  exact e.isThunk_relocate

theorem canonicalArgs_relocate (flag : Handle) (scope : ScopeId) (d : Definition) :
    (d.canonicalArgs flag scope).map (Expr.relocate f g)
      = (d.relocate f g).canonicalArgs (f flag) (g scope) := by
  have hproblem : (d.relocate f g).problem?.isNone = d.problem?.isNone := by
    rw [problem?_relocate, Option.isNone_map]
  have hinner : inner? (d.relocate f g).args = _ := inner?_relocate d.args
  cases h : inner? d.args with
  | none =>
    rw [h] at hinner
    rw [canonicalArgs, h, canonicalArgs, hinner]
    rfl
  | some inner =>
    obtain ⟨nameLoc, name, inner⟩ := inner
    rw [h] at hinner
    by_cases hbody : endsInThunk inner
    · obtain ⟨init, bodyLoc, body, rfl⟩ := eq_append_of_endsInThunk hbody
      rw [Option.map_some, List.map_append, List.map_singleton, Expr.relocate] at hinner
      rw [canonicalArgs_of_body h, canonicalArgs_of_body hinner, hproblem, List.map_append,
        withName_relocate, List.map_cons, List.map_singleton, Expr.relocate,
        Block.scriptedIn_relocate]
      rfl
    · have hbody' : ¬ endsInThunk (inner.map (Expr.relocate f g)) := by
        rw [endsInThunk_relocate]
        exact hbody
      rw [canonicalArgs_of_noBody h hbody, canonicalArgs_of_noBody hinner hbody', hproblem,
        List.map_append, withName_relocate]
      rfl

/-- **Canonical forms commute with relocation.** -/
theorem canonicalAt_relocate (flag : Handle) (scope : ScopeId) (d : Definition) :
    (d.canonicalAt flag scope).relocate f g
      = (d.relocate f g).canonicalAt (f flag) (g scope) := by
  unfold canonicalAt
  rw [← canonicalArgs_relocate]
  rfl

theorem canonicalsAt_relocate (flag : Nat → Handle) (scope : Nat → ScopeId)
    (ds : List Definition) :
    (canonicalsAt flag scope ds).map (relocate f g)
      = canonicalsAt (f ∘ flag) (g ∘ scope) (ds.map (relocate f g)) := by
  induction ds generalizing flag scope with
  | nil => rfl
  | cons d ds ih =>
    rw [List.map_cons, canonicalsAt, canonicalsAt, List.map_cons, canonicalAt_relocate,
      opensScope_relocate, ih]
    rfl

theorem summary?_relocate (d : Definition) :
    (d.relocate f g).summary?
      = d.summary?.map fun record => { record with loc := f record.loc } := by
  unfold summary?
  rw [name?_relocate, problem?_relocate, Option.isNone_map, Option.map_map]
  rfl

end Definition

/-- **The canonical form of a tree** commutes with relocation. -/
theorem Block.canonicalAt_relocate (keywords : Keywords) (flag : Nat → Handle)
    (scope : Nat → ScopeId) (block : Block) :
    (block.canonicalAt keywords flag scope).relocate f g
      = (block.relocate f g).canonicalAt keywords (f ∘ flag) (g ∘ scope) := by
  have hexprs : Expr.relocate f g ∘ Definition.expr = Definition.expr ∘ Definition.relocate f g :=
    funext fun d => d.expr_relocate.symm
  unfold canonicalAt
  rw [fill_relocate, List.map_map, hexprs, ← List.map_map, canonicalsAt_relocate,
    definitions_relocate]

/-- Whether a tree can be desugared does not depend on its handles and scopes. -/
theorem Block.wellFormed_relocate (keywords : Keywords) (block : Block) :
    (∀ d ∈ (block.relocate f g).definitions keywords, d.WellFormed) ↔
      ∀ d ∈ block.definitions keywords, d.WellFormed := by
  rw [definitions_relocate, List.forall_mem_map]
  exact forall₂_congr fun d _ => d.wellFormed_relocate

end Relocate

end FlowDesugar
