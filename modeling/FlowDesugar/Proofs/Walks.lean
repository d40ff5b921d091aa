import FlowDesugar.Proofs.Children
import FlowDesugar.Proofs.Pass

/-!
# What a walk does

A node consists of its children and of what is left without them, its *shell* (`Expr.shell`,
`Block.shell`): kind, location, names, operator, texts, keys, parameters, scope, and the kinds,
locations and labels of statements. Nothing else is to a node (`Expr.eq_of_shell`).

A walk is given a function that may fail and that carries a state from call to call, a `Visitor`.
`Visitor.Visits` describes how such a function fares with a list of expressions: it is called on
each, in order, until it fails, and every call starts from the state that the one before it left. To
see the calls themselves, the function is replaced by one that takes notes (`Visitor.noting`).

* `Visitor.visits_mapM` — the calls of a run over a list, by induction over the list; one call is
  `Visitor.Visits.cons`;

* `walk_lawful` — a walk over an expression or a block visits its children in this way, and what it
  makes of the answers has the shell of the node and the answers as its children. Two walks with
  functions that neither fail nor look at a state are one walk, and walking with the function that
  returns its argument changes nothing.
-/

namespace FlowDesugar

/-! ### Nodes without their children -/

/-- A block without the expressions of its statements. -/
structure Block.Shell where
  scope : ScopeId
  /-- Of every statement, whether it returns, where it is, and its label. -/
  stmts : List (Bool × Handle × Option String)
deriving DecidableEq, Repr

/-- A node without its children. -/
inductive Expr.Shell where
  | literal (loc : Handle) (value : Literal)
  /-- The texts of a string, with gaps for its expressions. -/
  | gstring (loc : Handle) (pieces : List (Option String))
  | var (loc : Handle) (name : String)
  | property (loc : Handle) (name : String)
  | call (loc : Handle) (hasReceiver : Bool) (method : String)
  | map (loc : Handle) (keys : List String)
  | list (loc : Handle)
  | binary (loc : Handle) (op : Operator)
  | closure (loc : Handle) (params : List String) (body : Block.Shell)
  | thunk (loc : Handle) (body : Block.Shell)
deriving DecidableEq, Repr

/-- The text of a piece of a string; none where an expression is interpolated. -/
def Chunk.text? : Chunk → Option String
  | .text value => some value
  | .interpolation _ => none

/-- A statement without its expression. -/
def Stmt.head (stmt : Stmt) : Bool × Handle × Option String :=
  (stmt.returns, stmt.loc, stmt.label)

theorem Stmt.head_withExpr (stmt : Stmt) (expr : Expr) :
    (stmt.withExpr expr).head = stmt.head := rfl

theorem Entry.key_withValue (entry : Entry) (value : Expr) :
    (entry.withValue value).key = entry.key := rfl

/-- What is left of a block without the expressions of its statements. -/
def Block.shell (block : Block) : Block.Shell :=
  ⟨block.scope, block.stmts.map Stmt.head⟩

/-- What is left of a node without its children. -/
def Expr.shell : Expr → Expr.Shell
  | .literal loc value => .literal loc value
  | .gstring loc chunks => .gstring loc (chunks.map Chunk.text?)
  | .var loc name => .var loc name
  | .property loc _ name => .property loc name
  | .call loc receiver method _ => .call loc receiver.isSome method
  | .map loc entries => .map loc (entries.map Entry.key)
  | .list loc _ => .list loc
  | .binary loc op _ _ => .binary loc op
  | .closure loc params body => .closure loc params body.shell
  | .thunk loc body => .thunk loc body.shell

/-- What setting a component does not touch is kept in every item of a list. -/
private theorem map_zipWith_set {α β γ : Type} {kept : α → γ} {set : α → β → α}
    (hkept : ∀ a b, kept (set a b) = kept a) (as : List α) (bs : List β)
    (h : bs.length = as.length) : (as.zipWith set bs).map kept = as.map kept := by
  calc (as.zipWith set bs).map kept
      = as.zipWith (fun a _ => kept a) bs := by simp only [List.map_zipWith, hkept]
    _ = ((as.zip bs).map Prod.fst).map kept := by
      rw [List.map_map, List.map_zip_eq_zipWith]
      rfl
    _ = as.map kept := by rw [List.map_fst_zip (Nat.le_of_eq h.symm)]

/-- Two lists are equal if their items agree in two respects that together determine an item. -/
private theorem eq_of_map_eq_map {α β γ : Type} {kept : α → γ} {get : α → β}
    (hitem : ∀ a b, kept a = kept b → get a = get b → a = b) {as bs : List α}
    (hkept : as.map kept = bs.map kept) (hget : as.map get = bs.map get) : as = bs := by
  have hboth : as.map (fun a => (kept a, get a)) = bs.map fun a => (kept a, get a) := by
    rw [← List.zip_map', ← List.zip_map', hkept, hget]
  refine (List.map_inj_right ?_).mp hboth
  intro a b hab
  exact hitem a b (congrArg Prod.fst hab) (congrArg Prod.snd hab)

namespace Block

theorem shell_withChildren (block : Block) (exprs : List Expr)
    (h : exprs.length = block.children.length) :
    (block.withChildren exprs).shell = block.shell := by
  rw [children, List.length_map] at h
  have hheads : (block.stmts.zipWith Stmt.withExpr exprs).map Stmt.head
      = block.stmts.map Stmt.head :=
    map_zipWith_set Stmt.head_withExpr block.stmts exprs h
  exact congrArg (Shell.mk block.scope) hheads

/-- A block is determined by its shell and its children. -/
theorem eq_of_shell {block block' : Block} (hshell : block.shell = block'.shell)
    (hchildren : block.children = block'.children) : block = block' := by
  obtain ⟨scope, stmts⟩ := block
  obtain ⟨scope', stmts'⟩ := block'
  obtain ⟨rfl, hheads⟩ := Shell.mk.inj hshell
  have hstmts : stmts = stmts' := by
    refine eq_of_map_eq_map ?_ hheads hchildren
    rintro ⟨returns, loc, label, expr⟩ ⟨returns', loc', label', expr'⟩ hhead hexpr
    cases hhead
    cases hexpr
    rfl
  rw [hstmts]

end Block

theorem map_text?_refillChunks (chunks : List Chunk) (exprs : List Expr) :
    (refillChunks chunks exprs).map Chunk.text? = chunks.map Chunk.text? := by
  induction chunks generalizing exprs with
  | nil => rfl
  | cons chunk chunks ih =>
    cases chunk with
    | text value => rw [refillChunks, List.map_cons, List.map_cons, ih]
    | interpolation expr =>
      cases exprs with
      | nil => rfl
      | cons e exprs =>
        rw [refillChunks, List.map_cons, List.map_cons, ih]
        rfl

/-- The pieces of a string are determined by its texts and its expressions: where there is no text,
there is the next expression. -/
theorem chunks_eq_of_texts {chunks chunks' : List Chunk}
    (htexts : chunks.map Chunk.text? = chunks'.map Chunk.text?)
    (hexprs : chunks.filterMap Chunk.expr? = chunks'.filterMap Chunk.expr?) :
    chunks = chunks' := by
  induction chunks generalizing chunks' with
  | nil => exact (List.map_eq_nil_iff.mp htexts.symm).symm
  | cons chunk chunks ih =>
    cases chunks' with
    | nil => cases htexts
    | cons chunk' chunks' =>
      obtain ⟨htext, htextsRest⟩ := List.cons.inj htexts
      cases chunk with
      | text value =>
        cases chunk' with
        | text value' =>
          cases htext
          rw [ih htextsRest hexprs]
        | interpolation e' => cases htext
      | interpolation e =>
        cases chunk' with
        | text value' => cases htext
        | interpolation e' =>
          obtain ⟨rfl, hexprsRest⟩ := List.cons.inj hexprs
          rw [ih htextsRest hexprsRest]

namespace Expr

theorem shell_withChildren (e : Expr) (exprs : List Expr)
    (h : exprs.length = e.children.length) : (e.withChildren exprs).shell = e.shell := by
  cases e with
  | literal loc value => rfl
  | gstring loc chunks => exact congrArg (Shell.gstring loc) (map_text?_refillChunks chunks exprs)
  | var loc name => rfl
  | property loc target name =>
    obtain ⟨e, rfl⟩ := List.length_eq_one_iff.mp h
    rfl
  | call loc receiver method args =>
    cases receiver with
    | none => rfl
    | some receiver =>
      cases exprs with
      | nil => simp [children] at h
      | cons e exprs => rfl
  | map loc entries =>
    rw [children, List.length_map] at h
    have hkeys : (entries.zipWith Entry.withValue exprs).map Entry.key = entries.map Entry.key :=
      map_zipWith_set Entry.key_withValue entries exprs h
    exact congrArg (Shell.map loc) hkeys
  | list loc items => rfl
  | binary loc op left right =>
    cases exprs with
    | nil => simp [children] at h
    | cons a exprs =>
      obtain ⟨b, rfl⟩ := List.length_eq_one_iff.mp (Nat.succ.inj h)
      rfl
  | closure loc params body =>
    exact congrArg (Shell.closure loc params) (body.shell_withChildren exprs h)
  | thunk loc body => exact congrArg (Shell.thunk loc) (body.shell_withChildren exprs h)

/-- **An expression is determined by its shell and its children.** -/
theorem eq_of_shell {e e' : Expr} (hshell : e.shell = e'.shell)
    (hchildren : e.children = e'.children) : e = e' := by
  -- the shells tell that both are of the same kind
  cases e with
  | literal loc value =>
    cases e' with
    | literal loc' value' =>
      cases hshell
      rfl
    | _ => cases hshell
  | gstring loc chunks =>
    cases e' with
    | gstring loc' chunks' =>
      obtain ⟨rfl, htexts⟩ := Shell.gstring.inj hshell
      rw [chunks_eq_of_texts htexts hchildren]
    | _ => cases hshell
  | var loc name =>
    cases e' with
    | var loc' name' =>
      cases hshell
      rfl
    | _ => cases hshell
  | property loc target name =>
    cases e' with
    | property loc' target' name' =>
      cases hshell
      cases hchildren
      rfl
    | _ => cases hshell
  | call loc receiver method args =>
    cases e' with
    | call loc' receiver' method' args' =>
      -- whether there is a receiver says where among the children the arguments begin
      cases receiver with
      | none =>
        cases receiver' with
        | none =>
          cases hshell
          rw [show args = args' from hchildren]
        | some receiver' => cases hshell
      | some receiver =>
        cases receiver' with
        | none => cases hshell
        | some receiver' =>
          cases hshell
          cases hchildren
          rfl
    | _ => cases hshell
  | map loc entries =>
    cases e' with
    | map loc' entries' =>
      obtain ⟨rfl, hkeys⟩ := Shell.map.inj hshell
      have hentries : entries = entries' := by
        refine eq_of_map_eq_map ?_ hkeys hchildren
        rintro ⟨key, value⟩ ⟨key', value'⟩ hkey hvalue
        cases hkey
        cases hvalue
        rfl
      rw [hentries]
    | _ => cases hshell
  | list loc items =>
    cases e' with
    | list loc' items' =>
      cases hshell
      rw [show items = items' from hchildren]
    | _ => cases hshell
  | binary loc op left right =>
    cases e' with
    | binary loc' op' left' right' =>
      cases hshell
      cases hchildren
      rfl
    | _ => cases hshell
  | closure loc params body =>
    cases e' with
    | closure loc' params' body' =>
      obtain ⟨rfl, rfl, hbody⟩ := Shell.closure.inj hshell
      rw [Block.eq_of_shell hbody hchildren]
    | _ => cases hshell
  | thunk loc body =>
    cases e' with
    | thunk loc' body' =>
      obtain ⟨rfl, hbody⟩ := Shell.thunk.inj hshell
      rw [Block.eq_of_shell hbody hchildren]
    | _ => cases hshell

end Expr

/-! ### Calls of a function with a state -/

/-- A function on expressions that carries a state from call to call and can fail. -/
abbrev Visitor (ε σ : Type) := Expr → ExceptT ε (StateM σ) Expr

namespace Visitor

variable {ε σ α β : Type}

/-- Does what `f` does, and notes the expressions that it is called on. -/
def noting (f : Visitor ε σ) : Visitor ε (List Expr × σ) := fun e =>
  ExceptT.mk fun (called, state) =>
    let (answer, after) := (f e).run state
    (answer, called ++ [e], after)

/-- Called on the first expression of a pair, the function returns the second. -/
def Answers (f : Visitor ε σ) (pair : Expr × Expr) (before after : σ) : Prop :=
  (f pair.1).run before = (.ok pair.2, after)

/-- How a function fares with expressions, one after another, from the state `start` on: what comes
of it, the expressions that it is called on, and the state that it leaves. If every call has an
answer, a result is `made` of the answers. -/
inductive Visits (f : Visitor ε σ) (exprs : List Expr) (made : List Expr → α → Prop) (start : σ) :
    Except ε α → List Expr → σ → Prop
  /-- Every expression is answered. -/
  | completed {pairs : List (Expr × Expr)} {result : α} {after : σ} :
    pairs.map Prod.fst = exprs → Threaded f.Answers pairs start after →
    made (pairs.map Prod.snd) result → Visits f exprs made start (.ok result) exprs after
  /-- The function fails on `bad`, after it has answered the expressions before it. -/
  | failed {pairs : List (Expr × Expr)} {bad : Expr} {rest : List Expr} {error : ε}
    {middle after : σ} : exprs = pairs.map Prod.fst ++ bad :: rest →
    Threaded f.Answers pairs start middle → (f bad).run middle = (.error error, after) →
    Visits f exprs made start (.error error) (pairs.map Prod.fst ++ [bad]) after

variable {f : Visitor ε σ} {exprs called : List Expr} {start middle after : σ}

theorem run_noting {e : Expr} {answer : Except ε Expr} (h : (f e).run start = (answer, after))
    (called : List Expr) :
    (f.noting e).run (called, start) = (answer, called ++ [e], after) := by
  show (((f e).run start).1, called ++ [e], ((f e).run start).2) = _
  rw [h]

/-- One call more, before all the others. -/
theorem Visits.cons {e e' : Expr} {answer : Except ε (List Expr)}
    (hfirst : f.Answers (e, e') start middle)
    (hrest : f.Visits exprs (fun answers result => result = answers) middle answer called after) :
    f.Visits (e :: exprs) (fun answers result => result = answers) start
      (answer.map (e' :: ·)) (e :: called) after := by
  cases hrest with
  | completed hexprs hthreaded hmade =>
    subst hexprs hmade
    exact .completed rfl (.cons hfirst hthreaded) rfl
  | failed hexprs hthreaded hbad =>
    subst hexprs
    have hpairs := Threaded.cons hfirst hthreaded
    exact .failed (List.cons_append ..).symm hpairs hbad

/-- The result may be made into another. -/
theorem Visits.map {answer : Except ε α} {made : List Expr → α → Prop}
    {made' : List Expr → β → Prop} {g : α → β}
    (h : f.Visits exprs made start answer called after)
    (hmade : ∀ answers result, answers.length = exprs.length → made answers result →
      made' answers (g result)) :
    f.Visits exprs made' start (answer.map g) called after := by
  cases h with
  | completed hexprs hthreaded hresult =>
    refine .completed hexprs hthreaded (hmade _ _ ?_ hresult)
    rw [← hexprs, List.length_map, List.length_map]
  | failed hexprs hthreaded hbad => exact .failed hexprs hthreaded hbad

/-- **A run over a list visits its items.** The notes of the function that takes some are the calls
that were made. -/
theorem visits_mapM (f : Visitor ε σ) (exprs : List Expr) (start : σ) :
    ∃ called answer after, (exprs.mapM f).run start = (answer, after)
      ∧ (∀ before, (exprs.mapM f.noting).run (before, start) = (answer, before ++ called, after))
      ∧ f.Visits exprs (fun answers result => result = answers) start answer called after := by
  induction exprs generalizing start with
  | nil =>
    refine ⟨[], .ok [], start, rfl, ?_, .completed rfl (.nil start) rfl⟩
    intro before
    rw [List.append_nil]
    rfl
  | cons e exprs ih =>
    rcases hfirst : (f e).run start with ⟨answer, middle⟩
    cases answer with
    | error error =>
      -- the run ends here, and the rest of the list is not looked at
      refine ⟨[e], .error error, middle, ?_, ?_, ?_⟩
      · rw [List.mapM_cons, Pass.run_bind_of_error hfirst]
      · intro before
        rw [List.mapM_cons, Pass.run_bind_of_error (run_noting hfirst before)]
      · exact .failed (List.nil_append _).symm (.nil start) hfirst
    | ok e' =>
      obtain ⟨called, answer, after, hrun, hnoting, hvisits⟩ := ih middle
      refine ⟨e :: called, answer.map (e' :: ·), after, ?_, ?_, hvisits.cons hfirst⟩
      · rw [List.mapM_cons, Pass.run_bind_of_ok hfirst, bind_pure_comp]
        exact Pass.run_map hrun
      · intro before
        rw [List.mapM_cons, Pass.run_bind_of_ok (run_noting hfirst before), bind_pure_comp]
        have hrest := Pass.run_map (g := (e' :: ·)) (hnoting (before ++ [e]))
        rw [List.append_assoc] at hrest
        exact hrest

end Visitor

/-! ### Walks -/

/-- The laws of a walk over nodes of some kind, with the given children and shells. -/
structure LawfulWalk {ν κ : Type} (children : ν → List Expr) (shell : ν → κ)
    (walk : (ε σ : Type) → Visitor ε σ → ν → ExceptT ε (StateM σ) ν) : Prop where
  /-- The children are visited, and the result is the node with the answers as its children. -/
  visits (ε σ : Type) (f : Visitor ε σ) (node : ν) (start : σ) :
    ∃ called answer after, (walk ε σ f node).run start = (answer, after)
      ∧ (walk ε (List Expr × σ) f.noting node).run ([], start) = (answer, called, after)
      ∧ f.Visits (children node)
          (fun answers result => shell result = shell node ∧ children result = answers)
          start answer called after
  /-- A walk after a walk is one walk, for functions without effects. -/
  comp (ε σ : Type) (f g : Expr → Expr) (node : ν) :
    (do
      let walked ← walk ε σ (fun e => pure (f e)) node
      walk ε σ (fun e => pure (g e)) walked)
        = walk ε σ (fun e => pure (g (f e))) node
  /-- Where every expression is answered by itself, the node stays as it is. -/
  identity (ε σ : Type) (node : ν) : walk ε σ (fun e => pure e) node = pure node

section Lawful

variable {ν κ : Type} {children : ν → List Expr} {shell : ν → κ}
  {withChildren : ν → List Expr → ν}
  {walk : (ε σ : Type) → Visitor ε σ → ν → ExceptT ε (StateM σ) ν}

/-- **A walk is lawful** if it runs over the children and puts the results back, where putting back
goes with shells and children. -/
theorem LawfulWalk.of_eq_mapM
    (hchildren : ∀ node exprs, exprs.length = (children node).length →
      children (withChildren node exprs) = exprs)
    (hshell : ∀ node exprs, exprs.length = (children node).length →
      shell (withChildren node exprs) = shell node)
    (hext : ∀ {node node'}, shell node = shell node' → children node = children node' →
      node = node')
    (hwalk : ∀ ε σ (f : Visitor ε σ) node,
      walk ε σ f node = withChildren node <$> (children node).mapM f) :
    LawfulWalk children shell walk := by
  have hpure : ∀ ε σ (f : Expr → Expr) node, walk ε σ (fun e => pure (f e)) node
      = pure (withChildren node ((children node).map f)) := by
    intro ε σ f node
    rw [hwalk, List.mapM_pure, map_pure]
  have hlength : ∀ (f : Expr → Expr) node,
      ((children node).map f).length = (children node).length := fun f node => List.length_map f
  refine ⟨?_, ?_, ?_⟩
  · intro ε σ f node start
    obtain ⟨called, answer, after, hrun, hnoting, hvisits⟩ :=
      f.visits_mapM (children node) start
    refine ⟨called, answer.map (withChildren node), after, ?_, ?_, hvisits.map ?_⟩
    · rw [hwalk]
      exact Pass.run_map hrun
    · rw [hwalk]
      exact Pass.run_map (hnoting [])
    · rintro answers _ hanswers rfl
      exact ⟨hshell node _ hanswers, hchildren node _ hanswers⟩
  · intro ε σ f g node
    rw [hpure, hpure, pure_bind, hpure]
    -- both are the node with the same children put into it
    refine congrArg pure (hext ?_ ?_)
    · rw [hshell _ _ (hlength g _), hshell _ _ (hlength f _), hshell _ _ (hlength _ _)]
    · rw [hchildren _ _ (hlength g _), hchildren _ _ (hlength f _), hchildren _ _ (hlength _ _),
        List.map_map]
      rfl
  · intro ε σ node
    rw [hpure]
    refine congrArg pure (hext (hshell _ _ (hlength _ _)) ?_)
    rw [hchildren _ _ (hlength _ _), List.map_id']

end Lawful

/-- **Walks are lawful**, over expressions as over blocks. -/
theorem walk_lawful :
    LawfulWalk Expr.children Expr.shell (fun _ _ => Expr.walk)
      ∧ LawfulWalk Block.children Block.shell (fun _ _ => Block.walk) :=
  ⟨.of_eq_mapM Expr.children_withChildren Expr.shell_withChildren Expr.eq_of_shell
      fun _ _ => Expr.walk_eq_mapM,
    .of_eq_mapM Block.children_withChildren Block.shell_withChildren Block.eq_of_shell
      fun _ _ => Block.walk_eq_mapM⟩

end FlowDesugar
