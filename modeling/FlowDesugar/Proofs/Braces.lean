import FlowDesugar.Proofs.Blocks
import FlowDesugar.Proofs.Ink
import FlowDesugar.Proofs.Statements

/-!
# Blocks in the surface text

A *frame* is a node of a tree with a place for one of its immediate sub-expressions
(`Expr.Frame`), and a list of frames, the outermost first, is a tree with a place somewhere in it
(`Expr.plug`). Every block of a tree stands in such a place (`Expr.exists_plug_of_mem_nested`). What
is printed in front of the place and behind it does not depend on what is put there
(`Expr.exists_encloses_plug`), as long as that is not an operation, which may need parentheses.

The main result is `surfaceAt_keeps_content`: the width of the page changes nothing but blanks and
newlines, and a block of at least two statements, wherever it stands, has a line for each of them at
every width.
-/

namespace FlowDesugar

/-! ### Trees with a place -/

/-- A block with a place for the expression of one of its statements. -/
structure Block.Frame where
  scope : ScopeId
  before : List Stmt
  stmt : Stmt
  behind : List Stmt

/-- Puts an expression into the place. -/
def Block.Frame.plug (frame : Block.Frame) (e : Expr) : Block :=
  ⟨frame.scope, frame.before ++ frame.stmt.withExpr e :: frame.behind⟩

/-- A node with a place for one of its immediate sub-expressions. -/
inductive Expr.Frame where
  | interpolation (loc : Handle) (before behind : List Chunk)
  | target (loc : Handle) (name : String)
  | receiver (loc : Handle) (method : String) (args : List Expr)
  | argument (loc : Handle) (called : Option Expr) (method : String) (before behind : List Expr)
  | value (loc : Handle) (before : List Entry) (key : String) (behind : List Entry)
  | item (loc : Handle) (before behind : List Expr)
  | left (loc : Handle) (op : Operator) (other : Expr)
  | right (loc : Handle) (op : Operator) (other : Expr)
  | closure (loc : Handle) (params : List String) (body : Block.Frame)
  | thunk (loc : Handle) (body : Block.Frame)

namespace Expr

/-- Puts an expression into the place. -/
def Frame.plug : Frame → Expr → Expr
  | .interpolation loc before behind, e => gstring loc (before ++ .interpolation e :: behind)
  | .target loc name, e => property loc e name
  | .receiver loc method args, e => call loc (some e) method args
  | .argument loc called method before behind, e => call loc called method (before ++ e :: behind)
  | .value loc before key behind, e => map loc (before ++ ⟨key, e⟩ :: behind)
  | .item loc before behind, e => list loc (before ++ e :: behind)
  | .left loc op other, e => binary loc op e other
  | .right loc op other, e => binary loc op other e
  | .closure loc params body, e => .closure loc params (body.plug e)
  | .thunk loc body, e => .thunk loc (body.plug e)

/-- Puts an expression into a place that is given by the frames around it, the outermost first. -/
def plug (frames : List Frame) (e : Expr) : Expr :=
  frames.foldr Frame.plug e

/-- The parameters of a closure. -/
def params : Expr → List String
  | .closure _ params _ => params
  | _ => []

/-! ### Every block has a place -/

theorem exists_frame_of_mem_block {body : Block} {c : Expr} (h : c ∈ body.children) :
    ∃ frame : Block.Frame, frame.plug c = body := by
  obtain ⟨scope, stmts⟩ := body
  obtain ⟨stmt, hmem, rfl⟩ := List.mem_map.mp h
  obtain ⟨before, behind, rfl⟩ := List.append_of_mem hmem
  refine ⟨⟨scope, before, stmt, behind⟩, ?_⟩
  rw [Block.Frame.plug, Stmt.withExpr_self]

/-- A child of a node stands in a frame. -/
theorem exists_frame_of_mem_children {e c : Expr} (h : c ∈ e.children) :
    ∃ frame : Frame, frame.plug c = e := by
  cases e with
  | literal loc value => cases h
  | gstring loc chunks =>
    obtain ⟨chunk, hmem, hchunk⟩ := List.mem_filterMap.mp h
    obtain ⟨before, behind, rfl⟩ := List.append_of_mem hmem
    cases chunk with
    | text value => cases hchunk
    | interpolation expr =>
      obtain rfl : expr = c := Option.some.inj hchunk
      exact ⟨.interpolation loc before behind, rfl⟩
  | var loc name => cases h
  | property loc target name =>
    obtain rfl : c = target := List.mem_singleton.mp h
    exact ⟨.target loc name, rfl⟩
  | call loc receiver method args =>
    cases List.mem_append.mp h with
    | inl h =>
      obtain rfl : receiver = some c := Option.mem_toList.mp h
      exact ⟨.receiver loc method args, rfl⟩
    | inr h =>
      obtain ⟨before, behind, rfl⟩ := List.append_of_mem h
      exact ⟨.argument loc receiver method before behind, rfl⟩
  | map loc entries =>
    obtain ⟨⟨key, value⟩, hmem, rfl⟩ := List.mem_map.mp h
    obtain ⟨before, behind, rfl⟩ := List.append_of_mem hmem
    exact ⟨.value loc before key behind, rfl⟩
  | list loc items =>
    obtain ⟨before, behind, rfl⟩ := List.append_of_mem (show c ∈ items from h)
    exact ⟨.item loc before behind, rfl⟩
  | binary loc op left right =>
    cases List.mem_cons.mp h with
    | inl h =>
      subst h
      exact ⟨.left loc op right, rfl⟩
    | inr h =>
      obtain rfl : c = right := List.mem_singleton.mp h
      exact ⟨.right loc op left, rfl⟩
  | closure loc params body =>
    obtain ⟨frame, rfl⟩ := exists_frame_of_mem_block h
    exact ⟨.closure loc params frame, rfl⟩
  | thunk loc body =>
    obtain ⟨frame, rfl⟩ := exists_frame_of_mem_block h
    exact ⟨.thunk loc frame, rfl⟩

/-- **Every block of a tree has its place**, where it is the body of a closure or a thunk. -/
theorem exists_plug_of_mem_nested {e : Expr} {body : Block} (h : body ∈ e.nested) :
    ∃ frames inner, plug frames inner = e ∧ inner.body? = some body := by
  induction e using inductionOnChildren with
  | node e ih =>
    -- a block further inside has its place in a child, and the child has a frame around it
    have hchild : ∀ c ∈ e.children, body ∈ c.nested →
        ∃ frames inner, plug frames inner = e ∧ inner.body? = some body := by
      intro c hc hbody
      obtain ⟨frame, hframe⟩ := exists_frame_of_mem_children hc
      obtain ⟨frames, inner, hplug, hinner⟩ := ih c hc hbody
      refine ⟨frame :: frames, inner, ?_, hinner⟩
      rw [plug, List.foldr_cons, ← hframe]
      exact congrArg frame.plug hplug
    cases hbody : e.body? with
    | none =>
      rw [nested_of_none hbody] at h
      obtain ⟨c, hc, hmem⟩ := List.mem_flatMap.mp h
      exact hchild c hc hmem
    | some block =>
      rw [nested_of_some hbody, Block.nested_eq_children] at h
      cases List.mem_cons.mp h with
      | inl h =>
        subst h
        exact ⟨[], e, rfl, hbody⟩
      | inr h =>
        obtain ⟨c, hc, hmem⟩ := List.mem_flatMap.mp h
        rw [← children_of_some hbody] at hc
        exact hchild c hc hmem

/-! ### What is printed around a place -/

theorem chunkDocs_append (before behind : List Chunk) :
    chunkDocs (before ++ behind) = chunkDocs before ++ chunkDocs behind := by
  induction before with
  | nil => rfl
  | cons chunk before ih =>
    cases chunk with
    | text value => rw [List.cons_append, chunkDocs, chunkDocs, ih, List.cons_append]
    | interpolation e => rw [List.cons_append, chunkDocs, chunkDocs, ih, List.cons_append]

theorem exprDocs_append (before behind : List Expr) :
    exprDocs (before ++ behind) = exprDocs before ++ exprDocs behind := by
  induction before with
  | nil => rfl
  | cons e before ih => rw [List.cons_append, exprDocs, exprDocs, ih, List.cons_append]

theorem entryDocs_append (before behind : List Entry) :
    entryDocs (before ++ behind) = entryDocs before ++ entryDocs behind := by
  induction before with
  | nil => rfl
  | cons entry before ih =>
    cases entry
    rw [List.cons_append, entryDocs, entryDocs, ih, List.cons_append]

/-- Whether the node of a frame is an operation. -/
def Frame.isBinary : Frame → Bool
  | .left _ _ _ => true
  | .right _ _ _ => true
  | _ => false

theorem Frame.isBinary_plug (frame : Frame) (e : Expr) :
    (frame.plug e).isBinary = frame.isBinary := by
  cases frame <;> rfl

end Expr

namespace Doc.Encloses

theorem statement (returns : Bool) (label : Option String) :
    Encloses (Doc.statement returns label) :=
  here.right _

theorem operand (isOperation : Bool) : Encloses (Doc.operand isOperation) := by
  cases isOperation with
  | true => exact (here.right _).left _
  | false => exact here

end Doc.Encloses

theorem Block.Frame.stmtDocs_plug (frame : Block.Frame) (e : Expr) :
    stmtDocs (frame.plug e).stmts
      = frame.before.map Stmt.doc ++ Doc.statement frame.stmt.returns frame.stmt.label e.doc
        :: frame.behind.map Stmt.doc := by
  rw [stmtDocs_eq, plug, List.map_append, List.map_cons]
  rfl

namespace Expr

theorem doc_map_plug (loc : Handle) (before : List Entry) (key : String) (behind : List Entry)
    (e : Expr) :
    (map loc (before ++ ⟨key, e⟩ :: behind)).doc
      = .text "[" ++ .commas (entryDocs before ++ (.text key ++ .text ": " ++ e.doc)
          :: entryDocs behind) ++ .text "]" := by
  have hentries := entryDocs_append before (⟨key, e⟩ :: behind)
  rw [entryDocs] at hentries
  rw [← hentries]
  cases before <;> rfl

/-- **What is printed around a place** of a node depends on whether an operation stands there, and
on nothing else about what stands there. -/
theorem Frame.exists_encloses (frame : Frame) (isOperation : Bool) :
    ∃ around, Doc.Encloses around ∧
      ∀ e : Expr, e.isBinary = isOperation → (frame.plug e).doc = around e.doc := by
  cases frame with
  | interpolation loc before behind =>
    have hinner : Doc.Encloses fun doc => .text "$\x7b" ++ doc ++ .text "\x7d" :=
      (Doc.Encloses.here.right _).left _
    have hchunks := (Doc.Encloses.concat (chunkDocs before) (chunkDocs behind)).comp hinner
    refine ⟨_, (hchunks.right (.text "\"")).left (.text "\""), fun e _ => ?_⟩
    rw [plug, doc, chunkDocs_append, chunkDocs]
  | target loc name =>
    exact ⟨_, (Doc.Encloses.here.left (.text ".")).left (.text name), fun e _ => rfl⟩
  | receiver loc method args =>
    exact ⟨_, ((((Doc.Encloses.here.left (.text ".")).left (.text method)).left (.text "(")).left
      (.commas (exprDocs args))).left (.text ")"), fun e _ => rfl⟩
  | argument loc called method before behind =>
    have hargs := Doc.Encloses.intersperse (.text ", ") (exprDocs before) (exprDocs behind)
    refine ⟨_, (hargs.right (receiverDoc called ++ .text method ++ .text "(")).left (.text ")"),
      fun e _ => ?_⟩
    rw [plug, doc, exprDocs_append, exprDocs]
    rfl
  | value loc before key behind =>
    have hentry : Doc.Encloses fun doc => .text key ++ .text ": " ++ doc :=
      Doc.Encloses.here.right _
    have hentries := (Doc.Encloses.intersperse (.text ", ") (entryDocs before)
      (entryDocs behind)).comp hentry
    exact ⟨_, (hentries.right (.text "[")).left (.text "]"),
      fun e _ => doc_map_plug loc before key behind e⟩
  | item loc before behind =>
    have hitems := Doc.Encloses.intersperse (.text ", ") (exprDocs before) (exprDocs behind)
    refine ⟨_, (hitems.right (.text "[")).left (.text "]"), fun e _ => ?_⟩
    rw [plug, doc, exprDocs_append, exprDocs]
    rfl
  | left loc op other =>
    refine ⟨_, ((((Doc.Encloses.operand isOperation).left (.text " ")).left (.text op.symbol)).left
      (.text " ")).left (.operand other.isBinary other.doc), fun e he => ?_⟩
    rw [plug, doc, he]
  | right loc op other =>
    refine ⟨_, (Doc.Encloses.operand isOperation).right (.operand other.isBinary other.doc
      ++ .text " " ++ .text op.symbol ++ .text " "), fun e he => ?_⟩
    rw [plug, doc, he]
  | closure loc params body =>
    refine ⟨_, (Doc.Encloses.braced params (body.before.map Stmt.doc)
      (body.behind.map Stmt.doc)).comp (.statement body.stmt.returns body.stmt.label),
      fun e _ => ?_⟩
    rw [← body.stmtDocs_plug e]
    rfl
  | thunk loc body =>
    refine ⟨_, (Doc.Encloses.braced [] (body.before.map Stmt.doc)
      (body.behind.map Stmt.doc)).comp (.statement body.stmt.returns body.stmt.label),
      fun e _ => ?_⟩
    rw [← body.stmtDocs_plug e]
    rfl

/-- The same for a place anywhere in a tree, if no operation stands there. -/
theorem exists_encloses_plug (frames : List Frame) :
    ∃ around, Doc.Encloses around ∧
      ∀ e : Expr, e.isBinary = false → (plug frames e).doc = around e.doc := by
  induction frames with
  | nil => exact ⟨_, .here, fun _ _ => rfl⟩
  | cons frame frames ih =>
    obtain ⟨inner, hinner, hdoc⟩ := ih
    -- what stands in the outermost frame is the same kind of node for all expressions
    have hkind : ∃ isOperation, ∀ e : Expr, e.isBinary = false →
        (plug frames e).isBinary = isOperation := by
      cases frames with
      | nil => exact ⟨false, fun _ he => he⟩
      | cons next frames => exact ⟨next.isBinary, fun _ _ => next.isBinary_plug _⟩
    obtain ⟨isOperation, hoperation⟩ := hkind
    obtain ⟨outer, houter, hframe⟩ := frame.exists_encloses isOperation
    refine ⟨_, houter.comp hinner, fun e he => ?_⟩
    rw [← hdoc e he]
    exact hframe _ (hoperation e he)

theorem doc_of_body {e : Expr} {body : Block} (h : e.body? = some body) :
    e.doc = Doc.braced e.params (stmtDocs body.stmts) ∧ e.isBinary = false := by
  cases e with
  | closure loc params block =>
    obtain rfl := Option.some.inj h
    cases block
    exact ⟨rfl, rfl⟩
  | thunk loc block =>
    obtain rfl := Option.some.inj h
    cases block
    exact ⟨rfl, rfl⟩
  | _ => cases h

end Expr

/-- **Every block inside a block** has its place there. -/
theorem Block.exists_plug_of_mem_nested {root body : Block} (h : body ∈ root.nested.tail) :
    ∃ (frame : Block.Frame) (frames : List Expr.Frame) (inner : Expr),
      frame.plug (Expr.plug frames inner) = root ∧ inner.body? = some body := by
  rw [Block.nested_eq_children, List.tail_cons] at h
  obtain ⟨c, hc, hbody⟩ := List.mem_flatMap.mp h
  obtain ⟨frame, hframe⟩ := Expr.exists_frame_of_mem_block hc
  obtain ⟨frames, inner, hplug, hinner⟩ := Expr.exists_plug_of_mem_nested hbody
  exact ⟨frame, frames, inner, hplug ▸ hframe, hinner⟩

/-! ### Blocks on a page -/

/-- In the text the block stands between braces, with a line for each of its statements. The text in
front of it and behind it has the given ink, and each line has that of its statement. -/
def Block.IsBrokenIn (body : Block) (params : List String) (front text back : List Char) : Prop :=
  ∃ before indent lines behind,
    text = before ++ Text.brokenBraces params indent lines ++ behind
      ∧ Text.ink before = front ∧ Text.ink behind = back
      ∧ List.Forall₂ (fun stmt line => Text.ink line = Text.ink stmt.surface.toList) body.stmts
        lines

/-- **A block of at least two statements** is broken wherever it is put. -/
theorem Doc.Encloses.isBrokenIn {around : Doc → Doc} (h : Doc.Encloses around) :
    ∃ front back, ∀ (e : Expr) (body : Block), e.body? = some body → 2 ≤ body.stmts.length →
      ∀ width, body.IsBrokenIn e.params front ((around e.doc).page width).toList back := by
  obtain ⟨front, back, hheld⟩ := h
  refine ⟨Text.ink front, Text.ink back, fun e body hbody hlength width => ?_⟩
  obtain ⟨hdoc, -⟩ := Expr.doc_of_body hbody
  have htwo : 2 ≤ (stmtDocs body.stmts).length := by rwa [stmtDocs_eq, List.length_map]
  have hforced : e.doc.IsForced := hdoc ▸ Doc.isForced_braced e.params htwo
  obtain ⟨before, behind, indent, after, column, htext, hbefore, hbehind⟩ :=
    (hheld e.doc).laidIn_page hforced width
  rw [hdoc] at htext
  obtain ⟨lines, hlines, hink⟩ := Doc.render_braced width e.params htwo indent after column
  rw [hlines] at htext
  refine ⟨before, indent, lines, behind, hdoc ▸ htext, hbefore, hbehind, ?_⟩
  rw [stmtDocs_eq, List.forall₂_map_left_iff] at hink
  refine hink.imp fun stmt line hline => ?_
  rw [hline, Stmt.surface, Doc.ink_page]

/-- **Layout keeps content.** Texts of a tree at two widths differ in blanks and newlines only.
Every block of a tree has a place in it, and wherever a block of at least two statements is put, it
has a line for each of them at every width, with the same ink in front of it and behind it. -/
theorem surfaceAt_keeps_content :
    (∀ (e : Expr) (width width' : Nat),
      Text.ink (e.surfaceAt width).toList = Text.ink (e.surfaceAt width').toList) ∧
    (∀ (root : Block) (width width' : Nat),
      Text.ink (root.surfaceAt width).toList = Text.ink (root.surfaceAt width').toList) ∧
    (∀ e : Expr, ∀ body ∈ e.nested, ∃ frames inner,
      Expr.plug frames inner = e ∧ inner.body? = some body) ∧
    (∀ root : Block, ∀ body ∈ root.nested.tail,
      ∃ (frame : Block.Frame) (frames : List Expr.Frame) (inner : Expr),
        frame.plug (Expr.plug frames inner) = root ∧ inner.body? = some body) ∧
    (∀ frames : List Expr.Frame, ∃ front back, ∀ (e : Expr) (body : Block),
      e.body? = some body → 2 ≤ body.stmts.length → ∀ width,
        body.IsBrokenIn e.params front ((Expr.plug frames e).surfaceAt width).toList back) ∧
    (∀ (frame : Block.Frame) (frames : List Expr.Frame), ∃ front back, ∀ (e : Expr) (body : Block),
      e.body? = some body → 2 ≤ body.stmts.length → ∀ width,
        body.IsBrokenIn e.params front
          ((frame.plug (Expr.plug frames e)).surfaceAt width).toList back) := by
  refine ⟨?_, ?_, fun _ _ => Expr.exists_plug_of_mem_nested,
    fun _ _ => Block.exists_plug_of_mem_nested, ?_, ?_⟩
  · intro e width width'
    exact (Doc.ink_page width e.doc).trans (Doc.ink_page width' e.doc).symm
  · intro root width width'
    exact (Doc.ink_page width root.doc).trans (Doc.ink_page width' root.doc).symm
  · intro frames
    obtain ⟨around, hencloses, hdoc⟩ := Expr.exists_encloses_plug frames
    obtain ⟨front, back, hbroken⟩ := hencloses.isBrokenIn
    refine ⟨front, back, fun e body hbody hlength width => ?_⟩
    rw [Expr.surfaceAt, hdoc e (Expr.doc_of_body hbody).2]
    exact hbroken e body hbody hlength width
  · intro frame frames
    obtain ⟨around, hencloses, hdoc⟩ := Expr.exists_encloses_plug frames
    have hroot := (Doc.Encloses.intersperse .hardline (frame.before.map Stmt.doc)
      (frame.behind.map Stmt.doc)).comp
        ((Doc.Encloses.statement frame.stmt.returns frame.stmt.label).comp hencloses)
    obtain ⟨front, back, hbroken⟩ := hroot.isBrokenIn
    refine ⟨front, back, fun e body hbody hlength width => ?_⟩
    rw [Block.surfaceAt, Block.doc, frame.stmtDocs_plug, hdoc e (Expr.doc_of_body hbody).2]
    exact hbroken e body hbody hlength width

/-- A block of two statements. -/
def samplePair : Block :=
  ⟨Scopes.root, [.plain .unknown (.var .unknown "a"), .plain .unknown (.var .unknown "b")]⟩

/-- A place in a block of one statement, which is the argument of a call. -/
def sampleFrames : List Expr.Frame :=
  [.argument .unknown none "f" [] [],
    .thunk .unknown ⟨Scopes.root, [], .plain .unknown (.var .unknown "x"), []⟩]

/-- The hard line of the inner block breaks the outer one as well, though its one statement would
have room enough. -/
theorem surfaceAt_keeps_content_nested :
    (Expr.thunk .unknown samplePair).body? = some samplePair ∧ 2 ≤ samplePair.stmts.length ∧
    ∃ front back, samplePair.IsBrokenIn [] front
      ((Expr.plug sampleFrames (.thunk .unknown samplePair)).surfaceAt 1000).toList back := by
  have hlength : 2 ≤ samplePair.stmts.length := Nat.le_refl 2
  obtain ⟨-, -, -, -, hplaces, -⟩ := surfaceAt_keeps_content
  obtain ⟨front, back, hbroken⟩ := hplaces sampleFrames
  exact ⟨rfl, hlength, front, back, hbroken (.thunk .unknown samplePair) _ rfl hlength 1000⟩

example : (Expr.plug sampleFrames (.thunk .unknown samplePair)).surfaceAt 1000
    = "f(\x7b\n  \x7b\n    a\n    b\n  \x7d\n\x7d)\n" := by
  rfl

end FlowDesugar
