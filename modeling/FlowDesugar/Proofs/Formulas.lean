import Mathlib.Data.List.Induction
import FlowDesugar.Proofs.Letters
import FlowDesugar.Proofs.Relocated
import FlowDesugar.Proofs.RoundTrip

/-!
# Formulas

Formulas are the expressions that are made of names, properties, calls and operations. Their surface
text puts an operation in parentheses where it is an operand. It does not do so before a dot, and
there the text says less than the tree: `a + b.c` is printed for the property of a sum as well as
for the sum with a property (`Expr.surface_dotted_operation`). This is the one case: of formulas
without operations before a dot (`Expr.NoDottedOperation`) no two have the same text, up to handles
(`Expr.surface_shows_operations`).

The text is read from its end. What stands there is a name or a closing parenthesis, and what is
before a name shows whether it is preceded by a dot; a left-to-right reading would learn only at the
end whether what it has read is a target. All statements are therefore about a text with something
before it, and say how much of it the expression takes up. An operand can begin where nothing, a
blank or an opening parenthesis comes before (`OpensOperand`). A whole formula can begin in the same
places, but not behind an operator (`OpensFormula`).

* `Text.append_inj_of_last` — where a word begins, if what precedes it ends otherwise;
* `Formula.head_unique` and `Formula.args_unique` — a name with its target, and arguments;
* `Expr.IsClear.reads` — operands and whole formulas, by induction over the tree.
-/

namespace FlowDesugar

/-! ### Formulas and their letters -/

/-- What stands between the names of a formula. -/
def Text.punctuation : List Char :=
  [' ', '.', ',', '(', ')']

/-- A plain name: it is not empty, and has no punctuation in it. -/
def Text.IsPlain (name : String) : Prop :=
  name.toList ≠ [] ∧ ∀ c ∈ name.toList, c ∉ punctuation

namespace Expr

/-- The node is a name, a property, a call or an operation, and its own name is plain. -/
def HasPlainName : Expr → Prop
  | var _ name => Text.IsPlain name
  | property _ _ name => Text.IsPlain name
  | call _ _ method _ => Text.IsPlain method
  | binary _ _ _ _ => True
  | _ => False

/-- What stands before the dot of a property or of a call. -/
def target? : Expr → Option Expr
  | property _ target _ => some target
  | call _ receiver _ _ => receiver
  | _ => none

/-- An expression of names, properties, calls and operations, all names of which are plain. -/
def IsFormula (e : Expr) : Prop :=
  e.Everywhere HasPlainName

/-- No operation stands before a dot. -/
def NoDottedOperation (e : Expr) : Prop :=
  e.Everywhere fun node => ∀ target ∈ node.target?, ¬ target.isBinary

/-- The surface text of a formula. -/
def letters (e : Expr) : List Char :=
  e.doc.letters

/-- The surface text of an operand. -/
def operandLetters (e : Expr) : List Char :=
  (Doc.operand e.isBinary e.doc).letters

end Expr

namespace Formula

/-- A name, with its target and a dot before it if there is one. -/
def headLetters (target : Option Expr) (name : String) : List Char :=
  (receiverDoc target).letters ++ name.toList

/-- Arguments with commas between them. -/
def argLetters (args : List Expr) : List Char :=
  (Doc.commas (exprDocs args)).letters

end Formula

/-! ### Words -/

namespace Text

private theorem eq_nil_of_last {p : Char → Prop} {xs ys zs : List Char}
    (hlast : ∀ c ∈ (xs ++ zs).getLast?, ¬ p c) (hword : ∀ c ∈ zs ++ ys, p c) : zs = [] := by
  cases hzs : zs.getLast? with
  | none => exact List.getLast?_eq_none_iff.mp hzs
  | some c =>
    have hc : c ∈ (xs ++ zs).getLast? := by
      rw [List.getLast?_append, hzs]
      rfl
    have hmem : c ∈ zs ++ ys := List.mem_append_left _ (List.mem_of_getLast? hzs)
    exact absurd (hword c hmem) (hlast c hc)

/-- **A word at the end of a text** begins in one place only, if what precedes it does not end in a
character of a word. -/
theorem append_inj_of_last {p : Char → Prop} {xs xs' ys ys' : List Char}
    (hxs : ∀ c ∈ xs.getLast?, ¬ p c) (hxs' : ∀ c ∈ xs'.getLast?, ¬ p c)
    (hys : ∀ c ∈ ys, p c) (hys' : ∀ c ∈ ys', p c) (h : xs ++ ys = xs' ++ ys') :
    xs = xs' ∧ ys = ys' := by
  -- the longer of the two beginnings would end within the word behind the shorter one
  obtain ⟨zs, rfl, rfl⟩ | ⟨zs, rfl, rfl⟩ := List.append_eq_append_iff.mp h
  · obtain rfl : zs = [] := eq_nil_of_last hxs' hys
    exact ⟨(List.append_nil xs).symm, rfl⟩
  · obtain rfl : zs = [] := eq_nil_of_last hxs hys'
    exact ⟨List.append_nil xs', rfl⟩

theorem getLast?_append_plain {name : String} (h : IsPlain name) (before : List Char) :
    ∃ c, (before ++ name.toList).getLast? = some c ∧ c ∉ punctuation := by
  cases hlast : name.toList.getLast? with
  | none => exact absurd (List.getLast?_eq_none_iff.mp hlast) h.1
  | some c =>
    refine ⟨c, ?_, h.2 c (List.mem_of_getLast? hlast)⟩
    rw [List.getLast?_append, hlast]
    rfl

end Text

namespace Formula

/-- An operand can begin behind `before`. -/
def OpensOperand (before : List Char) : Prop :=
  ∀ c ∈ before.getLast?, c = ' ' ∨ c = '('

/-- A whole formula can begin behind `before`: at the start, in parentheses, or behind a comma. -/
def OpensFormula (before : List Char) : Prop :=
  before = [] ∨ ['('] <:+ before ∨ [',', ' '] <:+ before

theorem OpensFormula.opensOperand {before : List Char} (h : OpensFormula before) :
    OpensOperand before := by
  obtain rfl | ⟨front, rfl⟩ | ⟨front, rfl⟩ := h
  · exact fun c hc => nomatch hc
  · intro c hc
    simp at hc
    exact .inr hc.symm
  · intro c hc
    simp at hc
    exact .inl hc.symm

theorem opensOperand_blank (before : List Char) : OpensOperand (before ++ [' ']) := by
  intro c hc
  simp at hc
  exact .inl hc.symm

/-- What precedes an operand is no part of a name, nor a dot. -/
theorem OpensOperand.not_dot {before : List Char} (h : OpensOperand before) :
    ∀ c ∈ before.getLast?, c ∈ Text.punctuation ∧ c ≠ '.' := by
  intro c hc
  obtain rfl | rfl := h c hc <;> decide

/-- No formula begins behind an operator. -/
theorem not_opensFormula_operator (before : List Char) (op : Operator) :
    ¬ OpensFormula (before ++ [' '] ++ op.symbol.toList ++ [' ']) := by
  rintro (hnil | ⟨front, heq⟩ | ⟨front, heq⟩)
  · simp at hnil
  · have hchar := (List.append_inj' heq rfl).2
    exact absurd hchar (by decide)
  · -- the blank goes, and the comma would be the end of the symbol
    have hblank : front ++ [','] ++ [' '] = before ++ [' '] ++ op.symbol.toList ++ [' '] := by
      simpa using heq
    have hcomma := congrArg List.getLast? (List.append_inj' hblank rfl).1
    cases op <;> simp [Operator.symbol] at hcomma

theorem operator_unique {before before' : List Char} {op op' : Operator}
    (h : before ++ [' '] ++ op.symbol.toList ++ [' ']
      = before' ++ [' '] ++ op'.symbol.toList ++ [' ']) : before = before' ∧ op = op' := by
  have hblank : ∀ (front : List Char), ∀ c ∈ (front ++ [' ']).getLast?, ¬ c ≠ ' ' := by
    intro front c hc
    rw [List.getLast?_concat] at hc
    exact not_not_intro (Option.some.inj hc).symm
  have hsymbol : ∀ (op : Operator), ∀ c ∈ op.symbol.toList, c ≠ ' ' := by
    intro op
    cases op <;> simp [Operator.symbol]
  obtain ⟨hfront, hsame⟩ := Text.append_inj_of_last (hblank before) (hblank before') (hsymbol op)
    (hsymbol op') (List.append_cancel_right h)
  refine ⟨List.append_cancel_right hfront, ?_⟩
  have hops := congrArg Operator.ofSymbol? (String.toList_inj.mp hsame)
  rw [Interchange.ofSymbol?_symbol, Interchange.ofSymbol?_symbol] at hops
  exact Option.some.inj hops

end Formula

/-! ### The letters of a node -/

namespace Expr

variable {loc : Handle}

theorem letters_binary (op : Operator) (left right : Expr) :
    (binary loc op left right).letters
      = left.operandLetters ++ [' '] ++ op.symbol.toList ++ [' '] ++ right.operandLetters := rfl

theorem operandLetters_of_not_isBinary {e : Expr} (h : ¬ e.isBinary) :
    e.operandLetters = e.letters := by
  unfold operandLetters Doc.operand
  rw [if_neg h]
  rfl

/-- The name of a node. An operation has none. -/
def name? : Expr → Option String
  | var _ name => some name
  | property _ _ name => some name
  | call _ _ method _ => some method
  | _ => none

/-- What an operand has between the parentheses at its end: arguments, or the operation itself. -/
def enclosed? : Expr → Option (List Expr)
  | call _ _ _ args => some args
  | binary loc op left right => some [binary loc op left right]
  | _ => none

end Expr

namespace Formula

/-- The letters of an operand up to the parentheses at its end: its name, with what stands before
the dot. -/
def frontLetters (e : Expr) : List Char :=
  e.name?.elim [] (headLetters e.target?)

theorem operandLetters_of_none {e : Expr} (h : e.HasPlainName) (hnone : e.enclosed? = none) :
    e.operandLetters = frontLetters e := by
  cases e with
  | var loc name => rfl
  | property loc target name => rfl
  | call loc receiver method args => cases hnone
  | binary loc op left right => cases hnone
  | _ => exact h.elim

theorem operandLetters_of_enclosed {e : Expr} {args : List Expr} (h : e.enclosed? = some args) :
    e.operandLetters = frontLetters e ++ ['('] ++ argLetters args ++ [')'] := by
  cases e with
  | call loc receiver method args => exact Option.some.inj h ▸ rfl
  | binary loc op left right => exact Option.some.inj h ▸ rfl
  | _ => cases h

/-- Arguments are read from the last one on: the comma before it belongs to those that precede
it. -/
def leadLetters : List Expr → List Char
  | [] => []
  | args => argLetters args ++ [',', ' ']

theorem leadLetters_cons (arg : Expr) (args : List Expr) :
    leadLetters (arg :: args) = argLetters (arg :: args) ++ [',', ' '] := rfl

theorem argLetters_concat (args : List Expr) (arg : Expr) :
    argLetters (args ++ [arg]) = leadLetters args ++ arg.letters := by
  have hcons : ∀ first next rest, argLetters (first :: next :: rest)
      = first.letters ++ [',', ' '] ++ argLetters (next :: rest) := fun _ _ _ => rfl
  induction args with
  | nil => rfl
  | cons first rest ih =>
    cases rest with
    | nil => rfl
    | cons next rest =>
      rw [List.cons_append, List.cons_append, hcons, ← List.cons_append, ih, leadLetters_cons,
        leadLetters_cons, hcons]
      simp only [List.append_assoc]

theorem opensFormula_lead (before : List Char) (args : List Expr) :
    OpensFormula (before ++ ['('] ++ leadLetters args) := by
  cases args with
  | nil => exact .inr (.inl ⟨before, (List.append_nil _).symm⟩)
  | cons arg args =>
    exact .inr (.inr ⟨before ++ ['('] ++ argLetters (arg :: args), List.append_assoc ..⟩)

end Formula

/-! ### Reading from the end -/

namespace Expr

theorem mem_children_of_target? {e target : Expr} (h : target ∈ e.target?) :
    target ∈ e.children := by
  cases e with
  | property loc t name =>
    obtain rfl : t = target := Option.some.inj h
    exact List.mem_cons_self
  | call loc receiver method args =>
    obtain rfl : receiver = some target := h
    exact List.mem_cons_self
  | _ => cases h

/-- What an operand encloses is inside it, unless it is itself an operation in parentheses. -/
theorem eq_or_mem_children_of_enclosed? {e arg : Expr} {args : List Expr}
    (h : e.enclosed? = some args) (harg : arg ∈ args) : arg = e ∨ arg ∈ e.children := by
  cases e with
  | call loc receiver method args =>
    obtain rfl := Option.some.inj h
    exact .inr (List.mem_append_right _ harg)
  | binary loc op left right =>
    obtain rfl := Option.some.inj h
    exact .inl (List.mem_singleton.mp harg)
  | _ => cases h

/-- A formula without operations before a dot, as one property of nodes. -/
def IsClear (e : Expr) : Prop :=
  e.Everywhere fun node => node.HasPlainName ∧ ∀ target ∈ node.target?, ¬ target.isBinary

namespace IsClear

variable {e : Expr}

theorem hasPlainName (h : e.IsClear) : e.HasPlainName :=
  h.own.1

theorem of_target (h : e.IsClear) : ∀ target ∈ e.target?, target.IsClear ∧ ¬ target.isBinary :=
  fun target htarget =>
    ⟨h.children target (mem_children_of_target? htarget), h.own.2 target htarget⟩

theorem of_enclosed (h : e.IsClear) {args : List Expr} (hargs : e.enclosed? = some args) :
    ∀ arg ∈ args, arg.IsClear := by
  intro arg harg
  obtain rfl | hchild := eq_or_mem_children_of_enclosed? hargs harg
  · exact h
  · exact h.children arg hchild

/-- The text of a formula does not end in an opening parenthesis. -/
theorem getLast?_letters (h : e.IsClear) : ∃ c, e.letters.getLast? = some c ∧ c ≠ '(' := by
  have hplain : ∀ c, c ∉ Text.punctuation → c ≠ '(' := by
    rintro c hc rfl
    exact hc (by decide)
  induction e using inductionOnChildren with
  | node e ih =>
    cases e with
    | var loc name =>
      obtain ⟨c, hlast, hc⟩ := Text.getLast?_append_plain h.hasPlainName []
      exact ⟨c, hlast, hplain c hc⟩
    | property loc target name =>
      obtain ⟨c, hlast, hc⟩ := Text.getLast?_append_plain h.hasPlainName (target.letters ++ ['.'])
      exact ⟨c, hlast, hplain c hc⟩
    | call loc receiver method args => exact ⟨')', List.getLast?_concat, by decide⟩
    | binary loc op left right =>
      -- the text ends as its right operand does
      have hright : ∃ c, right.operandLetters.getLast? = some c ∧ c ≠ '(' := by
        by_cases hbinary : right.isBinary
        · refine ⟨')', ?_, by decide⟩
          rw [operandLetters, hbinary]
          exact List.getLast?_concat
        · rw [operandLetters_of_not_isBinary hbinary]
          have hmem : right ∈ [left, right] := List.mem_cons_of_mem _ List.mem_cons_self
          exact ih right hmem (h.children right hmem)
      obtain ⟨c, hlast, hc⟩ := hright
      refine ⟨c, ?_, hc⟩
      rw [letters_binary, List.getLast?_append, hlast]
      rfl
    | _ => exact h.hasPlainName.elim

end IsClear

/-- As an operand, the expression is told from every other one by the end of a text. -/
def ReadsOperand (e : Expr) : Prop :=
  ∀ e' : Expr, e'.IsClear → ∀ before before', Formula.OpensOperand before →
    Formula.OpensOperand before' → before ++ e.operandLetters = before' ++ e'.operandLetters →
    before = before' ∧ e.bare = e'.bare

/-- As a whole formula, the expression is told from every other one by the end of a text. -/
def ReadsFormula (e : Expr) : Prop :=
  ∀ e' : Expr, e'.IsClear → ∀ before before', Formula.OpensFormula before →
    Formula.OpensFormula before' → before ++ e.letters = before' ++ e'.letters →
    before = before' ∧ e.bare = e'.bare

end Expr

namespace Formula

private theorem lead_unique {args args' : List Expr} {before before' : List Char}
    (hargs : before ++ ['('] ++ argLetters args = before' ++ ['('] ++ argLetters args' →
      before = before' ∧ args.map Expr.bare = args'.map Expr.bare)
    (h : before ++ ['('] ++ leadLetters args = before' ++ ['('] ++ leadLetters args') :
    before = before' ∧ args.map Expr.bare = args'.map Expr.bare := by
  -- behind arguments there is a comma with its blank, behind none the opening parenthesis
  have hcomma : ∀ (front front' : List Char) (arg : Expr) (args : List Expr),
      front ++ ['('] ++ leadLetters [] ≠ front' ++ ['('] ++ leadLetters (arg :: args) := by
    intro front front' arg args heq
    have hlast := congrArg List.getLast? heq
    rw [leadLetters_cons] at hlast
    simp only [List.getLast?_append] at hlast
    have hchar : some '(' = some ' ' := hlast
    exact absurd hchar (by decide)
  cases args with
  | nil =>
    cases args' with
    | nil => exact hargs h
    | cons arg' args' => exact absurd h (hcomma before before' arg' args')
  | cons arg args =>
    cases args' with
    | nil => exact absurd h.symm (hcomma before' before arg args)
    | cons arg' args' =>
      rw [leadLetters_cons, leadLetters_cons, ← List.append_assoc, ← List.append_assoc] at h
      exact hargs (List.append_cancel_right h)

/-- **Arguments** are read from the last one to the opening parenthesis, whatever precedes it. -/
theorem args_unique {args args' : List Expr} {before before' : List Char}
    (hreads : ∀ arg ∈ args, arg.ReadsFormula) (hclear : ∀ arg ∈ args, arg.IsClear)
    (hclear' : ∀ arg ∈ args', arg.IsClear)
    (h : before ++ ['('] ++ argLetters args = before' ++ ['('] ++ argLetters args') :
    before = before' ∧ args.map Expr.bare = args'.map Expr.bare := by
  have hnil : argLetters [] = [] := rfl
  -- the text cannot end in the opening parenthesis if there is an argument behind it
  have hend : ∀ (front front' : List Char) (arg : Expr), arg.IsClear →
      front ++ ['('] ≠ front' ++ arg.letters := by
    intro front front' arg harg heq
    obtain ⟨c, hlast, hc⟩ := harg.getLast?_letters
    have hchar := congrArg List.getLast? heq
    rw [List.getLast?_concat, List.getLast?_append, hlast] at hchar
    exact hc (Option.some.inj hchar).symm
  induction args using List.reverseRecOn generalizing args' with
  | nil =>
    obtain rfl | ⟨init', arg', rfl⟩ := List.eq_nil_or_concat' args'
    · exact ⟨List.append_cancel_right (List.append_cancel_right h), rfl⟩
    · rw [hnil, List.append_nil, argLetters_concat, ← List.append_assoc] at h
      exact absurd h (hend _ _ arg' (hclear' arg' (by simp)))
  | append_singleton init arg ih =>
    obtain rfl | ⟨init', arg', rfl⟩ := List.eq_nil_or_concat' args'
    · rw [hnil, List.append_nil, argLetters_concat, ← List.append_assoc] at h
      exact absurd h.symm (hend _ _ arg (hclear arg (by simp)))
    · rw [argLetters_concat, argLetters_concat, ← List.append_assoc, ← List.append_assoc] at h
      obtain ⟨hlead, hbare⟩ := hreads arg (by simp) arg' (hclear' arg' (by simp)) _ _
        (opensFormula_lead before init) (opensFormula_lead before' init') h
      obtain ⟨hbefore, hinit⟩ := lead_unique (ih (fun a ha => hreads a (by simp [ha]))
        (fun a ha => hclear a (by simp [ha])) fun a ha => hclear' a (by simp [ha])) hlead
      refine ⟨hbefore, ?_⟩
      rw [List.map_append, List.map_append, hinit]
      exact congrArg (_ ++ [·]) hbare

/-- **A name and its target** are read from the end of the name. A dot before it tells that there is
a target, since no operand begins behind a dot. -/
theorem head_unique {target target' : Option Expr} {name name' : String}
    {before before' : List Char} (hreads : ∀ t ∈ target, t.ReadsOperand ∧ ¬ t.isBinary)
    (hclear' : ∀ t ∈ target', t.IsClear ∧ ¬ t.isBinary) (hname : Text.IsPlain name)
    (hname' : Text.IsPlain name') (hopens : OpensOperand before) (hopens' : OpensOperand before')
    (h : before ++ headLetters target name = before' ++ headLetters target' name') :
    before = before' ∧ target.map Expr.bare = target'.map Expr.bare ∧ name = name' := by
  have hstop : ∀ (front : List Char) (t : Option Expr), OpensOperand front →
      ∀ c ∈ (front ++ (receiverDoc t).letters).getLast?, ¬ c ∉ Text.punctuation := by
    intro front t hfront c hc
    cases t with
    | none =>
      rw [show (receiverDoc none).letters = [] from rfl, List.append_nil] at hc
      exact not_not_intro (hfront.not_dot c hc).1
    | some t =>
      have hdot : (front ++ (receiverDoc (some t)).letters).getLast? = some '.' := by
        rw [show (receiverDoc (some t)).letters = t.letters ++ ['.'] from rfl, ← List.append_assoc]
        exact List.getLast?_concat
      obtain rfl : '.' = c := Option.some.inj (hdot.symm.trans hc)
      decide
  unfold headLetters at h
  rw [← List.append_assoc, ← List.append_assoc] at h
  obtain ⟨hfront, hletters⟩ := Text.append_inj_of_last (hstop before target hopens)
    (hstop before' target' hopens') hname.2 hname'.2 h
  have hnames : name = name' := String.toList_inj.mp hletters
  have hdots : ∀ (front front' : List Char) (t : Expr), OpensOperand front →
      front ≠ front' ++ (t.letters ++ ['.']) := by
    rintro front front' t hfront rfl
    refine (hfront.not_dot '.' ?_).2 rfl
    rw [← List.append_assoc]
    exact List.getLast?_concat
  cases target with
  | none =>
    cases target' with
    | none => exact ⟨List.append_cancel_right hfront, rfl, hnames⟩
    | some t' =>
      have hfront' : before ++ [] = before' ++ (t'.letters ++ ['.']) := hfront
      exact absurd ((List.append_nil before).symm.trans hfront') (hdots _ _ t' hopens)
  | some t =>
    cases target' with
    | none =>
      have hfront' : before ++ (t.letters ++ ['.']) = before' ++ [] := hfront
      exact absurd ((List.append_nil before').symm.trans hfront'.symm) (hdots _ _ t hopens')
    | some t' =>
      have hfront' : before ++ (t.letters ++ ['.']) = before' ++ (t'.letters ++ ['.']) := hfront
      rw [← List.append_assoc, ← List.append_assoc] at hfront'
      obtain ⟨hreadst, hnot⟩ := hreads t rfl
      obtain ⟨hcleart', hnot'⟩ := hclear' t' rfl
      have htargets : before ++ t.operandLetters = before' ++ t'.operandLetters := by
        rw [Expr.operandLetters_of_not_isBinary hnot, Expr.operandLetters_of_not_isBinary hnot']
        exact List.append_cancel_right hfront'
      obtain ⟨hbefore, hbare⟩ := hreadst t' hcleart' _ _ hopens hopens' htargets
      exact ⟨hbefore, congrArg some hbare, hnames⟩

theorem getLast?_head (target : Option Expr) {name : String} (hname : Text.IsPlain name)
    (before : List Char) :
    ∃ c, (before ++ headLetters target name).getLast? = some c ∧ c ∉ Text.punctuation := by
  obtain ⟨c, hlast, hc⟩ :=
    Text.getLast?_append_plain hname (before ++ (receiverDoc target).letters)
  rw [List.append_assoc] at hlast
  exact ⟨c, hlast, hc⟩

end Formula

/-! ### One node -/

namespace Expr

variable {e e' : Expr}

theorem isPlain_of_name? {name : String} (h : e.HasPlainName) (hname : e.name? = some name) :
    Text.IsPlain name := by
  cases e with
  | var loc other => exact Option.some.inj hname ▸ h
  | property loc target other => exact Option.some.inj hname ▸ h
  | call loc receiver other args => exact Option.some.inj hname ▸ h
  | _ => cases hname

/-- A node without a name of its own is an operation. -/
theorem parts_of_name?_none (h : e.HasPlainName) (hname : e.name? = none) :
    e.target? = none ∧ e.enclosed? = some [e] := by
  cases e with
  | binary loc op left right => exact ⟨rfl, rfl⟩
  | var loc name => cases hname
  | property loc target name => cases hname
  | call loc receiver method args => cases hname
  | _ => exact h.elim

/-- The parts of a node show what it is. -/
theorem bare_eq_of_parts (h : e.HasPlainName) (h' : e'.HasPlainName)
    (hname : e.name? = e'.name?) (htarget : e.target?.map bare = e'.target?.map bare)
    (henclosed : e.enclosed?.map (List.map bare) = e'.enclosed?.map (List.map bare)) :
    e.bare = e'.bare := by
  cases e with
  | var loc name =>
    cases e' with
    | var loc' name' => exact congrArg (var .unknown) (Option.some.inj hname)
    | property loc' target' name' => cases htarget
    | call loc' receiver' method' args' => cases henclosed
    | binary loc' op' left' right' => cases hname
    | _ => exact h'.elim
  | property loc target name =>
    cases e' with
    | var loc' name' => cases htarget
    | property loc' target' name' =>
      have hbare : target.bare = target'.bare := Option.some.inj htarget
      obtain rfl : name = name' := Option.some.inj hname
      exact congrArg (property .unknown · name) hbare
    | call loc' receiver' method' args' => cases henclosed
    | binary loc' op' left' right' => cases hname
    | _ => exact h'.elim
  | call loc receiver method args =>
    cases e' with
    | var loc' name' => cases henclosed
    | property loc' target' name' => cases henclosed
    | call loc' receiver' method' args' =>
      obtain rfl : method = method' := Option.some.inj hname
      have hargs : args.map bare = args'.map bare := Option.some.inj henclosed
      have hreceiver : receiver.map bare = receiver'.map bare := htarget
      change call _ (relocateReceiver ..) _ (relocateExprs ..)
        = call _ (relocateReceiver ..) _ (relocateExprs ..)
      rw [relocateReceiver_eq, relocateReceiver_eq, relocateExprs_eq, relocateExprs_eq]
      exact congrArg₂ (call .unknown · method ·) hreceiver hargs
    | binary loc' op' left' right' => cases hname
    | _ => exact h'.elim
  | binary loc op left right =>
    cases e' with
    | binary loc' op' left' right' => exact (List.cons.inj (Option.some.inj henclosed)).1
    | var loc' name' => cases hname
    | property loc' target' name' => cases hname
    | call loc' receiver' method' args' => cases hname
    | _ => exact h'.elim
  | _ => exact h.elim

end Expr

namespace Formula

variable {e e' : Expr} {before before' : List Char}

/-- What operands enclose is read first. An operand that encloses nothing ends in its name. -/
theorem enclosed_unique (h : e.IsClear) (h' : e'.IsClear)
    (hreads : ∀ args, e.enclosed? = some args → ∀ arg ∈ args, arg.ReadsFormula)
    (heq : before ++ e.operandLetters = before' ++ e'.operandLetters) :
    before ++ frontLetters e = before' ++ frontLetters e' ∧
      e.enclosed?.map (List.map Expr.bare) = e'.enclosed?.map (List.map Expr.bare) := by
  have hends : ∀ (a : Expr) (front rest : List Char), a.IsClear → a.enclosed? = none →
      front ++ frontLetters a ≠ rest ++ [')'] := by
    intro a front rest ha hnone hends
    cases hname : a.name? with
    | none =>
      obtain ⟨-, hsome⟩ := Expr.parts_of_name?_none ha.hasPlainName hname
      cases hnone.symm.trans hsome
    | some name =>
      have hplain := Expr.isPlain_of_name? ha.hasPlainName hname
      obtain ⟨c, hlast, hc⟩ := getLast?_head a.target? hplain front
      rw [frontLetters, hname] at hends
      rw [show front ++ headLetters a.target? name = rest ++ [')'] from hends,
        List.getLast?_concat] at hlast
      exact hc (Option.some.inj hlast ▸ by decide)
  cases henclosed : e.enclosed? with
  | none =>
    rw [operandLetters_of_none h.hasPlainName henclosed] at heq
    cases henclosed' : e'.enclosed? with
    | none =>
      rw [operandLetters_of_none h'.hasPlainName henclosed'] at heq
      exact ⟨heq, rfl⟩
    | some args' =>
      rw [operandLetters_of_enclosed henclosed', ← List.append_assoc] at heq
      exact absurd heq (hends e _ _ h henclosed)
  | some args =>
    rw [operandLetters_of_enclosed henclosed, ← List.append_assoc] at heq
    cases henclosed' : e'.enclosed? with
    | none =>
      rw [operandLetters_of_none h'.hasPlainName henclosed'] at heq
      exact absurd heq.symm (hends e' _ _ h' henclosed')
    | some args' =>
      rw [operandLetters_of_enclosed henclosed'] at heq
      have hargs : before ++ frontLetters e ++ ['('] ++ argLetters args ++ [')']
          = before' ++ frontLetters e' ++ ['('] ++ argLetters args' ++ [')'] := by
        simpa only [List.append_assoc] using heq
      obtain ⟨hfront, hbare⟩ := args_unique (hreads args henclosed) (h.of_enclosed henclosed)
        (h'.of_enclosed henclosed') (List.append_cancel_right hargs)
      exact ⟨hfront, congrArg some hbare⟩

/-- Then the name is read, and what stands before its dot. -/
theorem front_unique (h : e.IsClear) (h' : e'.IsClear)
    (hreads : ∀ t ∈ e.target?, t.ReadsOperand) (hopens : OpensOperand before)
    (hopens' : OpensOperand before')
    (heq : before ++ frontLetters e = before' ++ frontLetters e') :
    before = before' ∧ e.target?.map Expr.bare = e'.target?.map Expr.bare ∧
      e.name? = e'.name? := by
  -- no operand begins behind a name, as one would that has no name where the other has one
  have hnamed : ∀ (target : Option Expr) (name : String) (front : List Char),
      Text.IsPlain name → ¬ OpensOperand (front ++ headLetters target name) := by
    intro target name front hplain hopen
    obtain ⟨c, hlast, hc⟩ := getLast?_head target hplain front
    exact hc (hopen.not_dot c hlast).1
  unfold frontLetters at heq
  cases hname : e.name? with
  | none =>
    obtain ⟨htarget, -⟩ := Expr.parts_of_name?_none h.hasPlainName hname
    cases hname' : e'.name? with
    | none =>
      obtain ⟨htarget', -⟩ := Expr.parts_of_name?_none h'.hasPlainName hname'
      rw [hname, hname'] at heq
      exact ⟨List.append_cancel_right heq, by rw [htarget, htarget'], rfl⟩
    | some name' =>
      have hplain' := Expr.isPlain_of_name? h'.hasPlainName hname'
      rw [hname, hname'] at heq
      have hbefore : before = before' ++ headLetters e'.target? name' :=
        (List.append_nil before).symm.trans heq
      exact absurd (hbefore ▸ hopens) (hnamed _ name' before' hplain')
  | some name =>
    have hplain := Expr.isPlain_of_name? h.hasPlainName hname
    cases hname' : e'.name? with
    | none =>
      rw [hname, hname'] at heq
      have hbefore : before' = before ++ headLetters e.target? name :=
        (List.append_nil before').symm.trans heq.symm
      exact absurd (hbefore ▸ hopens') (hnamed _ name before hplain)
    | some name' =>
      have hplain' := Expr.isPlain_of_name? h'.hasPlainName hname'
      rw [hname, hname'] at heq
      obtain ⟨hbefore, htarget, hsame⟩ := head_unique
        (fun t ht => ⟨hreads t ht, (h.of_target t ht).2⟩) h'.of_target hplain hplain' hopens
        hopens' heq
      exact ⟨hbefore, htarget, congrArg some hsame⟩

end Formula

namespace Expr

variable {e : Expr}

/-- **Operands are read from the end**, if their target and what they enclose are. -/
theorem readsOperand_of_parts (h : e.IsClear) (htarget : ∀ t ∈ e.target?, t.ReadsOperand)
    (hargs : ∀ args, e.enclosed? = some args → ∀ arg ∈ args, arg.ReadsFormula) :
    e.ReadsOperand := by
  intro e' h' before before' hopens hopens' heq
  obtain ⟨hfront, henclosed⟩ := Formula.enclosed_unique h h' hargs heq
  obtain ⟨hbefore, htargets, hnames⟩ :=
    Formula.front_unique h h' htarget hopens hopens' hfront
  exact ⟨hbefore, bare_eq_of_parts h.hasPlainName h'.hasPlainName hnames htargets henclosed⟩

theorem append_letters_binary (before : List Char) (loc : Handle) (op : Operator)
    (left right : Expr) :
    before ++ (binary loc op left right).letters
      = before ++ left.operandLetters ++ [' '] ++ op.symbol.toList ++ [' ']
        ++ right.operandLetters := by
  simp only [letters_binary, List.append_assoc]

/-- What is no operation is a formula as it is an operand: it is told from an operation by what
precedes the last operand. -/
theorem readsFormula_of_operand (hbinary : ¬ e.isBinary) (hoperand : e.ReadsOperand) :
    e.ReadsFormula := by
  intro e' h' before before' hopens hopens' heq
  rw [← operandLetters_of_not_isBinary hbinary] at heq
  by_cases hbinary' : e'.isBinary
  · cases e' with
    | binary loc op left right =>
      have hright : right.IsClear := h'.children right (List.mem_cons_of_mem _ List.mem_cons_self)
      rw [append_letters_binary] at heq
      obtain ⟨rfl, -⟩ := hoperand right hright _ _ hopens.opensOperand
        (Formula.opensOperand_blank _) heq
      exact absurd hopens (Formula.not_opensFormula_operator _ op)
    | _ => cases hbinary'
  · rw [← operandLetters_of_not_isBinary hbinary'] at heq
    exact hoperand e' h' before before' hopens.opensOperand hopens'.opensOperand heq

/-- An operation is read from its right operand on. -/
theorem readsFormula_binary {loc : Handle} {op : Operator} {left right : Expr}
    (hleft : left.ReadsOperand) (hright : right.ReadsOperand) :
    (binary loc op left right).ReadsFormula := by
  intro e' h' before before' hopens hopens' heq
  rw [append_letters_binary] at heq
  by_cases hbinary' : e'.isBinary
  · cases e' with
    | binary loc' op' left' right' =>
      have hclear' : ∀ c ∈ [left', right'], c.IsClear := h'.children
      rw [append_letters_binary] at heq
      obtain ⟨hfront, hbare⟩ := hright right' (hclear' right' (by simp)) _ _
        (Formula.opensOperand_blank _) (Formula.opensOperand_blank _) heq
      obtain ⟨hoperand, rfl⟩ := Formula.operator_unique hfront
      obtain ⟨hbefore, hbare'⟩ := hleft left' (hclear' left' (by simp)) _ _ hopens.opensOperand
        hopens'.opensOperand hoperand
      exact ⟨hbefore, congrArg₂ (binary .unknown op) hbare' hbare⟩
    | _ => cases hbinary'
  · rw [← operandLetters_of_not_isBinary hbinary'] at heq
    obtain ⟨rfl, -⟩ := hright e' h' _ _ (Formula.opensOperand_blank _) hopens'.opensOperand heq
    exact absurd hopens' (Formula.not_opensFormula_operator _ op)

/-- **Every formula is read from the end of its text**, as an operand and as a whole. -/
theorem IsClear.reads (h : e.IsClear) : e.ReadsOperand ∧ e.ReadsFormula := by
  induction e using inductionOnChildren with
  | node e ih =>
    have hchild : ∀ c ∈ e.children, c.ReadsOperand ∧ c.ReadsFormula :=
      fun c hc => ih c hc (h.children c hc)
    have htarget : ∀ t ∈ e.target?, t.ReadsOperand :=
      fun t ht => (hchild t (mem_children_of_target? ht)).1
    by_cases hbinary : e.isBinary
    · -- an operation is a formula first, and an operand in parentheses by that
      have hformula : e.ReadsFormula := by
        cases e with
        | binary loc op left right =>
          exact readsFormula_binary (hchild left List.mem_cons_self).1
            (hchild right (List.mem_cons_of_mem _ List.mem_cons_self)).1
        | _ => cases hbinary
      refine ⟨readsOperand_of_parts h htarget fun args hargs arg harg => ?_, hformula⟩
      obtain rfl | hmem := eq_or_mem_children_of_enclosed? hargs harg
      · exact hformula
      · exact (hchild arg hmem).2
    · have hoperand : e.ReadsOperand := by
        refine readsOperand_of_parts h htarget fun args hargs arg harg => ?_
        cases e with
        | call loc receiver method args' =>
          obtain rfl := Option.some.inj hargs
          exact (hchild arg (List.mem_append_right _ harg)).2
        | binary loc op left right => exact absurd rfl hbinary
        | _ => cases hargs
      exact ⟨hoperand, readsFormula_of_operand hbinary hoperand⟩

/-! ### Surface text -/

theorem isInline_commas {es : List Expr} (h : ∀ e ∈ es, e.doc.IsInline) :
    (Doc.commas (exprDocs es)).IsInline := by
  induction es with
  | nil => trivial
  | cons e es ih =>
    obtain ⟨hfirst, hrest⟩ := List.forall_mem_cons.mp h
    cases es with
    | nil => exact hfirst
    | cons next es => exact ⟨⟨hfirst, trivial⟩, ih hrest⟩

theorem isInline_operand (isOperation : Bool) {doc : Doc} (h : doc.IsInline) :
    (Doc.operand isOperation doc).IsInline := by
  cases isOperation with
  | true => exact ⟨⟨trivial, h⟩, trivial⟩
  | false => exact h

/-- A formula has no lines to break. -/
theorem IsFormula.isInline (h : e.IsFormula) : e.doc.IsInline := by
  induction e using inductionOnChildren with
  | node e ih =>
    have hchild : ∀ c ∈ e.children, c.doc.IsInline := fun c hc => ih c hc (h.children c hc)
    cases e with
    | var loc name => trivial
    | property loc target name => exact ⟨⟨hchild target List.mem_cons_self, trivial⟩, trivial⟩
    | call loc receiver method args =>
      have hreceiver : (receiverDoc receiver).IsInline := by
        cases receiver with
        | none => trivial
        | some receiver => exact ⟨hchild receiver List.mem_cons_self, trivial⟩
      have hargs := isInline_commas fun arg harg => hchild arg (List.mem_append_right _ harg)
      exact ⟨⟨⟨⟨hreceiver, trivial⟩, trivial⟩, hargs⟩, trivial⟩
    | binary loc op left right =>
      have hleft := isInline_operand left.isBinary (hchild left List.mem_cons_self)
      have hright := isInline_operand right.isBinary
        (hchild right (List.mem_cons_of_mem _ List.mem_cons_self))
      exact ⟨⟨⟨⟨hleft, trivial⟩, trivial⟩, trivial⟩, hright⟩
    | _ => exact h.own.elim

/-- **Surface text shows the operations of a formula**: of formulas without operations before a dot,
no two have the same text, up to handles. -/
theorem surface_shows_operations {e e' : Expr} (h : e.IsFormula) (h' : e'.IsFormula)
    (hdots : e.NoDottedOperation) (hdots' : e'.NoDottedOperation)
    (hsurface : e.surface = e'.surface) : e.bare = e'.bare := by
  have htext : e.letters ++ ['\n'] = e'.letters ++ ['\n'] := by
    unfold surface surfaceAt at hsurface
    rw [Doc.page_of_isInline _ h.isInline, Doc.page_of_isInline _ h'.isInline] at hsurface
    exact String.ofList_inj.mp hsurface
  have hclear : e.IsClear := h.and hdots
  have hclear' : e'.IsClear := h'.and hdots'
  exact (hclear.reads.2 e' hclear' [] [] (.inl rfl) (.inl rfl) (List.append_cancel_right htext)).2

/-- The formula `(a + b) * f(a - b).c`, with the same handle at every node. -/
def sampleFormula (loc : Handle) : Expr :=
  .binary loc .mul (.binary loc .add (.var loc "a") (.var loc "b"))
    (.property loc (.call loc none "f" [.binary loc .sub (.var loc "a") (.var loc "b")]) "c")

theorem everywhere_sampleFormula {p : Expr → Prop} {loc : Handle}
    (hname : ∀ name ∈ ["a", "b"], p (.var loc name))
    (hoperation : ∀ op left right, p (.binary loc op left right))
    (hcall : ∀ args, p (.call loc none "f" args))
    (hproperty : ∀ args, p (.property loc (.call loc none "f" args) "c")) :
    (sampleFormula loc).Everywhere p := by
  have hinner : ∀ op, (binary loc op (var loc "a") (var loc "b")).Everywhere p := by
    intro op
    refine .node (hoperation ..) (List.forall_mem_cons.mpr ⟨?_, List.forall_mem_singleton.mpr ?_⟩)
    · exact .node (hname "a" (by simp)) (List.forall_mem_nil _)
    · exact .node (hname "b" (by simp)) (List.forall_mem_nil _)
  have hright := Everywhere.node (hcall _) (List.forall_mem_singleton.mpr (hinner .sub))
  exact .node (hoperation ..) (List.forall_mem_cons.mpr ⟨hinner .add,
    List.forall_mem_singleton.mpr (.node (hproperty _) (List.forall_mem_singleton.mpr hright))⟩)

theorem isPlain_sampleName : ∀ name ∈ ["a", "b", "c", "f"], Text.IsPlain name := by
  simp [Text.IsPlain, Text.punctuation]

theorem surface_shows_operations_sample :
    (sampleFormula (.entry 0)).IsFormula ∧ (sampleFormula (.entry 0)).NoDottedOperation ∧
    (sampleFormula .unknown).IsFormula ∧ (sampleFormula .unknown).NoDottedOperation ∧
    (sampleFormula (.entry 0)).surface = (sampleFormula .unknown).surface ∧
    (sampleFormula (.entry 0)).bare = (sampleFormula .unknown).bare := by
  have hformula : ∀ loc, (sampleFormula loc).IsFormula := fun loc =>
    everywhere_sampleFormula
      (fun name hname => isPlain_sampleName name (List.mem_append_left ["c", "f"] hname))
      (fun _ _ _ => trivial) (fun _ => isPlain_sampleName "f" (by simp))
      (fun _ => isPlain_sampleName "c" (by simp))
  have hdots : ∀ loc, (sampleFormula loc).NoDottedOperation := fun loc =>
    everywhere_sampleFormula (fun _ _ _ h => nomatch h) (fun _ _ _ _ h => nomatch h)
      (fun _ _ h => nomatch h) (fun _ t h => by obtain rfl := Option.some.inj h; nofun)
  have hsurface : (sampleFormula (.entry 0)).surface = (sampleFormula .unknown).surface := rfl
  exact ⟨hformula _, hdots _, hformula _, hdots _, hsurface,
    surface_shows_operations (hformula _) (hformula _) (hdots _) (hdots _) hsurface⟩

/-! ### Operations before a dot -/

/-- **An operation before a dot** reads as if the dot belonged to its right operand. -/
theorem surface_dotted_operation (loc loc' : Handle) (op : Operator) {left right : Expr}
    {name : String} (hleft : left.IsFormula) (hright : right.IsFormula)
    (hbinary : ¬ right.isBinary) (hname : Text.IsPlain name) :
    (property loc (binary loc' op left right) name).IsFormula ∧
    (binary loc' op left (property loc right name)).IsFormula ∧
    (property loc (binary loc' op left right) name).surface
      = (binary loc' op left (property loc right name)).surface := by
  have hdotted : (property loc (binary loc' op left right) name).IsFormula :=
    .node hname (List.forall_mem_singleton.mpr (.node trivial
      (List.forall_mem_cons.mpr ⟨hleft, List.forall_mem_singleton.mpr hright⟩)))
  have hinner : (binary loc' op left (property loc right name)).IsFormula :=
    .node trivial (List.forall_mem_cons.mpr ⟨hleft, List.forall_mem_singleton.mpr
      (.node hname (List.forall_mem_singleton.mpr hright))⟩)
  have hletters : (property loc (binary loc' op left right) name).letters
      = (binary loc' op left (property loc right name)).letters := by
    have hproperty : ∀ target, (property loc target name).letters
        = target.letters ++ ['.'] ++ name.toList := fun _ => rfl
    rw [hproperty, letters_binary, letters_binary, operandLetters_of_not_isBinary hbinary,
      operandLetters_of_not_isBinary (nofun : ¬ (property loc right name).isBinary), hproperty]
    simp only [List.append_assoc]
  refine ⟨hdotted, hinner, ?_⟩
  unfold surface surfaceAt
  rw [Doc.page_of_isInline _ hdotted.isInline, Doc.page_of_isInline _ hinner.isInline]
  exact congrArg (fun cs => String.ofList (cs ++ ['\n'])) hletters

/-- The property of a sum has the same text as the sum with a property. -/
theorem surface_confuses_dotted_operation :
    ∃ e e' : Expr, e.IsFormula ∧ e'.IsFormula ∧ e.surface = e'.surface ∧ e.bare ≠ e'.bare := by
  have hvar : ∀ name ∈ ["a", "b"], (var .unknown name).IsFormula := fun name hname =>
    .node (isPlain_sampleName name (List.mem_append_left ["c", "f"] hname)) (List.forall_mem_nil _)
  obtain ⟨hdotted, hinner, hsurface⟩ := surface_dotted_operation .unknown .unknown .add
    (hvar "a" (by simp)) (hvar "b" (by simp)) nofun (isPlain_sampleName "c" (by simp))
  exact ⟨_, _, hdotted, hinner, hsurface, nofun⟩

end Expr

end FlowDesugar
