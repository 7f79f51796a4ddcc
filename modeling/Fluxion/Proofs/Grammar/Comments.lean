import Mathlib.Data.List.Basic
import Fluxion.Proofs.Grammar.Programs
import Fluxion.Proofs.Text.Blanked

/-!
Printed programs hold no comments: a slash is an operator or begins one, and a blank or a `=` follows
it.
-/

namespace Fluxion

namespace Text

variable {c : Char} {cs ds : List Char}

/-- Every slash is followed by another character, so that no comment begins in the text, whatever
comes after it. -/
def isBare : List Char → Bool
  | [] => true
  | c :: cs => (c != '/' || cs.head?.any (· != '/')) && isBare cs

theorem isBare_cons (hc : c ≠ '/') (h : isBare cs = true) : isBare (c :: cs) = true := by
  simp [isBare, hc, h]

theorem isBare_append (hcs : isBare cs = true) (hds : isBare ds = true) :
    isBare (cs ++ ds) = true := by
  induction cs with
  | nil => exact hds
  | cons c cs ih =>
    simp only [isBare, Bool.and_eq_true, List.cons_append] at hcs ⊢
    refine ⟨?_, ih hcs.2⟩
    cases cs with
    | nil =>
      have hc : c ≠ '/' := by simpa using hcs.1
      simp [hc]
    | cons d cs => exact hcs.1

theorem isBare_of_forall (h : ∀ c ∈ cs, c ≠ '/') : isBare cs = true := by
  induction cs with
  | nil => rfl
  | cons c cs ih =>
    exact isBare_cons (h c List.mem_cons_self) (ih fun d hd => h d (List.mem_cons_of_mem c hd))

/-- Blanking the comments changes nothing in a text without any. -/
theorem blankFrom_eq_self (h : isBare cs = true) : blankFrom false cs = cs := by
  refine blankFrom_eq_self_of_not_infix ?_
  rintro ⟨before, after, rfl⟩
  induction before with
  | nil => simp [isBare] at h
  | cons c before ih =>
    rw [List.cons_append, List.cons_append, isBare, Bool.and_eq_true] at h
    exact ih h.2

end Text

namespace Grammar

open Fluxion.Text Fluxion.Decimal

variable {e : Expr} {k depth : Nat}

/-! ### Words -/

theorem isBare_word {w : List Char} (h : isWord w = true) : isBare w = true :=
  isBare_of_forall fun c hc he => by
    have hpart := isIdentPart_of_mem h c hc
    rw [he] at hpart
    exact absurd hpart (by decide)

theorem isBare_isIdent {x : String} (h : isIdent x = true) : isBare x.toList = true :=
  isBare_word (isIdent_iff.mp h).1

theorem isBare_digits {ds : List Char} (h : areDigits ds = true) : isBare ds = true :=
  isBare_of_forall fun c hc he => by
    have hdigit := List.all_eq_true.mp h c hc
    rw [he] at hdigit
    exact absurd hdigit (by decide)

theorem isBare_intercalate {sep : String} {texts : List String} (hsep : isBare sep.toList = true)
    (h : ∀ t ∈ texts, isBare t.toList = true) : isBare (sep.intercalate texts).toList = true := by
  cases texts with
  | nil => rfl
  | cons t texts =>
    rw [toList_intercalate_cons]
    refine isBare_append (h t List.mem_cons_self) ?_
    induction texts with
    | nil => rfl
    | cons u texts ih =>
      rw [tailText_cons]
      refine isBare_append hsep (isBare_append (h u (by simp)) (ih ?_))
      intro x hx
      exact h x (by rcases List.mem_cons.mp hx with rfl | hx <;> simp [*])

theorem isBare_path {f : String} (h : IsPath f) : isBare f.toList = true := by
  obtain ⟨first, parts, hparts, rfl⟩ := h
  exact isBare_intercalate (by decide) fun x hx => isBare_isIdent (hparts x hx)

theorem isBare_power {power : List Char} {exp : Int} (h : PowerText power exp) :
    isBare power = true := by
  cases h with
  | missing => rfl
  | positive _ hds => exact isBare_cons (by decide) (isBare_digits hds)
  | negative _ hds => exact isBare_cons (by decide) (isBare_cons (by decide) (isBare_digits hds))

theorem isBare_spells {text : List Char} {w : Decimal.Written} (h : Spells text w) : isBare text = true := by
  obtain ⟨hwhole, hfrac, power, hpower, rfl, -⟩ := h
  have hpoint : isBare (fractionText w.frac) = true := by
    cases hf : w.frac with
    | nil => rfl
    | cons d ds => exact isBare_cons (by decide) (hf ▸ isBare_digits hfrac)
  exact isBare_append (isBare_digits (areDigits_of_isWhole hwhole))
    (isBare_append hpoint (isBare_power hpower))

theorem isBare_ty (t : Ty) : isBare t.text.toList = true := by
  induction t with
  | float | int | bool | void => decide
  | ref t ih =>
    rw [Ty.text, String.toList_append]
    exact isBare_append (by decide) ih
  | tape t ih =>
    rw [Ty.text, String.toList_append, String.toList_append]
    exact isBare_append (isBare_append (by decide) ih) (by decide)
  | array t len ih =>
    rw [toList_text_array]
    refine isBare_cons (by decide) (isBare_append ih (isBare_append ?_ (by decide)))
    cases len with
    | none => rfl
    | some n =>
      exact isBare_cons (by decide) (isBare_cons (by decide) (isBare_digits (areDigits_toDigits n)))

/-! ### Expressions -/

/-- An operator with the blank after it. -/
theorem isBare_operator (op : BinOp) {cs : List Char} (h : isBare cs = true) :
    isBare (op.symbol.toList ++ ' ' :: cs) = true := by
  have hop : isBare (op.symbol.toList ++ [' ']) = true := by cases op <;> decide
  simpa using isBare_append hop h

theorem isBare_parenthesized {needed : Bool} {text : String} (h : isBare text.toList = true) :
    isBare (parenthesized needed text).toList = true := by
  cases needed with
  | false => exact h
  | true =>
    rw [parenthesized, if_pos rfl, String.toList_append, String.toList_append]
    exact isBare_append (isBare_append (by decide) h) (by decide)

theorem isBare_expr (e : Expr) (k : Nat) (h : e.Printable) : isBare (e.chars k) = true := by
  induction e using Expr.rec (motive_2 := fun es => ∀ e ∈ es, ∀ k, e.Printable →
    isBare (e.chars k) = true) generalizing k with
  | float v =>
    obtain ⟨-, w, hw, -⟩ := h.spellable
    rw [chars_float h.spellable]
    exact isBare_spells hw
  | int v =>
    obtain ⟨n, hn, rfl⟩ := exists_ofNat h.spellable
    rw [chars_int hn]
    exact isBare_digits (areDigits_toDigits n)
  | bool v =>
    rw [chars_bool]
    cases v <;> decide
  | var x => exact isBare_isIdent h.spellable
  | funcRef f =>
    rw [chars_funcRef]
    exact isBare_cons (by decide) (isBare_path h.spellable)
  | index x i ih =>
    rw [chars_index]
    exact isBare_append (isBare_isIdent h.spellable)
      (isBare_cons (by decide) (isBare_append (ih 0 h.index) (by decide)))
  | call f args ih =>
    rw [chars_call]
    refine isBare_append (isBare_path h.spellable)
      (isBare_cons (by decide) (isBare_append ?_ (by decide)))
    refine isBare_intercalate (by decide) ?_
    intro text htext
    obtain ⟨arg, harg, rfl⟩ := List.mem_map.mp htext
    exact ih arg harg 0 (h.arg harg)
  | unary op e ih =>
    rw [Expr.chars, Expr.textAt]
    apply isBare_parenthesized
    rw [String.toList_append]
    exact isBare_append (by cases op <;> decide) (ih _ h.unary)
  | binary op l r ihl ihr =>
    rw [Expr.chars, Expr.textAt]
    apply isBare_parenthesized
    simp only [String.toList_append, List.append_assoc]
    refine isBare_append (ihl _ h.left) (isBare_cons (by decide) ?_)
    exact isBare_operator op (ihr _ h.right)
  | nil e he => simp at he
  | cons e es ihe ihes e' he' k h =>
    rcases List.mem_cons.mp he' with rfl | hmem
    · exact ihe k h
    · exact ihes e' hmem k h

/-! ### Statements -/

theorem isBare_place {p : Place} (hname : isIdent p.name = true) (hp : spelled.Place p) :
    isBare p.text.toList = true := by
  rw [toList_text_place]
  exact isBare_expr _ 0 (printable_toExpr hname hp)

theorem isBare_assignment {a : Assignment} (ha : spelled.Assignment a) : isBare a.text.toList = true := by
  have htext : a.text.toList =
      a.place.text.toList ++ ' ' :: ((a.op.symbol.toList ++ [' ']) ++ a.value.chars 0) := by
    simp [Assignment.text, Expr.text, Expr.chars]
  have hop : isBare (a.op.symbol.toList ++ [' ']) = true := by cases a.op <;> decide
  rw [htext]
  exact isBare_append (isBare_place ha.1 ha.2.1)
    (isBare_cons (by decide) (isBare_append hop (isBare_expr _ 0 ha.2.2)))

theorem isBare_local {d : Local} (hd : spelled.Local d) : isBare d.text.toList = true := by
  have hinit : isBare (initText d.init) = true := by
    cases he : d.init with
    | none => rfl
    | some e =>
      exact isBare_cons (by decide) (isBare_cons (by decide) (isBare_cons (by decide)
        (isBare_expr e 0 (hd.2 e he))))
  rw [toList_text_local]
  exact isBare_append (by decide) (isBare_append (isBare_isIdent hd.1.1)
    (isBare_cons (by decide) (isBare_cons (by decide) (isBare_append (isBare_ty d.ty) hinit))))

theorem isBare_header {init : Option LoopInit} {test : Option Expr} {step : Option Assignment}
    (hinit : ∀ i, init = some i → spelled.Init i) (htest : ∀ e, test = some e → e.Printable)
    (hstep : ∀ a, step = some a → spelled.Assignment a) :
    isBare (headerChars init test step) = true := by
  have hfirst : isBare ((init.map LoopInit.text).getD "").toList = true := by
    cases init with
    | none => rfl
    | some i =>
      cases i with
      | decl d => exact isBare_local (hinit _ rfl)
      | assign a => exact isBare_assignment (hinit _ rfl)
  have hsecond : isBare ((test.map Expr.text).getD "").toList = true := by
    cases test with
    | none => rfl
    | some e => exact isBare_expr e 0 (htest e rfl)
  have hthird : isBare ((step.map Assignment.text).getD "").toList = true := by
    cases step with
    | none => rfl
    | some a => exact isBare_assignment (hstep a rfl)
  exact isBare_append hfirst (isBare_cons (by decide) (isBare_cons (by decide)
    (isBare_append hsecond (isBare_cons (by decide) (isBare_cons (by decide) hthird)))))

theorem isBare_blanks (depth : Nat) : isBare (blanks depth) = true :=
  isBare_of_forall fun c hc => by
    rw [List.eq_of_mem_replicate hc]
    decide

theorem isBare_block {body : List Stmt} (h : ∀ depth, isBare (linesChars depth body) = true) :
    isBare (blockChars depth body) = true :=
  isBare_cons (by decide) (isBare_cons (by decide) (isBare_append (h _)
    (isBare_append (isBare_blanks depth) (by decide))))

/-- A word, a blank and what stands in parentheses, with a blank after them. -/
theorem isBare_clause {word cs ds : List Char} (hword : isBare word = true) (hcs : isBare cs = true)
    (hds : isBare ds = true) : isBare (word ++ ' ' :: '(' :: (cs ++ ')' :: ' ' :: ds)) = true :=
  isBare_append hword (isBare_cons (by decide) (isBare_cons (by decide)
    (isBare_append hcs (isBare_cons (by decide) (isBare_cons (by decide) hds)))))

/-- Neither a list of lines nor what stands after the first branch of an `if` holds a comment. -/
def BareLines (body : List Stmt) : Prop :=
  ∀ depth, isBare (linesChars depth body) = true ∧ isBare (elseChars depth body) = true

theorem BareLines.block {body : List Stmt} (h : BareLines body) :
    isBare (blockChars depth body) = true := isBare_block fun depth => (h depth).1

theorem isBare_stmt (s : Stmt) (depth : Nat) (h : spelled.Stmt s) : isBare (stmtChars depth s) = true := by
  induction s using Stmt.rec (motive_2 := fun body => spelled.Body body → BareLines body)
    generalizing depth with
  | decl d =>
    rw [stmtChars_decl]
    exact isBare_append (isBare_local h) (by decide)
  | arrayDecl x elem len =>
    rw [stmtChars_arrayDecl]
    refine isBare_append (by decide) (isBare_append (isBare_isIdent h.1.1) ?_)
    refine isBare_cons (by decide) (isBare_cons (by decide) (isBare_cons (by decide) ?_))
    refine isBare_append (isBare_ty elem) (isBare_cons (by decide) (isBare_cons (by decide) ?_))
    exact isBare_append (isBare_expr len 0 h.2) (by decide)
  | assign a =>
    rw [stmtChars_assign]
    exact isBare_append (isBare_assignment h) (by decide)
  | cond test yes no ihyes ihno =>
    rw [stmtChars_cond]
    exact isBare_clause (by decide) (isBare_expr test 0 h.1)
      (isBare_append (ihyes h.2.1).block (ihno h.2.2 depth).2)
  | for_ init test step body ih =>
    rw [stmtChars_for]
    exact isBare_clause (by decide) (isBare_header h.1 h.2.1 h.2.2.1) (ih h.2.2.2).block
  | while_ test body ih =>
    rw [stmtChars_while]
    exact isBare_clause (by decide) (isBare_expr test 0 h.1) (ih h.2).block
  | ret value =>
    cases value with
    | none =>
      rw [stmtChars_ret_none]
      decide
    | some e =>
      rw [stmtChars_ret_some]
      exact isBare_append (by decide) (isBare_cons (by decide)
        (isBare_append (isBare_expr e 0 (h.2 e rfl)) (by decide)))
  | expr e =>
    rw [stmtChars_expr]
    exact isBare_append (isBare_expr e 0 h) (by decide)
  | block body ih =>
    rw [stmtChars_block]
    exact (ih h).block
  | nil h =>
    intro depth
    rw [linesChars_nil, elseChars_nil]
    decide
  | cons s body ihs ihbody h =>
    have hlines : ∀ depth, isBare (linesChars depth (s :: body)) = true := by
      intro depth
      rw [linesChars_cons]
      exact isBare_append (isBare_blanks depth) (isBare_append (ihs depth h.1)
        (isBare_cons (by decide) (ihbody h.2 depth).1))
    refine fun depth => ⟨hlines depth, ?_⟩
    by_cases hcond : ∃ test yes no, s :: body = [.cond test yes no]
    · obtain ⟨test, yes, no, hcond⟩ := hcond
      obtain ⟨rfl, rfl⟩ := List.cons.inj hcond
      rw [elseChars_cond]
      exact isBare_append (by decide) (ihs depth h.1)
    · rw [elseChars_block fun test yes no he => hcond ⟨test, yes, no, he⟩]
      exact isBare_append (by decide) (isBare_block hlines)

theorem isBare_lines {body : List Stmt} (h : spelled.Body body) (depth : Nat) :
    isBare (linesChars depth body) = true := by
  induction body with
  | nil =>
    rw [linesChars_nil]
    rfl
  | cons s body ih =>
    rw [linesChars_cons]
    exact isBare_append (isBare_blanks depth) (isBare_append (isBare_stmt s depth h.1)
      (isBare_cons (by decide) (ih h.2)))

/-! ### Programs -/

theorem isBare_head {name : String} {params : List Param} {ret : Ty} (hname : isIdent name = true)
    (hparams : ∀ p ∈ params, isIdent p.name = true) : isBare (headChars name params ret) = true := by
  have hret : isBare (retChars ret) = true := by
    by_cases hvoid : ret = .void
    · rw [retChars, if_pos hvoid]
      rfl
    · rw [retChars, if_neg hvoid]
      exact isBare_cons (by decide) (isBare_cons (by decide) (isBare_cons (by decide)
        (isBare_cons (by decide) (isBare_ty ret))))
  have hlist : isBare (", ".intercalate (params.map Param.text)).toList = true := by
    refine isBare_intercalate (by decide) ?_
    intro text htext
    obtain ⟨p, hp, rfl⟩ := List.mem_map.mp htext
    rw [Param.text, String.toList_append, String.toList_append]
    exact isBare_append (isBare_append (isBare_isIdent (hparams p hp)) (by decide)) (isBare_ty p.ty)
  exact isBare_append (isBare_isIdent hname) (isBare_cons (by decide)
    (isBare_append hlist (isBare_cons (by decide) hret)))

theorem isBare_func {f : Func} {name : String} (hf : f.Spelled) (hname : isIdent name = true) :
    isBare (funcChars f name depth) = true := by
  have hhead : isBare (headChars name f.params f.ret) = true :=
    isBare_head hname fun p hp => (hf.params p hp).1
  have hbody : isBare (bodyChars depth f.body) = true := by
    cases hb : f.body with
    | none => exact isBare_cons (by decide) rfl
    | some body =>
      exact isBare_cons (by decide) (isBare_block fun depth => isBare_lines (hf.body body hb).1 depth)
  have hword : isBare (if f.body.isNone then "extern ".toList else []) = true := by
    cases f.body with
    | none => decide
    | some body => rfl
  exact isBare_append hword (isBare_append (by decide) (isBare_append hhead hbody))

theorem isBare_nested {f : Func} {base : String} {names : List String} (hf : f.Spelled)
    (hbase : isIdent base = true) (hnames : ∀ x ∈ names, isIdent x = true) :
    isBare (nestedChars f base depth names) = true := by
  induction names generalizing depth with
  | nil => exact isBare_func hf hbase
  | cons ns names ih =>
    have hinner : isBare (nestedChars f base (depth + 1) names) = true :=
      ih fun x hx => hnames x (List.mem_cons_of_mem ns hx)
    have hclose : isBare (blanks depth ++ ['\x7d']) = true :=
      isBare_append (isBare_blanks depth) (by decide)
    rw [nestedChars]
    refine isBare_append (by decide) (isBare_cons (by decide)
      (isBare_append (isBare_isIdent (hnames ns List.mem_cons_self)) ?_))
    refine isBare_cons (by decide) (isBare_cons (by decide) (isBare_cons (by decide) ?_))
    exact isBare_append (isBare_blanks _) (isBare_append hinner (isBare_cons (by decide) hclose))

theorem isBare_funcText {f : Func} (hf : f.Spelled) : isBare f.text.toList = true := by
  obtain ⟨first, parts, hparts, hname⟩ := hf.name
  have hnames : nameParts f.name = first :: parts := by rw [hname, nameParts_intercalate hparts]
  rw [Func.text, toList_inNamespaces]
  refine isBare_append (isBare_blanks 0) (isBare_append (isBare_nested hf ?_ ?_) (by decide))
  · rw [Func.baseName, hnames, List.getLastD_eq_getLast?, List.getLast?_eq_some_getLast (by simp),
      Option.getD_some]
    exact hparts _ (List.getLast_mem _)
  · rw [hnames]
    exact fun x hx => hparts x (List.dropLast_subset _ hx)

/-- The text of a program is parsed as it stands. -/
theorem blankComments_text {p : Program} (hp : ∀ f ∈ p, f.Spelled) :
    blankComments p.text = p.text.toList := by
  apply blankFrom_eq_self
  refine isBare_intercalate (by decide) ?_
  intro text htext
  obtain ⟨f, hf, rfl⟩ := List.mem_map.mp htext
  exact isBare_funcText (hp f hf)

end Grammar

end Fluxion
