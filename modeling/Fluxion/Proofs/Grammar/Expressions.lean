import Mathlib.Data.List.Basic
import Fluxion.Lang.Printer
import Fluxion.Proofs.Grammar.Operators
import Fluxion.Proofs.Runs.Code

/-!
Printed expressions read back. The text of an expression at a precedence is read by the levels of
that precedence, before anything that may follow there.
-/

namespace Fluxion

/-- The name or the literal at the top of the expression is one that a program can have, where the
floats that it can have are those of `F`. -/
def Expr.Wellspelt (F : Float → Prop) : Expr → Prop
  | .float v => F v
  | .int v => 0 ≤ v
  | .var x => Grammar.isIdent x = true
  | .index x _ => Grammar.isIdent x = true
  | .call f _ => Grammar.IsPath f
  | .funcRef f => Grammar.IsPath f
  | _ => True

/-- The name or the literal at the top of the expression can be written down. -/
def Expr.Spellable (e : Expr) : Prop := e.Wellspelt Decimal.ReadsBack

/-- All names and literals in the expression can be written down. -/
def Expr.Printable (e : Expr) : Prop := ∀ part ∈ e.parts, part.Spellable

namespace Expr.Printable

variable {e l r : Expr}

theorem spellable (h : e.Printable) : e.Spellable := h e e.mem_parts

theorem index {x : String} (h : (Expr.index x e).Printable) : e.Printable :=
  fun part hp => h part (by simp [Expr.parts, hp])

theorem unary {op : UnOp} (h : (Expr.unary op e).Printable) : e.Printable :=
  fun part hp => h part (by simp [Expr.parts, hp])

theorem left {op : BinOp} (h : (Expr.binary op l r).Printable) : l.Printable :=
  fun part hp => h part (by simp [Expr.parts, hp])

theorem right {op : BinOp} (h : (Expr.binary op l r).Printable) : r.Printable :=
  fun part hp => h part (by simp [Expr.parts, hp])

theorem arg {f : String} {es : List Expr} (h : (Expr.call f es).Printable) (he : e ∈ es) :
    e.Printable := by
  intro part hp
  apply h part
  rw [Expr.parts, List.mem_cons, Rule.mem_partsList]
  exact .inr ⟨e, he, hp⟩

end Expr.Printable

/-- The characters of an expression, for a position that asks for at least a precedence. -/
def Expr.chars (k : Nat) (e : Expr) : List Char := (e.textAt k).toList

namespace Grammar

open Fluxion.Grammar.Parser Fluxion.Decimal

variable {cs rest : List Char} {e : Expr} {k n : Nat}

/-! ### Texts of expressions -/

theorem exists_ofNat {v : Int64} (h : 0 ≤ v) : ∃ n, n < 2 ^ 63 ∧ v = Int64.ofNat n := by
  have hv : 0 ≤ v.toInt := by simpa using Int64.le_iff_toInt_le.mp h
  have hlt : v.toInt < 2 ^ 63 := Int64.toInt_lt v
  obtain ⟨n, hn⟩ := Int.eq_ofNat_of_zero_le hv
  refine ⟨n, by omega, ?_⟩
  apply Int64.toInt_inj.mp
  rw [Int64.toInt_ofNat_of_lt (by omega), hn]

/-- An integer from zero on is written with the digits of its value. -/
theorem chars_int (hn : n < 2 ^ 63) : (Expr.int (Int64.ofNat n)).chars k = Nat.toDigits 10 n := by
  have hint : (Int64.ofNat n).toInt = n := Int64.toInt_ofNat_of_lt (by omega)
  have hneg : decide (Int64.ofNat n < 0) = false := by
    rw [decide_eq_false_iff_not, Int64.lt_iff_toInt_lt, hint]
    simp
  rw [Expr.chars, Expr.textAt, hneg, hint]
  exact toList_toString_nat n

theorem chars_float {v : Float} (h : ReadsBack v) :
    (Expr.float v).chars k = (render .literal v).toList := by
  rw [Expr.chars, Expr.textAt, h.1]
  rfl

theorem chars_bool (v : Bool) :
    (Expr.bool v).chars k = (if v then "true" else "false").toList := rfl

theorem chars_var (x : String) : (Expr.var x).chars k = x.toList := rfl

theorem chars_funcRef (f : String) : (Expr.funcRef f).chars k = '&' :: f.toList := by
  simp [Expr.chars, Expr.textAt_funcRef]

theorem chars_index (x : String) (e : Expr) :
    (Expr.index x e).chars k = x.toList ++ '[' :: (e.chars 0 ++ [']']) := by
  simp [Expr.chars, Expr.textAt]

theorem textsOf_eq (es : List Expr) : textsOf es = es.map (Expr.textAt 0) := by
  induction es with
  | nil => rfl
  | cons e es ih => rw [textsOf, ih, List.map_cons]

theorem chars_call (f : String) (es : List Expr) : (Expr.call f es).chars k =
    f.toList ++ '(' :: ((", ".intercalate (es.map (Expr.textAt 0))).toList ++ [')']) := by
  simp [Expr.chars, Expr.textAt, textsOf_eq]

theorem chars_unary (op : UnOp) (e : Expr) (hk : k ≤ 7) :
    (Expr.unary op e).chars k = op.symbol.toList ++ e.chars 7 := by
  have hneeded : ¬ 7 < k := by omega
  simp [Expr.chars, Expr.textAt, hneeded, parenthesized, unaryPrecedence]

/-- A binary operator with its operands, without parentheses around. -/
theorem chars_binary {op : BinOp} (l r : Expr) (hk : k ≤ op.precedence) :
    (Expr.binary op l r).chars k =
      l.chars op.precedence ++ ' ' :: (op.symbol.toList ++ ' ' :: r.chars (op.precedence + 1)) := by
  have hneeded : decide (op.precedence < k) = false := by
    rw [decide_eq_false_iff_not]
    omega
  simp [Expr.chars, Expr.textAt, hneeded, parenthesized]

theorem chars_parenthesized {op : BinOp} (l r : Expr) (hk : op.precedence < k) :
    (Expr.binary op l r).chars k = '(' :: ((Expr.binary op l r).chars 0 ++ [')']) := by
  simp [Expr.chars, Expr.textAt, hk, parenthesized]

/-- Whether parentheses are needed changes only where an operator's own precedence is asked for. -/
theorem chars_succ (hk : k ≤ 6) (h : ∀ op l r, e = .binary op l r → op.precedence ≠ k) :
    e.chars k = e.chars (k + 1) := by
  cases e with
  | unary op e => rw [chars_unary op e (by omega), chars_unary op e (by omega)]
  | binary op l r =>
    have hne := h op l r rfl
    rcases Nat.lt_or_ge op.precedence k with hlt | hge
    · rw [chars_parenthesized l r hlt, chars_parenthesized (k := k + 1) l r (by omega)]
    · rw [chars_binary l r hge, chars_binary l r (by omega)]
  | float _ | int _ | bool _ | var _ | index _ _ | call _ _ | funcRef _ => rfl

theorem one_le_precedence (op : BinOp) : 1 ≤ op.precedence := by cases op <;> decide

theorem precedence_le_six (op : BinOp) : op.precedence ≤ 6 := by cases op <;> decide

theorem chars_zero (e : Expr) : e.chars 0 = e.chars 1 :=
  chars_succ (by decide) fun op _ _ _ h => by
    have := one_le_precedence op
    omega

/-! ### Beginnings -/

/-- The words that statements begin with or go on with. -/
def statementWords : List String := ["let", "if", "else", "for", "while", "return"]

/-- How the text of an expression begins. -/
structure StartsExpr (cs : List Char) : Prop where
  head : ∃ c cs', cs = c :: cs' ∧ (isIdentPart c = true ∨ c ∈ ['&', '(', '-', '!'])
  word : ∀ text ∈ statementWords, wordOf cs ≠ text.toList

theorem StartsExpr.of_head {c : Char} (hc : isIdentStart c = false)
    (h : isIdentPart c = true ∨ c ∈ ['&', '(', '-', '!']) : StartsExpr (c :: cs) := by
  refine ⟨⟨c, cs, rfl, h⟩, ?_⟩
  intro text htext he
  have hstart : ∀ t ∈ statementWords, ∃ d ds, t.toList = d :: ds ∧ isIdentStart d = true := by
    simp only [statementWords, List.forall_mem_cons]
    exact ⟨⟨_, _, rfl, by decide⟩, ⟨_, _, rfl, by decide⟩, ⟨_, _, rfl, by decide⟩,
      ⟨_, _, rfl, by decide⟩, ⟨_, _, rfl, by decide⟩, ⟨_, _, rfl, by decide⟩, by simp⟩
  obtain ⟨d, ds, hd, hds⟩ := hstart text htext
  rw [hd, wordOf] at he
  cases hp : isIdentPart c with
  | false => simp [hp] at he
  | true =>
    rw [List.takeWhile_cons_of_pos hp] at he
    obtain ⟨rfl, _⟩ := List.cons.inj he
    rw [hc] at hds
    exact Bool.noConfusion hds

theorem StartsExpr.of_word {w : List Char} (hw : isWord w = true) (hrest : EndsWord rest)
    (h : ∀ text ∈ statementWords, w ≠ text.toList) : StartsExpr (w ++ rest) := by
  refine ⟨?_, ?_⟩
  · cases w with
    | nil => simp [isWord] at hw
    | cons c cs => exact ⟨c, cs ++ rest, rfl, .inl (isIdentPart_of_mem hw c List.mem_cons_self)⟩
  · rwa [wordOf_append hw hrest]

theorem StartsExpr.of_isIdent {x : String} (hx : isIdent x = true) (hrest : EndsWord rest) :
    StartsExpr (x.toList ++ rest) := by
  rw [isIdent_iff] at hx
  refine .of_word hx.1 hrest ?_
  intro text htext he
  have hkey : ∀ t ∈ statementWords, t ∈ keywords := by decide
  exact hx.2 (String.toList_inj.mp he ▸ hkey text htext)

theorem StartsExpr.of_isWhole {ds : List Char} (h : isWhole ds = true) : StartsExpr (ds ++ rest) := by
  obtain ⟨c, cs, rfl, hc⟩ := exists_cons_of_isWhole h
  exact .of_head (isIdentStart_eq_false_of_isDigit hc) (.inl (isIdentPart_of_isDigit hc))

/-- A path begins with its first identifier, which ends before `::` or where the path does. -/
theorem IsPath.split {f : String} (h : IsPath f) (c : Char) (rest : List Char) :
    ∃ x d cs, isIdent x = true ∧ f.toList ++ c :: rest = x.toList ++ d :: cs ∧ (d = ':' ∨ d = c) := by
  obtain ⟨first, parts, hparts, rfl⟩ := h
  rw [toList_intercalate_cons, List.append_assoc]
  cases parts with
  | nil => exact ⟨first, c, rest, hparts first List.mem_cons_self, rfl, .inr rfl⟩
  | cons y ys =>
    exact ⟨first, ':', _, hparts first List.mem_cons_self, by rw [tailText_cons]; rfl, .inl rfl⟩

theorem startsExpr (e : Expr) (k : Nat) (rest : List Char) (h : e.Printable) (hk : k ≤ 7)
    (hrest : EndsWord rest) : StartsExpr (e.chars k ++ rest) := by
  induction e using Expr.rec (motive_2 := fun _ => True) generalizing k rest with
  | float v =>
    rw [chars_float h.spellable]
    obtain ⟨-, w, ⟨hwhole, -, power, -, htext, -⟩, -⟩ := h.spellable
    rw [htext, List.append_assoc]
    exact .of_isWhole hwhole
  | int v =>
    obtain ⟨n, hn, rfl⟩ := exists_ofNat h.spellable
    rw [chars_int hn]
    exact .of_isWhole (isWhole_toDigits n)
  | bool v =>
    rw [chars_bool]
    cases v
    · exact .of_word (w := "false".toList) (by decide) hrest (by decide)
    · exact .of_word (w := "true".toList) (by decide) hrest (by decide)
  | var x => exact .of_isIdent h.spellable hrest
  | funcRef f =>
    rw [chars_funcRef]
    exact .of_head (by decide) (.inr (by decide))
  | index x i _ =>
    rw [chars_index, List.append_assoc]
    exact .of_isIdent h.spellable (endsWord_cons (by decide))
  | call f args _ =>
    rw [chars_call, List.append_assoc, List.cons_append]
    obtain ⟨x, d, cs, hx, htext, hd⟩ := IsPath.split (f := f) h.spellable '(' _
    rw [htext]
    exact .of_isIdent hx (endsWord_cons (by rcases hd with rfl | rfl <;> decide))
  | unary op e _ =>
    rw [chars_unary op e hk]
    cases op
    · exact .of_head (c := '-') (by decide) (.inr (by decide))
    · exact .of_head (c := '!') (by decide) (.inr (by decide))
  | binary op l r ihl _ =>
    rcases Nat.lt_or_ge op.precedence k with hlt | hge
    · rw [chars_parenthesized l r hlt]
      exact .of_head (by decide) (.inr (by decide))
    · rw [chars_binary l r hge, List.append_assoc]
      have hle := precedence_le_six op
      exact ihl op.precedence _ h.left (by omega) (endsWord_cons (by decide))
  | nil => trivial
  | cons _ _ _ _ => trivial

theorem StartsExpr.not_blank (h : StartsExpr cs) :
    ∃ c cs', cs = c :: cs' ∧ Text.isBlank c = false ∧ c ≠ '=' := by
  obtain ⟨c, cs', rfl, hc⟩ := h.head
  refine ⟨c, cs', rfl, ?_, ?_⟩
  · rcases hc with hc | hc
    · exact isBlank_eq_false_of_isIdentPart hc
    · simp only [List.mem_cons, List.not_mem_nil, or_false] at hc
      rcases hc with rfl | rfl | rfl | rfl <;> decide
  · rintro rfl
    simp [isIdentPart] at hc

theorem StartsExpr.skip (h : StartsExpr cs) : skip cs = cs := by
  obtain ⟨c, cs', rfl, hb, -⟩ := h.not_blank
  exact skip_cons hb

/-! ### Operands without operators -/

variable {limit : Nat} {inner : Parser Expr}

/-- A call. -/
def callAtom (limit : Nat) (inner : Parser Expr) : Parser Expr := do
  let f ← path limit
  let args ← between '(' ')' (items limit inner (symbol ','))
  return .call f args

/-- An element of an array. -/
def indexAtom (inner : Parser Expr) : Parser Expr := do
  let x ← ident
  let i ← between '[' ']' inner
  return .index x i

/-- A reference to a function. -/
def refAtom (limit : Nat) : Parser Expr := do
  let _ ← symbol '&'
  return .funcRef (← path limit)

theorem atom_eq : atom limit inner = firstOf
    [number,
     (do keyword "true"; return .bool true),
     (do keyword "false"; return .bool false),
     callAtom limit inner,
     indexAtom inner,
     refAtom limit,
     (do return .var (← ident)),
     between '(' ')' inner] := rfl

/-- Before an identifier no literal is read. -/
theorem takes_atom_of_isIdent {x : String} {a : Expr} (hx : isIdent x = true) (hcs : EndsWord cs)
    (h : (firstOf [callAtom limit inner, indexAtom inner, refAtom limit, (do return .var (← ident)),
      between '(' ')' inner]).Takes (x.toList ++ cs) a rest) :
    (atom limit inner).Takes (x.toList ++ cs) a rest := by
  rw [atom_eq]
  exact (fails_number_of_isWord (isIdent_iff.mp hx).1).firstOf ((fails_keyword_of_isIdent hx hcs (by decide)).bind.firstOf
    ((fails_keyword_of_isIdent hx hcs (by decide)).bind.firstOf h))

/-- Before another character than one of a word no literal and no name is read. -/
theorem takes_atom_of_head {c : Char} {a : Expr} (hc : isIdentPart c = false)
    (hb : Text.isBlank c = false)
    (h : (firstOf [refAtom limit, (do return .var (← ident)), between '(' ')' inner]).Takes (c :: cs) a
      rest) : (atom limit inner).Takes (c :: cs) a rest := by
  have hstart : ∀ d ∈ (skip (c :: cs)).head?, isIdentStart d = false ∧ d.isDigit = false := by
    intro d hd
    rw [skip_cons hb] at hd
    obtain rfl : c = d := by simpa using hd
    rw [← Bool.not_eq_true, ← Bool.not_eq_true]
    rw [← Bool.not_eq_true] at hc
    exact ⟨fun hs => hc (isIdentPart_of_isIdentStart hs), fun hs => hc (isIdentPart_of_isDigit hs)⟩
  have hident : ident.Fails (c :: cs) := fails_ident fun d hd => (hstart d hd).1
  rw [atom_eq]
  exact (fails_number fun d hd => (hstart d hd).2).firstOf
    ((fails_keyword_of_head hc hb (by decide)).bind.firstOf
      ((fails_keyword_of_head hc hb (by decide)).bind.firstOf
        ((fails_path hident).bind.firstOf (hident.bind.firstOf h))))

theorem takes_atom_bool (v : Bool) (hrest : EndsWord rest) :
    (atom limit inner).Takes ((if v then "true" else "false").toList ++ rest) (.bool v) (skip rest) := by
  rw [atom_eq]
  cases v with
  | false =>
    exact (fails_number_of_isWord (by decide)).firstOf
      ((fails_keyword_of_ne (w := "false".toList) (by decide) hrest (by decide)).bind.firstOf
        (takes_keyword "false" (by decide) hrest).bind_pure.firstOf)
  | true =>
    exact (fails_number_of_isWord (by decide)).firstOf
      (takes_keyword "true" (by decide) hrest).bind_pure.firstOf

theorem takes_atom_var {x : String} (hx : isIdent x = true) (hrest : Follows k rest)
    (hlimit : (x.toList ++ rest).length ≤ limit) :
    (atom limit inner).Takes (x.toList ++ rest) (.var x) (skip rest) := by
  have hcall : (callAtom limit inner).Fails (x.toList ++ rest) :=
    (takes_path (isPath_of_isIdent hx) hrest.endsPath hlimit).bind_fails
      (fails_between (by rw [skip_skip]; exact hrest.head_skip_ne (by decide))).bind
  have hindex : (indexAtom inner).Fails (x.toList ++ rest) :=
    (takes_ident hx hrest.endsWord).bind_fails
      (fails_between (by rw [skip_skip]; exact hrest.head_skip_ne (by decide))).bind
  have href : (refAtom limit).Fails (x.toList ++ rest) :=
    (fails_symbol (head_word_ne (isIdent_iff.mp hx).1 (by decide))).bind
  exact takes_atom_of_isIdent hx hrest.endsWord
    (hcall.firstOf (hindex.firstOf (href.firstOf (takes_ident hx hrest.endsWord).bind_pure.firstOf)))

theorem takes_atom_index {x : String} (hx : isIdent x = true)
    (hi : inner.Takes (skip cs) e (']' :: rest))
    (hlimit : (x.toList ++ '[' :: cs).length ≤ limit) :
    (atom limit inner).Takes (x.toList ++ '[' :: cs) (.index x e) (skip rest) := by
  have hskip : skip ('[' :: cs) = '[' :: cs := skip_cons (by decide)
  have hends : EndsPath ('[' :: cs) := ⟨endsWord_cons (by decide), by simp [hskip]⟩
  have hcall : (callAtom limit inner).Fails (x.toList ++ '[' :: cs) := by
    refine (takes_path (isPath_of_isIdent hx) hends hlimit).bind_fails (fails_between ?_).bind
    rw [skip_skip, hskip]
    simp
  refine takes_atom_of_isIdent hx hends.1 (hcall.firstOf (Takes.firstOf ?_))
  refine (takes_ident hx hends.1).bind ?_
  rw [hskip]
  exact (Takes.between (by decide) (by decide) hi).bind_pure

theorem takes_atom_funcRef {f : String} (hf : IsPath f) (hrest : Follows k rest)
    (hlimit : (f.toList ++ rest).length ≤ limit) :
    (atom limit inner).Takes ('&' :: (f.toList ++ rest)) (.funcRef f) (skip rest) := by
  have hskip : skip (f.toList ++ rest) = f.toList ++ rest := by
    obtain ⟨c, cs, hcs, -⟩ := hrest.head_mem
    obtain ⟨x, d, ds, hx, htext, -⟩ := hf.split c cs
    rw [hcs, htext, skip_word (isIdent_iff.mp hx).1]
  refine takes_atom_of_head (by decide) (by decide) (Takes.firstOf ?_)
  refine (takes_symbol (by decide)).bind ?_
  rw [hskip]
  exact (takes_path hf hrest.endsPath hlimit).bind_pure

theorem takes_atom_parenthesized (h : inner.Takes (skip cs) e (')' :: rest)) :
    (atom limit inner).Takes ('(' :: cs) e (skip rest) := by
  have hskip : skip ('(' :: cs) = '(' :: cs := skip_cons (by decide)
  refine takes_atom_of_head (by decide) (by decide) ?_
  have href : (refAtom limit).Fails ('(' :: cs) := (fails_symbol (by simp [hskip])).bind
  have hvar : (do return Expr.var (← ident)).Fails ('(' :: cs) :=
    (fails_ident (by simp [hskip, isIdentStart])).bind
  exact href.firstOf (hvar.firstOf (Takes.between (by decide) (by decide) h).firstOf)

theorem takes_atom_call {f : String} {es : List Expr} (hf : IsPath f)
    (hes : ∀ e ∈ es, ReadsItem inner (Expr.textAt 0) n e) (hclose : inner.Fails (')' :: rest))
    (hskip : skip ((", ".intercalate (es.map (Expr.textAt 0))).toList ++ ')' :: rest) =
      (", ".intercalate (es.map (Expr.textAt 0))).toList ++ ')' :: rest)
    (hn : ((", ".intercalate (es.map (Expr.textAt 0))).toList ++ ')' :: rest).length ≤ n)
    (hlimit : f.toList.length + 1 + n ≤ limit) :
    (atom limit inner).Takes
      (f.toList ++ '(' :: ((", ".intercalate (es.map (Expr.textAt 0))).toList ++ ')' :: rest))
      (.call f es) (skip rest) := by
  generalize htext : (", ".intercalate (es.map (Expr.textAt 0))).toList ++ ')' :: rest = text at *
  have hends : EndsPath ('(' :: text) :=
    ⟨endsWord_cons (by decide), by simp [skip_cons (c := '(') (by decide)]⟩
  have hpath : (path limit).Takes (f.toList ++ '(' :: text) f (skip ('(' :: text)) := by
    refine takes_path hf hends ?_
    rw [List.length_append, List.length_cons]
    omega
  have hargs : (items limit inner (symbol ',')).Takes (skip text) es (')' :: rest) := by
    rw [hskip, ← htext]
    exact takes_items_text hes (htext ▸ hn) (by omega) hclose
  have hcall : (callAtom limit inner).Takes (f.toList ++ '(' :: text) (.call f es) (skip rest) := by
    refine hpath.bind ?_
    rw [skip_cons (by decide)]
    exact (Takes.between (by decide) (by decide) hargs).bind_pure
  obtain ⟨x, d, cs, hx, hsplit, hd⟩ := hf.split '(' text
  rw [hsplit] at hcall ⊢
  exact takes_atom_of_isIdent hx (endsWord_cons (by rcases hd with rfl | rfl <;> decide)) hcall.firstOf

/-- An operand begins with a number, a word, `&` or a parenthesis. -/
theorem fails_atom {c : Char} (hstart : isIdentStart c = false) (hb : Text.isBlank c = false)
    (hamp : c ≠ '&') (hparen : c ≠ '(') (hnumber : number.Fails (c :: cs)) :
    (atom limit inner).Fails (c :: cs) := by
  have hskip : skip (c :: cs) = c :: cs := skip_cons hb
  have hident : ident.Fails (c :: cs) := fails_ident (by simpa [hskip] using hstart)
  have hname : name.Fails (skip (c :: cs)) := fails_name (by simpa [hskip] using hstart)
  rw [atom_eq]
  apply fails_firstOf
  simp only [List.forall_mem_cons]
  exact ⟨hnumber, (Fails.padded hname.checked).bind, (Fails.padded hname.checked).bind,
    (fails_path hident).bind, hident.bind, (fails_symbol (by simpa [hskip] using hamp)).bind,
    hident.bind, fails_between (by simpa [hskip] using hparen), by simp⟩

theorem fails_tier (hunary : prefixOp.Fails cs) (hatom : (atom limit inner).Fails cs) (d : Nat) :
    (tier limit inner d).Fails cs := by
  induction d with
  | zero => exact (takes_many_nil hunary).bind_fails hatom.bind
  | succ d ih => exact ih.bind

/-- No expression begins with a character that closes one. -/
theorem fails_expr {c : Char} (hc : c ∈ [')', ';', '\x7d']) : (expr limit).Fails (c :: cs) := by
  have hchar : isIdentStart c = false ∧ Text.isBlank c = false ∧ c.isDigit = false ∧ c ≠ '&' ∧
      c ≠ '(' ∧ c ≠ '-' ∧ c ≠ '!' := by
    simp only [List.mem_cons, List.not_mem_nil, or_false] at hc
    rcases hc with rfl | rfl | rfl <;> decide
  obtain ⟨hstart, hb, hdigit, hamp, hparen, hminus, hbang⟩ := hchar
  cases limit with
  | zero => exact fun pos => ⟨_, rfl⟩
  | succ limit =>
    exact fails_tier (fails_prefixOp hb hminus hbang)
      (fails_atom hstart hb hamp hparen (fails_number (by simpa [skip_cons hb] using hdigit))) 6

/-! ### Reading back -/

/-- The unary operators and the operand of the text are read, within a length. -/
def PrefixedAt (n : Nat) (e : Expr) : Prop :=
  ∀ rest, Follows 7 rest → (e.chars 7 ++ rest).length ≤ n →
    Prefixed (atom (n + 1) (expr n)) (e.chars 7 ++ rest) e (skip rest)

/-- The text for a precedence is read by the levels of that precedence, within a length. -/
def ReadsAt (n k : Nat) (e : Expr) : Prop :=
  ∀ rest, Follows k rest → (e.chars k ++ rest).length ≤ n →
    (tier (n + 1) (expr n) (7 - k)).Takes (e.chars k ++ rest) e (skip rest)

/-- The text for a precedence is a chain of operands of tighter levels, within a length. Operators of
the precedence may follow. -/
def ChainsAt (n k : Nat) (e : Expr) : Prop :=
  ∀ rest, Follows (k + 1) rest → (e.chars k ++ rest).length ≤ n →
    Chained (tier (n + 1) (expr n) (6 - k)) (opsAt k) (e.chars k ++ rest) e (skip rest)

/-- The text of the expression is read back at all levels. -/
structure Reads (e : Expr) : Prop where
  prefixed : ∀ n, PrefixedAt n e
  tiers : ∀ n k, 1 ≤ k → k ≤ 7 → ReadsAt n k e
  chains : ∀ n k, 1 ≤ k → k ≤ 6 → ChainsAt n k e

theorem tier_level (hk : 1 ≤ k) (hk6 : k ≤ 6) :
    tier limit inner (7 - k) = level limit (tier limit inner (6 - k)) (opsAt k) := by
  obtain ⟨d, hd⟩ : ∃ d, 7 - k = d + 1 := ⟨6 - k, by omega⟩
  have hd' : 6 - k = d := by omega
  have hk' : 6 - d = k := by omega
  rw [hd, hd', tier, hk']

theorem PrefixedAt.readsAt (h : PrefixedAt n e) : ReadsAt n 7 e :=
  fun rest hrest hn => (h rest hrest hn).unary (by omega)

/-- A chain ends where no operator of its level follows. -/
theorem ChainsAt.readsAt (h : ChainsAt n k e) (hk : 1 ≤ k) (hk6 : k ≤ 6) : ReadsAt n k e := by
  intro rest hrest hn
  rw [tier_level hk hk6]
  exact (h rest (hrest.mono (by omega)) hn).level (hrest.fails_ops hk hk6) (by omega)

/-- An operand of a tighter level is a chain of one. -/
theorem ReadsAt.chainsAt (h : ReadsAt n (k + 1) e) (hk6 : k ≤ 6)
    (hne : ∀ op l r, e = .binary op l r → op.precedence ≠ k) : ChainsAt n k e := by
  intro rest hrest hn
  rw [chars_succ hk6 hne] at hn ⊢
  have hread := h rest hrest hn
  rw [show 7 - (k + 1) = 6 - k by omega] at hread
  refine .of_takes hread ?_
  have hle := length_skip_le rest
  rw [List.length_append]
  omega

/-- From one level the reading goes on to all looser ones. -/
theorem ReadsAt.looser {top : Nat} (h : ReadsAt n top e) (htop : top ≤ 7)
    (hchain : ∀ k, 1 ≤ k → k < top → ReadsAt n (k + 1) e → ChainsAt n k e) :
    ∀ k, 1 ≤ k → k ≤ top → ReadsAt n k e := by
  intro k hk hle
  obtain ⟨j, hj⟩ : ∃ j, k + j = top := ⟨top - k, by omega⟩
  induction j generalizing k with
  | zero =>
    obtain rfl : k = top := by omega
    exact h
  | succ j ih =>
    have hnext := ih (k + 1) (by omega) (by omega) (by omega)
    exact (hchain k hk (by omega) hnext).readsAt hk (by omega)

theorem Reads.of_prefixed (h : ∀ n, PrefixedAt n e)
    (hchain : ∀ n k, 1 ≤ k → k ≤ 6 → ReadsAt n (k + 1) e → ChainsAt n k e) : Reads e := by
  have htiers : ∀ n k, 1 ≤ k → k ≤ 7 → ReadsAt n k e := fun n =>
    (h n).readsAt.looser (Nat.le_refl 7) fun k hk hlt => hchain n k hk (by omega)
  exact ⟨h, htiers, fun n k hk hk6 => hchain n k hk hk6 (htiers n (k + 1) (by omega) (by omega))⟩

/-- Without a binary operator at the top the levels of binary operators add nothing. -/
theorem Reads.of_operand (h : ∀ n, PrefixedAt n e) (hne : ∀ op l r, e ≠ .binary op l r) : Reads e :=
  .of_prefixed h fun _ _ _ hk6 hread => hread.chainsAt hk6 fun op l r he => absurd he (hne op l r)

/-- The text of an expression is read as an expression. -/
theorem Reads.expr (h : Reads e) (hrest : Follows 1 rest) (hlimit : (e.chars 0 ++ rest).length < limit) :
    (expr limit).Takes (e.chars 0 ++ rest) e (skip rest) := by
  obtain ⟨n, rfl⟩ : ∃ n, limit = n + 1 := ⟨limit - 1, by omega⟩
  rw [chars_zero] at hlimit ⊢
  rw [expr_succ]
  exact h.tiers n 1 (by omega) (by omega) rest hrest (by omega)

/-! ### One case for each form -/

theorem fails_prefixOp_of_head {c : Char} (h : isIdentPart c = true ∨ c ∈ ['&', '(']) :
    prefixOp.Fails (c :: cs) := by
  have hchar : Text.isBlank c = false ∧ c ≠ '-' ∧ c ≠ '!' := by
    rcases h with h | h
    · refine ⟨isBlank_eq_false_of_isIdentPart h, ?_, ?_⟩
      all_goals
        rintro rfl
        simp [isIdentPart] at h
    · simp only [List.mem_cons, List.not_mem_nil, or_false] at h
      rcases h with rfl | rfl <;> decide
  exact fails_prefixOp hchar.1 hchar.2.1 hchar.2.2

theorem fails_prefixOp_of_isWord {w : List Char} (h : isWord w = true) : prefixOp.Fails (w ++ rest) := by
  obtain ⟨c, cs, rfl, hc⟩ := exists_cons_of_isWord h
  exact fails_prefixOp_of_head (.inl (isIdentPart_of_isIdentStart hc))

theorem fails_prefixOp_of_isWhole {ds : List Char} (h : isWhole ds = true) :
    prefixOp.Fails (ds ++ rest) := by
  obtain ⟨c, cs, rfl, hc⟩ := exists_cons_of_isWhole h
  exact fails_prefixOp_of_head (.inl (isIdentPart_of_isDigit hc))

/-- A whole number that does not fit is no expression. -/
theorem fails_expr_digits {m : Nat} (hm : ¬ m < 2 ^ 63) (hrest : EndsNumber rest) :
    (expr limit).Fails (Nat.toDigits 10 m ++ rest) := by
  have hwhole := isWhole_toDigits m
  have hunary : prefixOp.Fails (Nat.toDigits 10 m ++ rest) := fails_prefixOp_of_isWhole hwhole
  have hnumber : number.Fails (Nat.toDigits 10 m ++ rest) := fails_number_int hm hrest
  obtain ⟨c, cs, hds, hc⟩ := exists_cons_of_isWhole hwhole
  have hpart := isIdentPart_of_isDigit hc
  rw [hds, List.cons_append] at hunary hnumber ⊢
  cases limit with
  | zero => exact fun pos => ⟨_, rfl⟩
  | succ limit =>
    refine fails_tier hunary (fails_atom (isIdentStart_eq_false_of_isDigit hc)
      (isBlank_eq_false_of_isIdentPart hpart) ?_ ?_ hnumber) 6
    all_goals
      rintro rfl
      simp [isIdentPart] at hpart

theorem prefixedAt_float {v : Float} (h : ReadsBack v) : PrefixedAt n (.float v) := by
  intro rest hrest hn
  rw [chars_float h]
  obtain ⟨-, w, hw, hv⟩ := h
  have hread := takes_number_float hw hrest.endsNumber
  rw [hv] at hread
  refine .of_takes hread.firstOf ?_
  obtain ⟨hwhole, -, power, -, htext, -⟩ := hw
  rw [htext, List.append_assoc]
  exact fails_prefixOp_of_isWhole hwhole

theorem prefixedAt_int {v : Int64} (h : 0 ≤ v) : PrefixedAt n (.int v) := by
  intro rest hrest hn
  obtain ⟨m, hm, rfl⟩ := exists_ofNat h
  rw [chars_int hm]
  exact .of_takes (takes_number_int hm hrest.endsNumber).firstOf
    (fails_prefixOp_of_isWhole (isWhole_toDigits m))

theorem prefixedAt_bool (v : Bool) : PrefixedAt n (.bool v) := by
  intro rest hrest hn
  rw [chars_bool]
  refine .of_takes (takes_atom_bool v hrest.endsWord) (fails_prefixOp_of_isWord ?_)
  cases v <;> decide

theorem prefixedAt_var {x : String} (hx : isIdent x = true) : PrefixedAt n (.var x) := by
  intro rest hrest hn
  rw [chars_var] at hn ⊢
  exact .of_takes (takes_atom_var hx hrest (by omega)) (fails_prefixOp_of_isWord (isIdent_iff.mp hx).1)

theorem prefixedAt_funcRef {f : String} (hf : IsPath f) : PrefixedAt n (.funcRef f) := by
  intro rest hrest hn
  rw [chars_funcRef, List.cons_append] at hn ⊢
  rw [List.length_cons] at hn
  exact .of_takes (takes_atom_funcRef hf hrest (by omega)) (fails_prefixOp_of_head (.inr (by decide)))

/-- An expression before a character that closes it is read up to that character. -/
theorem Reads.before {i : Expr} (h : Reads i) (hi : i.Printable) (c : Char) (rest : List Char)
    (hc : c ∈ [')', ']', ',', ';']) (hn : (i.chars 0 ++ c :: rest).length < n) :
    skip (i.chars 0 ++ c :: rest) = i.chars 0 ++ c :: rest ∧
      (Grammar.expr n).Takes (i.chars 0 ++ c :: rest) i (c :: rest) := by
  have hfollows : Follows 1 (c :: rest) := .close hc
  have hread := h.expr hfollows hn
  have hb : Text.isBlank c = false := by
    simp only [List.mem_cons, List.not_mem_nil, or_false] at hc
    rcases hc with rfl | rfl | rfl | rfl <;> decide
  rw [skip_cons hb] at hread
  exact ⟨(startsExpr i 0 _ hi (by omega) hfollows.endsWord).skip, hread⟩

theorem prefixedAt_index {x : String} {i : Expr} (hx : isIdent x = true) (hi : i.Printable)
    (h : Reads i) : PrefixedAt n (.index x i) := by
  intro rest hrest hn
  have htext : (Expr.index x i).chars 7 ++ rest = x.toList ++ '[' :: (i.chars 0 ++ ']' :: rest) := by
    rw [chars_index, List.append_assoc, List.cons_append, List.append_assoc, List.singleton_append]
  rw [htext] at hn ⊢
  have hlt : (i.chars 0 ++ ']' :: rest).length < n := by
    rw [List.length_append, List.length_cons] at hn
    omega
  obtain ⟨hskip, hread⟩ := h.before hi ']' rest (by decide) hlt
  rw [← hskip] at hread
  exact .of_takes (takes_atom_index hx hread (by omega))
    (fails_prefixOp_of_isWord (isIdent_iff.mp hx).1)

theorem skip_args {es : List Expr} (hes : ∀ e ∈ es, e.Printable) :
    skip ((", ".intercalate (es.map (Expr.textAt 0))).toList ++ ')' :: rest) =
      (", ".intercalate (es.map (Expr.textAt 0))).toList ++ ')' :: rest := by
  cases es with
  | nil => exact skip_cons (by decide)
  | cons e es =>
    obtain ⟨c, cs, htail, hc⟩ := tailText_head (Expr.textAt 0) es rest
    rw [List.map_cons, toList_intercalate_cons, List.append_assoc, htail]
    have hends : EndsWord (c :: cs) := by
      apply endsWord_cons
      simp only [List.mem_cons, List.not_mem_nil, or_false] at hc
      rcases hc with rfl | rfl <;> decide
    exact (startsExpr e 0 _ (hes e List.mem_cons_self) (by omega) hends).skip

theorem prefixedAt_call {f : String} {es : List Expr} (hf : IsPath f)
    (hes : ∀ e ∈ es, e.Printable ∧ Reads e) : PrefixedAt n (.call f es) := by
  intro rest hrest hn
  have htext : (Expr.call f es).chars 7 ++ rest =
      f.toList ++ '(' :: ((", ".intercalate (es.map (Expr.textAt 0))).toList ++ ')' :: rest) := by
    rw [chars_call, List.append_assoc, List.cons_append, List.append_assoc, List.singleton_append]
  rw [htext] at hn ⊢
  rw [List.length_append, List.length_cons] at hn
  have hitems : ∀ e ∈ es, ReadsItem (expr n) (Expr.textAt 0)
      ((", ".intercalate (es.map (Expr.textAt 0))).toList ++ ')' :: rest).length e := by
    intro e he c cs hc hlen
    have hclose : ∀ d ∈ [',', ')'], d ∈ [')', ']', ',', ';'] := by simp
    exact (hes e he).2.before (hes e he).1 c cs (hclose c hc) (Nat.lt_of_le_of_lt hlen (by omega))
  refine .of_takes (takes_atom_call hf hitems (fails_expr (by decide))
    (skip_args fun e he => (hes e he).1) (Nat.le_refl _) (by omega)) ?_
  obtain ⟨x, d, cs, hx, hsplit, -⟩ := hf.split '(' _
  rw [hsplit]
  exact fails_prefixOp_of_isWord (isIdent_iff.mp hx).1

theorem prefixedAt_unary {op : UnOp} (he : e.Printable) (h : Reads e) :
    PrefixedAt n (.unary op e) := by
  intro rest hrest hn
  rw [chars_unary op e (Nat.le_refl 7), List.append_assoc] at hn ⊢
  obtain ⟨c, cs, htext, hb, hne⟩ := (startsExpr e 7 rest he (by omega) hrest.endsWord).not_blank
  rw [htext] at hn ⊢
  have hsymbol : 1 ≤ op.symbol.toList.length := by cases op <;> decide
  rw [List.length_append] at hn
  have hoperand := h.prefixed n rest hrest (by rw [htext]; omega)
  rw [htext] at hoperand
  refine hoperand.cons (takes_prefixOp op hb hne) ?_
  rw [List.length_append]
  omega

theorem chainsAt_binary {op : BinOp} {l r : Expr} (hl : Reads l) (hr : Reads r)
    (hprint : r.Printable) : ChainsAt n op.precedence (.binary op l r) := by
  intro rest hrest hn
  have hp := one_le_precedence op
  have hp6 := precedence_le_six op
  have htext : (Expr.binary op l r).chars op.precedence ++ rest = l.chars op.precedence ++
      ' ' :: (op.symbol.toList ++ ' ' :: (r.chars (op.precedence + 1) ++ rest)) := by
    rw [chars_binary l r (Nat.le_refl _)]
    simp
  rw [htext] at hn ⊢
  have hleft := hl.chains n op.precedence hp hp6 _ (.operator (Nat.lt_succ_self _)) hn
  simp only [List.length_append, List.length_cons] at hn
  have hright := hr.tiers n (op.precedence + 1) (by omega) (by omega) rest hrest (by
    rw [List.length_append]
    omega)
  rw [show 7 - (op.precedence + 1) = 6 - op.precedence by omega] at hright
  have hstart := startsExpr r (op.precedence + 1) rest hprint (by omega) hrest.endsWord
  have hsymbol : skip (op.symbol.toList ++ ' ' :: (r.chars (op.precedence + 1) ++ rest)) =
      op.symbol.toList ++ ' ' :: (r.chars (op.precedence + 1) ++ rest) := by
    cases op <;> exact skip_cons (by decide)
  have hop : (padded (opsAt op.precedence)).Takes
      (op.symbol.toList ++ ' ' :: (r.chars (op.precedence + 1) ++ rest)) op
      (r.chars (op.precedence + 1) ++ rest) := by
    have hpad := Takes.padded (by rw [hsymbol]; exact takes_opsAt op _)
    rwa [skip_cons_blank (by decide), hstart.skip] at hpad
  rw [skip_cons_blank (by decide), hsymbol] at hleft
  refine hleft.concat (hop.bind hright.bind_pure) ?_
  have hle := length_skip_le rest
  simp only [List.length_append, List.length_cons]
  omega

theorem reads_binary {op : BinOp} {l r : Expr} (hl : Reads l) (hr : Reads r)
    (hprint : (Expr.binary op l r).Printable) : Reads (.binary op l r) := by
  have hp := one_le_precedence op
  have hp6 := precedence_le_six op
  have hown : ∀ n, ChainsAt n op.precedence (.binary op l r) := fun n =>
    chainsAt_binary hl hr hprint.right
  have hother : ∀ n k, k ≤ 6 → k ≠ op.precedence → ReadsAt n (k + 1) (.binary op l r) →
      ChainsAt n k (.binary op l r) := by
    intro n k hk6 hne hread
    refine hread.chainsAt hk6 ?_
    intro op' l' r' he
    obtain ⟨rfl, -, -⟩ := Expr.binary.inj he
    exact hne.symm
  -- Without parentheses the operator's own level reads it, and so all looser levels do.
  have hloosest : ∀ n, ReadsAt n 1 (.binary op l r) := fun n =>
    ((hown n).readsAt hp hp6).looser (by omega)
      (fun k hk hlt hread => hother n k (by omega) (by omega) hread) 1 (by omega) hp
  have hprefixed : ∀ n, PrefixedAt n (.binary op l r) := by
    intro n rest hrest hn
    have htext : (Expr.binary op l r).chars 7 ++ rest =
        '(' :: ((Expr.binary op l r).chars 0 ++ ')' :: rest) := by
      rw [chars_parenthesized (k := 7) l r (by omega), List.cons_append, List.append_assoc,
        List.singleton_append]
    rw [htext] at hn ⊢
    rw [List.length_cons] at hn
    obtain ⟨m, rfl⟩ : ∃ m, n = m + 1 := ⟨n - 1, by omega⟩
    have hstart := startsExpr _ 0 (')' :: rest) hprint (by omega) (endsWord_cons (by decide))
    have hinner : (expr (m + 1)).Takes (skip ((Expr.binary op l r).chars 0 ++ ')' :: rest))
        (.binary op l r) (')' :: rest) := by
      have hread := hloosest m (')' :: rest) (.close (by decide)) (by rw [← chars_zero]; omega)
      rwa [← chars_zero, skip_cons (by decide), ← hstart.skip] at hread
    exact .of_takes (takes_atom_parenthesized hinner) (fails_prefixOp_of_head (.inr (by decide)))
  refine .of_prefixed hprefixed ?_
  intro n k hk hk6 hread
  by_cases hkp : k = op.precedence
  · rw [hkp]
    exact hown n
  · exact hother n k hk6 hkp hread

/-- Every expression that can be written down is read back from its text. -/
theorem reads_of_printable (e : Expr) (h : e.Printable) : Reads e := by
  induction e using Expr.rec (motive_2 := fun es => ∀ e ∈ es, e.Printable → Reads e) with
  | float v => exact .of_operand (fun _ => prefixedAt_float h.spellable) (by simp)
  | int v => exact .of_operand (fun _ => prefixedAt_int h.spellable) (by simp)
  | bool v => exact .of_operand (fun _ => prefixedAt_bool v) (by simp)
  | var x => exact .of_operand (fun _ => prefixedAt_var h.spellable) (by simp)
  | funcRef f => exact .of_operand (fun _ => prefixedAt_funcRef h.spellable) (by simp)
  | index x i ih =>
    exact .of_operand (fun _ => prefixedAt_index h.spellable h.index (ih h.index)) (by simp)
  | unary op e ih =>
    exact .of_operand (fun _ => prefixedAt_unary h.unary (ih h.unary)) (by simp)
  | binary op l r ihl ihr => exact reads_binary (ihl h.left) (ihr h.right) h
  | call f es ih =>
    refine .of_operand (fun _ => prefixedAt_call h.spellable fun e he => ?_) (by simp)
    exact ⟨h.arg he, ih e he (h.arg he)⟩
  | nil e he => simp at he
  | cons e es ihe ihes e' he' hp =>
    rcases List.mem_cons.mp he' with rfl | hmem
    · exact ihe hp
    · exact ihes e' hmem hp

end Grammar

end Fluxion
