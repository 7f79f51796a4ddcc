import Mathlib.Data.List.Basic
import Fluxion.Grammar.Statement
import Fluxion.Proofs.Grammar.Expressions
import Fluxion.Proofs.Grammar.Types

/-!
Printed statements read back. A declaration of an array type with a length would be read as the
declaration of an array if its length were an integer literal.
-/

namespace Fluxion

/-- Code with names, literals and types that a program can have, where the floats that it can have are
those of `F`. -/
def wellspelt (F : Float → Prop) : Rule where
  part := Expr.Wellspelt F
  target p := Grammar.isIdent p.name = true
  declares d := Grammar.isIdent d.name = true ∧ d.ty.lengthsFit = true
  returns := True

/-- All names, literals and types in code can be written down. -/
def spelled : Rule := wellspelt Decimal.ReadsBack

/-- A declaration that is not read as one of an array: an array type with a length is only declared
without a value when no integer literal can be that long. -/
def Local.isPlain (d : Local) : Prop :=
  ∀ elem n, d.ty = .array elem (some n) → d.init = none → 2 ^ 63 ≤ n

namespace Grammar

open Fluxion.Grammar.Parser Fluxion.Decimal

variable {cs rest : List Char} {limit : Nat}

/-! ### Assignments -/

theorem takes_place {p : Place} (hname : isIdent p.name = true) (hp : spelled.Place p)
    (hends : EndsWord rest) (hrest : (skip rest).head? ≠ some '[')
    (hlimit : (p.text.toList ++ rest).length < limit) :
    (place limit).Takes (p.text.toList ++ rest) p (skip rest) := by
  cases p with
  | var x =>
    have hnone : (between '[' ']' (expr limit)).Fails (skip rest) :=
      fails_between (by rwa [skip_skip])
    exact (takes_ident hname hends).bind hnone.optional.bind_pure
  | index x i =>
    have htext : (Place.index x i).text.toList ++ rest = x.toList ++ '[' :: (i.chars 0 ++ ']' :: rest) := by
      simp [Place.text, Expr.text, Expr.chars]
    rw [htext] at hlimit ⊢
    rw [List.length_append, List.length_cons] at hlimit
    obtain ⟨hskip, hread⟩ := (reads_of_printable i hp).before hp ']' rest (by decide)
      (show _ < limit by omega)
    rw [← hskip] at hread
    have hindex := (Takes.between (l := '[') (by decide) (by decide) hread).optional
    refine (takes_ident hname (endsWord_cons (by decide))).bind ?_
    rw [skip_cons (by decide)]
    exact hindex.bind_pure

theorem takes_assignOp (op : AssignOp) (cs : List Char) :
    assignOp.Takes (op.symbol.toList ++ ' ' :: cs) op (skip cs) := by
  have hskip : skip (op.symbol.toList ++ ' ' :: cs) = op.symbol.toList ++ ' ' :: cs := by
    cases op <;> exact skip_cons (by decide)
  have hpad : assignOp.Takes (op.symbol.toList ++ ' ' :: cs) op (skip (' ' :: cs)) := by
    apply Takes.padded
    rw [hskip]
    intro pos
    cases op <;> exact ⟨_, _, rfl⟩
  rwa [skip_cons_blank (by decide)] at hpad

theorem takes_assignment {a : Assignment} {c : Char} (ha : spelled.Assignment a)
    (hc : c ∈ [')', ']', ',', ';']) (hlimit : (a.text.toList ++ c :: rest).length < limit) :
    (assignment limit).Takes (a.text.toList ++ c :: rest) a (c :: rest) := by
  obtain ⟨hname, hplace, hvalue⟩ := ha
  have htext : a.text.toList ++ c :: rest = a.place.text.toList ++
      ' ' :: (a.op.symbol.toList ++ ' ' :: (a.value.chars 0 ++ c :: rest)) := by
    simp [Assignment.text, Expr.text, Expr.chars]
  rw [htext] at hlimit ⊢
  have hsymbol : skip (a.op.symbol.toList ++ ' ' :: (a.value.chars 0 ++ c :: rest)) =
      a.op.symbol.toList ++ ' ' :: (a.value.chars 0 ++ c :: rest) := by
    cases a.op <;> exact skip_cons (by decide)
  have hhead : (skip (' ' :: (a.op.symbol.toList ++ ' ' :: (a.value.chars 0 ++ c :: rest)))).head? ≠
      some '[' := by
    rw [skip_cons_blank (by decide), hsymbol]
    cases a.op <;> simp [AssignOp.symbol]
  have hread := takes_place hname hplace (endsWord_cons (by decide)) hhead hlimit
  simp only [List.length_append, List.length_cons] at hlimit
  obtain ⟨hskip, hexpr⟩ := (reads_of_printable a.value hvalue).before hvalue c rest hc
    (show _ < limit by rw [List.length_append, List.length_cons]; omega)
  refine hread.bind ?_
  rw [skip_cons_blank (by decide), hsymbol]
  refine (takes_assignOp a.op _).bind ?_
  rw [hskip]
  exact hexpr.bind_pure

/-! ### Declarations -/

theorem takes_letHead {x : String} (hx : isIdent x = true) :
    letHead.Takes ("let ".toList ++ (x.toList ++ ':' :: cs)) x (skip cs) := by
  have hlet : (keyword "let").Takes ("let".toList ++ ' ' :: (x.toList ++ ':' :: cs)) ()
      (skip (' ' :: (x.toList ++ ':' :: cs))) :=
    takes_keyword "let" (by decide) (endsWord_cons (by decide))
  rw [skip_cons_blank (by decide), skip_word (isIdent_iff.mp hx).1] at hlet
  refine hlet.bind ((takes_ident hx (endsWord_cons (by decide))).bind ?_)
  rw [skip_cons (by decide)]
  exact (takes_symbol (by decide)).bind_pure

/-- The value a local starts from, with the `=` before it. -/
def initText : Option Expr → List Char
  | none => []
  | some e => ' ' :: '=' :: ' ' :: e.chars 0

theorem toList_text_local (d : Local) : d.text.toList =
    "let ".toList ++ (d.name.toList ++ ':' :: ' ' :: (d.ty.text.toList ++ initText d.init)) := by
  cases hd : d.init <;> simp [Local.text, hd, initText, Expr.text, Expr.chars]

theorem takes_init {init : Option Expr} (hinit : ∀ e, init = some e → e.Printable)
    (hlimit : (initText init ++ ';' :: rest).length < limit) :
    (optional (do let _ ← symbol '='; expr limit)).Takes (skip (initText init ++ ';' :: rest)) init
      (';' :: rest) := by
  cases init with
  | none =>
    have hskip : skip (';' :: rest) = ';' :: rest := skip_cons (by decide)
    have hnone : (symbol '=').Fails (';' :: rest) := fails_symbol (by simp [hskip])
    rw [initText, List.nil_append, hskip]
    exact hnone.bind.optional
  | some e =>
    have he := hinit e rfl
    simp only [initText, List.cons_append, List.length_cons] at hlimit ⊢
    obtain ⟨hskip, hread⟩ := (reads_of_printable e he).before he ';' rest (by decide)
      (show _ < limit by omega)
    rw [skip_cons_blank (by decide), skip_cons (by decide)]
    refine Takes.optional ((takes_symbol (by decide)).bind ?_)
    rwa [skip_cons_blank (by decide), hskip]

theorem endsWord_initText (init : Option Expr) : EndsWord (initText init ++ ';' :: rest) := by
  cases init <;> exact endsWord_cons (by decide)

theorem takes_localDecl {d : Local} (hd : spelled.Local d)
    (hlimit : (d.text.toList ++ ';' :: rest).length < limit) :
    (localDecl limit).Takes (d.text.toList ++ ';' :: rest) d (';' :: rest) := by
  obtain ⟨⟨hname, hty⟩, hinit⟩ := hd
  rw [toList_text_local] at hlimit ⊢
  simp only [List.append_assoc, List.cons_append, List.length_append, List.length_cons] at hlimit ⊢
  refine (takes_letHead hname).bind ?_
  rw [skip_cons_blank (by decide), skip_tyText]
  refine (takes_ty hty (endsWord_initText d.init) (by omega)).bind ?_
  refine (takes_init hinit ?_).bind_pure
  rw [List.length_append, List.length_cons]
  omega

/-- Element type and length of an array that is declared. -/
def arrayLength (limit : Nat) : Parser (Ty × Expr) := do
  let elem ← ty limit
  let _ ← symbol ';'
  let len ← expr limit
  return (elem, len)

theorem arrayDecl_eq : arrayDecl limit = (do
    let x ← letHead
    let (elem, len) ← between '[' ']' (arrayLength limit)
    return .arrayDecl x elem len) := rfl

/-- An array with the text of its length between the brackets. -/
theorem takes_arrayDecl {x : String} {elem : Ty} {len : Expr} {text : List Char}
    (hx : isIdent x = true) (hty : elem.lengthsFit = true) (hlimit : elem.text.toList.length < limit)
    (hlen : (expr limit).Takes (skip (text ++ ']' :: rest)) len (']' :: rest)) :
    (arrayDecl limit).Takes ("let ".toList ++ (x.toList ++ ':' :: ' ' :: '[' ::
      (elem.text.toList ++ ';' :: ' ' :: (text ++ ']' :: rest)))) (.arrayDecl x elem len)
      (skip rest) := by
  have hparts : (arrayLength limit).Takes
      (skip (elem.text.toList ++ ';' :: ' ' :: (text ++ ']' :: rest))) (elem, len) (']' :: rest) := by
    rw [skip_tyText]
    refine (takes_ty hty (endsWord_cons (by decide)) hlimit).bind ?_
    rw [skip_cons (by decide)]
    refine (takes_symbol (by decide)).bind ?_
    rw [skip_cons_blank (by decide)]
    exact hlen.bind_pure
  rw [arrayDecl_eq]
  refine (takes_letHead hx).bind ?_
  rw [skip_cons_blank (by decide), skip_cons (by decide)]
  exact (Takes.between (by decide) (by decide) hparts).bind_pure

/-- What is no array declaration between the brackets is none. -/
theorem fails_arrayDecl {x : String} (hx : isIdent x = true)
    (h : (between '[' ']' (arrayLength limit)).Fails (skip cs)) :
    (arrayDecl limit).Fails ("let ".toList ++ (x.toList ++ ':' :: cs)) := by
  rw [arrayDecl_eq]
  exact (takes_letHead hx).bind_fails h.bind

theorem fails_arrayDecl_of_length {x : String} (hx : isIdent x = true)
    (h : (arrayLength limit).Fails (skip cs)) :
    (arrayDecl limit).Fails ("let ".toList ++ (x.toList ++ ':' :: ' ' :: '[' :: cs)) := by
  apply fails_arrayDecl hx
  rw [skip_cons_blank (by decide), skip_cons (by decide)]
  exact Fails.between (by decide) h

theorem head_tyText_ne {t : Ty} (h : ∀ elem len, t ≠ .array elem len) :
    (t.text.toList ++ rest).head? ≠ some '[' := by
  cases t with
  | array elem len => exact absurd rfl (h elem len)
  | float | int | bool | void => simp [Ty.text]
  | ref t | tape t => simp [Ty.text]

theorem takes_expr_digits {n : Nat} (hn : n < 2 ^ 63)
    (hlimit : (Nat.toDigits 10 n ++ ']' :: rest).length < limit) :
    (expr limit).Takes (Nat.toDigits 10 n ++ ']' :: rest) (.int (Int64.ofNat n)) (']' :: rest) := by
  have hprint : (Expr.int (Int64.ofNat n)).Printable := by
    intro part hp
    obtain rfl : part = .int (Int64.ofNat n) := by simpa [Expr.parts] using hp
    rw [Expr.Spellable, Expr.Wellspelt, Int64.le_iff_toInt_le, Int64.toInt_ofNat_of_lt hn]
    simp
  rw [← chars_int (k := 0) hn] at hlimit ⊢
  exact ((reads_of_printable _ hprint).before hprint ']' rest (by decide) hlimit).2

/-- A declaration that is plain is not read as one of an array. -/
theorem fails_ended_arrayDecl {d : Local} (hd : spelled.Local d) (hplain : d.isPlain)
    (hlimit : (d.text.toList ++ ';' :: rest).length < limit) :
    (ended (arrayDecl limit)).Fails (d.text.toList ++ ';' :: rest) := by
  obtain ⟨⟨hname, hty⟩, -⟩ := hd
  rw [toList_text_local] at hlimit ⊢
  simp only [List.append_assoc, List.cons_append, List.length_append, List.length_cons] at hlimit ⊢
  cases hd : d.ty with
  | float | int | bool | void | ref _ | tape _ =>
    refine (fails_arrayDecl hname (fails_between ?_)).bind
    rw [skip_skip, skip_cons_blank (by decide), skip_tyText]
    exact head_tyText_ne (by simp)
  | array elem len =>
    rw [hd] at hty hlimit
    have helem : elem.lengthsFit = true := by
      cases len with
      | none => exact hty
      | some n =>
        simp only [Ty.lengthsFit, Bool.and_eq_true] at hty
        exact hty.1
    rw [toList_text_array] at hlimit ⊢
    simp only [List.append_assoc, List.cons_append, List.nil_append, List.length_append,
      List.length_cons] at hlimit ⊢
    cases len with
    | none =>
      have hclose : skip (']' :: (initText d.init ++ ';' :: rest)) =
          ']' :: (initText d.init ++ ';' :: rest) := skip_cons (by decide)
      have hlength : (arrayLength limit).Fails
          (elem.text.toList ++ ']' :: (initText d.init ++ ';' :: rest)) := by
        refine (takes_ty helem (endsWord_cons (by decide)) (by omega)).bind_fails (fails_symbol ?_).bind
        rw [skip_skip, hclose]
        simp
      exact (fails_arrayDecl_of_length hname (by rw [skip_tyText]; exact hlength)).bind
    | some n =>
      have hends : EndsNumber (']' :: (initText d.init ++ ';' :: rest)) :=
        ⟨endsWord_cons (by decide), by simp⟩
      by_cases hn : n < 2 ^ 63
      · -- The array is read, so the `;` has to be missing after it.
        have hinit : d.init ≠ none := fun h => absurd (hplain elem n hd h) (by omega)
        obtain ⟨e, he⟩ := Option.ne_none_iff_exists'.mp hinit
        have hlen : (expr limit).Takes (skip (Nat.toDigits 10 n ++ ']' :: (initText d.init ++ ';' :: rest)))
            (.int (Int64.ofNat n)) (']' :: (initText d.init ++ ';' :: rest)) := by
          rw [skip_isWhole (isWhole_toDigits n)]
          refine takes_expr_digits hn ?_
          simp only [lengthText, List.length_append, List.length_cons] at hlimit ⊢
          omega
        have hread := takes_arrayDecl hname helem (by omega) hlen
        refine hread.bind_fails (fails_symbol ?_).bind
        simp only [he, initText, List.cons_append]
        rw [skip_skip, skip_cons_blank (by decide), skip_cons (by decide)]
        simp
      · have hlength : (arrayLength limit).Fails (elem.text.toList ++ ';' :: ' ' ::
            (Nat.toDigits 10 n ++ ']' :: (initText d.init ++ ';' :: rest))) := by
          refine (takes_ty helem (endsWord_cons (by decide)) (by omega)).bind_fails ?_
          rw [skip_cons (by decide)]
          refine (takes_symbol (by decide)).bind_fails ?_
          rw [skip_cons_blank (by decide), skip_isWhole (isWhole_toDigits n)]
          exact (fails_expr_digits hn hends).bind
        exact (fails_arrayDecl_of_length hname (by rw [skip_tyText]; exact hlength)).bind

/-! ### Expressions that are no assignments -/

/-- No sign of an assignment follows. -/
structure NoAssign (rest : List Char) : Prop where
  ends : EndsWord rest
  bracket : (skip rest).head? ≠ some '['
  sign : assignOp.Fails (skip rest)

theorem fails_assignOp {c : Char} (hb : Text.isBlank c = false)
    (hc : c ∉ ['+', '-', '*', '/', '=']) : assignOp.Fails (c :: cs) := by
  simp only [List.mem_cons, List.not_mem_nil, or_false, not_or] at hc
  obtain ⟨hadd, hsub, hmul, hdiv, hset⟩ := hc
  apply Fails.padded
  rw [skip_cons hb]
  apply fails_firstOf
  simp only [List.forall_mem_cons]
  refine ⟨fails_sign (c := '+') rfl (by simpa using hadd), fails_sign (c := '-') rfl (by simpa using hsub),
    fails_sign (c := '*') rfl (by simpa using hmul), fails_sign (c := '/') rfl (by simpa using hdiv),
    Fails.bind (fails_word ?_), by simp⟩
  intro hp
  have : '=' = c := by simpa using hp
  exact hset this.symm

theorem noAssign_close {c : Char} (hc : c ∈ [')', ';']) : NoAssign (c :: cs) := by
  simp only [List.mem_cons, List.not_mem_nil, or_false] at hc
  have hskip : skip (c :: cs) = c :: cs := by
    rcases hc with rfl | rfl <;> exact skip_cons (by decide)
  refine ⟨?_, ?_, ?_⟩
  · rcases hc with rfl | rfl <;> exact endsWord_cons (by decide)
  · rw [hskip]
    rcases hc with rfl | rfl <;> simp
  · rw [hskip]
    rcases hc with rfl | rfl <;> exact fails_assignOp (by decide) (by decide)

/-- A binary operator is no sign of an assignment, as a blank follows it. -/
theorem noAssign_operator (op : BinOp) : NoAssign (' ' :: (op.symbol.toList ++ ' ' :: cs)) := by
  have hskip : skip (' ' :: (op.symbol.toList ++ ' ' :: cs)) = op.symbol.toList ++ ' ' :: cs := by
    rw [skip_cons_blank (by decide)]
    cases op <;> exact skip_cons (by decide)
  refine ⟨endsWord_cons (by decide), ?_, ?_⟩
  · rw [hskip]
    cases op <;> simp [BinOp.symbol]
  · rw [hskip]
    apply Fails.padded
    have hskip' : skip (op.symbol.toList ++ ' ' :: cs) = op.symbol.toList ++ ' ' :: cs := by
      cases op <;> exact skip_cons (by decide)
    rw [hskip']
    intro pos
    cases op <;> exact ⟨_, rfl⟩

theorem fails_assignment_of_ident (h : ident.Fails cs) : (assignment limit).Fails cs := h.bind.bind

theorem fails_assignment_of_head {c : Char} (hb : Text.isBlank c = false)
    (hc : isIdentStart c = false) : (assignment limit).Fails (c :: cs) :=
  fails_assignment_of_ident (fails_ident (by simpa [skip_cons hb] using hc))

theorem fails_assignment_of_isWhole {ds : List Char} (h : isWhole ds = true) :
    (assignment limit).Fails (ds ++ rest) := by
  obtain ⟨c, cs, rfl, hc⟩ := exists_cons_of_isWhole h
  exact fails_assignment_of_head (isBlank_eq_false_of_isIdentPart (isIdentPart_of_isDigit hc))
    (isIdentStart_eq_false_of_isDigit hc)

/-- An expression is not read as the beginning of an assignment. -/
theorem fails_assignment (e : Expr) (k : Nat) (rest : List Char) (h : e.Printable) (hk : k ≤ 7)
    (hrest : NoAssign rest) (hlimit : (e.chars k ++ rest).length < limit) :
    (assignment limit).Fails (e.chars k ++ rest) := by
  induction e using Expr.rec (motive_2 := fun _ => True) generalizing k rest with
  | float v =>
    rw [chars_float h.spellable]
    obtain ⟨-, w, ⟨hwhole, -, power, -, htext, -⟩, -⟩ := h.spellable
    rw [htext, List.append_assoc]
    exact fails_assignment_of_isWhole hwhole
  | int v =>
    obtain ⟨n, hn, rfl⟩ := exists_ofNat h.spellable
    rw [chars_int hn]
    exact fails_assignment_of_isWhole (isWhole_toDigits n)
  | bool v =>
    apply fails_assignment_of_ident
    cases v
    · exact fails_ident_of_keyword "false" (by decide) (by decide) hrest.ends
    · exact fails_ident_of_keyword "true" (by decide) (by decide) hrest.ends
  | funcRef f =>
    rw [chars_funcRef]
    exact fails_assignment_of_head (by decide) (by decide)
  | var x =>
    exact (takes_place (p := .var x) h.spellable (by simp [Rule.Place, Place.parts]) hrest.ends
      hrest.bracket hlimit).bind_fails hrest.sign.bind
  | index x i _ =>
    exact (takes_place (p := .index x i) h.spellable h.index hrest.ends hrest.bracket
      hlimit).bind_fails hrest.sign.bind
  | call f args _ =>
    rw [chars_call, List.append_assoc, List.cons_append]
    obtain ⟨x, d, cs, hx, htext, hd⟩ := IsPath.split (f := f) h.spellable '(' _
    rw [htext]
    have hskip : skip (d :: cs) = d :: cs := by rcases hd with rfl | rfl <;> exact skip_cons (by decide)
    have hends : EndsWord (d :: cs) := endsWord_cons (by rcases hd with rfl | rfl <;> decide)
    have hnone : (between '[' ']' (expr limit)).Fails (skip (d :: cs)) := by
      apply fails_between
      rw [skip_skip, hskip]
      rcases hd with rfl | rfl <;> simp
    have hsign : assignOp.Fails (skip (d :: cs)) := by
      rw [hskip]
      rcases hd with rfl | rfl <;> exact fails_assignOp (by decide) (by decide)
    exact ((takes_ident hx hends).bind hnone.optional.bind_pure).bind_fails hsign.bind
  | unary op e _ =>
    rw [chars_unary op e hk]
    cases op
    · exact fails_assignment_of_head (c := '-') (by decide) (by decide)
    · exact fails_assignment_of_head (c := '!') (by decide) (by decide)
  | binary op l r ihl _ =>
    rcases Nat.lt_or_ge op.precedence k with hlt | hge
    · rw [chars_parenthesized l r hlt]
      exact fails_assignment_of_head (by decide) (by decide)
    · rw [chars_binary l r hge, List.append_assoc, List.cons_append, List.append_assoc,
        List.cons_append] at hlimit ⊢
      have hle := precedence_le_six op
      exact ihl op.precedence _ h.left (by omega) (noAssign_operator op) hlimit
  | nil => trivial
  | cons _ _ _ _ => trivial

end Grammar

end Fluxion
