import Mathlib.Data.List.Basic
import Fluxion.Grammar.Source
import Fluxion.Proofs.Grammar.Blocks

/-!
Printed programs read back. The ranges that functions were read from differ, so functions are
compared without them.
-/

namespace Fluxion

/-- The function without the range it was read from. -/
def Func.content (f : Func) : Func := { f with span := ⟨0, 0⟩ }

/-- A function with names, literals and types that a program can have, where the floats that it can
have are those of `F`. -/
structure Func.Wellspelt (F : Float → Prop) (f : Func) : Prop where
  name : Grammar.IsPath f.name
  params : ∀ p ∈ f.params, Grammar.isIdent p.name = true ∧ p.ty.lengthsFit = true
  ret : f.ret.lengthsFit = true
  body : ∀ b, f.body = some b → (wellspelt F).Body b ∧ plainIn b

/-- All names, literals and types in the function can be written down. -/
def Func.Spelled (f : Func) : Prop := f.Wellspelt Decimal.ReadsBack

namespace Grammar

open Fluxion.Grammar.Parser Fluxion.Decimal

variable {cs rest : List Char} {limit depth : Nat}

/-! ### Names -/

theorem ne_colon_of_isIdent {x : String} (h : isIdent x = true) : ∀ c ∈ x.toList, c ≠ ':' := by
  intro c hc he
  have hpart := isIdentPart_of_mem (isIdent_iff.mp h).1 c hc
  rw [he] at hpart
  exact absurd hpart (by decide)

theorem namePartsFrom_append {w : List Char} (h : ∀ c ∈ w, c ≠ ':') (current : List Char) :
    namePartsFrom current (w ++ rest) = namePartsFrom (w.reverse ++ current) rest := by
  induction w generalizing current with
  | nil => rfl
  | cons c w ih =>
    have hc := h c List.mem_cons_self
    rw [List.cons_append, namePartsFrom, ih fun d hd => h d (List.mem_cons_of_mem c hd)]
    · simp
    · intro rest' he
      exact absurd he hc

theorem namePartsFrom_tailText {parts : List String} (h : ∀ x ∈ parts, isIdent x = true)
    (current : List Char) : namePartsFrom current (tailText "::" parts) =
      current.reverse :: parts.map String.toList := by
  induction parts generalizing current with
  | nil => simp [tailText, namePartsFrom]
  | cons x parts ih =>
    have htext : tailText "::" (x :: parts) = ':' :: ':' :: (x.toList ++ tailText "::" parts) := by
      rw [tailText_cons]
      rfl
    rw [htext, namePartsFrom, namePartsFrom_append (ne_colon_of_isIdent (h x List.mem_cons_self)),
      List.append_nil, ih fun y hy => h y (List.mem_cons_of_mem x hy), List.reverse_reverse,
      List.map_cons]

/-- A path is taken apart into the identifiers that it joins. -/
theorem nameParts_intercalate {first : String} {parts : List String}
    (h : ∀ x ∈ first :: parts, isIdent x = true) :
    nameParts ("::".intercalate (first :: parts)) = first :: parts := by
  rw [nameParts, toList_intercalate_cons,
    namePartsFrom_append (ne_colon_of_isIdent (h first List.mem_cons_self)),
    namePartsFrom_tailText fun x hx => h x (List.mem_cons_of_mem first hx)]
  simp [Function.comp_def]

/-! ### Heads of functions -/

theorem readsItem_param {p : Param} {n : Nat} (hname : isIdent p.name = true)
    (hty : p.ty.lengthsFit = true) (hlimit : n < limit) : ReadsItem (param limit) Param.text n p := by
  intro c cs hc hn
  have htext : p.text.toList ++ c :: cs = p.name.toList ++ ':' :: ' ' :: (p.ty.text.toList ++ c :: cs) := by
    simp [Param.text]
  have hchar : Text.isBlank c = false ∧ isIdentPart c = false := by
    simp only [List.mem_cons, List.not_mem_nil, or_false] at hc
    rcases hc with rfl | rfl <;> decide
  rw [htext] at hn ⊢
  simp only [List.length_append, List.length_cons] at hn
  refine ⟨skip_word (isIdent_iff.mp hname).1, ?_⟩
  refine (takes_ident hname (endsWord_cons (by decide))).bind ?_
  rw [skip_cons (by decide)]
  refine (takes_symbol (by decide)).bind ?_
  rw [skip_cons_blank (by decide), skip_tyText]
  have hread : (ty limit).Takes (p.ty.text.toList ++ c :: cs) p.ty (skip (c :: cs)) :=
    takes_ty hty (endsWord_cons hchar.2) (by omega)
  rw [skip_cons hchar.1] at hread
  exact hread.bind_pure

/-- The result type of a function as text; without one the function returns nothing. -/
def retChars (ret : Ty) : List Char :=
  if ret = .void then [] else ' ' :: '-' :: '>' :: ' ' :: ret.text.toList

theorem takes_ret {ret : Ty} (hret : ret.lengthsFit = true) (hends : EndsWord rest)
    (hrest : (skip rest).head? ≠ some '-') (hlimit : (retChars ret).length < limit) :
    ∃ found, (optional (do padded (word "->"); ty limit)).Takes (skip (retChars ret ++ rest)) found
      (skip rest) ∧ found.getD .void = ret := by
  by_cases hvoid : ret = .void
  · refine ⟨none, ?_, hvoid.symm⟩
    rw [retChars, if_pos hvoid, List.nil_append]
    apply Fails.optional
    apply Fails.bind
    apply Fails.padded
    rw [skip_skip]
    apply fails_word
    intro hp
    obtain ⟨t, ht⟩ := hp
    exact hrest (by rw [← ht]; rfl)
  · refine ⟨some ret, ?_, rfl⟩
    have htext : skip (retChars ret ++ rest) = "->".toList ++ ' ' :: (ret.text.toList ++ rest) := by
      rw [retChars, if_neg hvoid]
      rfl
    have harrow : (padded (word "->")).Takes ("->".toList ++ ' ' :: (ret.text.toList ++ rest)) ()
        (skip (' ' :: (ret.text.toList ++ rest))) := Takes.padded (takes_word "->")
    rw [retChars, if_neg hvoid] at hlimit
    simp only [List.length_cons] at hlimit
    rw [htext]
    refine Takes.optional (harrow.bind ?_)
    rw [skip_cons_blank (by decide), skip_tyText]
    exact takes_ty hret hends (by omega)

/-- A function up to its body as text. -/
def headChars (name : String) (params : List Param) (ret : Ty) : List Char :=
  name.toList ++ '(' :: ((", ".intercalate (params.map Param.text)).toList ++ ')' :: retChars ret)

theorem skip_params {params : List Param} (h : ∀ p ∈ params, isIdent p.name = true) :
    skip ((", ".intercalate (params.map Param.text)).toList ++ ')' :: rest) =
      (", ".intercalate (params.map Param.text)).toList ++ ')' :: rest := by
  cases params with
  | nil => exact skip_cons (by decide)
  | cons p params =>
    rw [List.map_cons, toList_intercalate_cons, List.append_assoc]
    have htext : p.text.toList = p.name.toList ++ ':' :: ' ' :: p.ty.text.toList := by
      simp [Param.text]
    rw [htext, List.append_assoc]
    exact skip_word (isIdent_iff.mp (h p List.mem_cons_self)).1

theorem takes_head {name : String} {params : List Param} {ret : Ty} (hname : isIdent name = true)
    (hparams : ∀ p ∈ params, isIdent p.name = true ∧ p.ty.lengthsFit = true)
    (hret : ret.lengthsFit = true) (hends : EndsWord rest) (hrest : (skip rest).head? ≠ some '-')
    (hlimit : (headChars name params ret ++ rest).length < limit) :
    (head limit).Takes (headChars name params ret ++ rest) (name, params, ret) (skip rest) := by
  have htext : headChars name params ret ++ rest = name.toList ++ '(' ::
      ((", ".intercalate (params.map Param.text)).toList ++ ')' :: (retChars ret ++ rest)) := by
    simp [headChars]
  rw [htext] at hlimit ⊢
  simp only [List.length_append, List.length_cons] at hlimit
  have hretLimit : (retChars ret).length < limit := by omega
  obtain ⟨found, hfound, rfl⟩ := takes_ret hret hends hrest hretLimit
  have hclose : (param limit).Fails (')' :: (retChars (found.getD .void) ++ rest)) :=
    (fails_ident (by simp [skip_cons (c := ')') (by decide), isIdentStart])).bind
  have hitems : (items limit (param limit) (symbol ',')).Takes
      (skip ((", ".intercalate (params.map Param.text)).toList ++
        ')' :: (retChars (found.getD .void) ++ rest))) params
      (')' :: (retChars (found.getD .void) ++ rest)) := by
    rw [skip_params fun p hp => (hparams p hp).1]
    have hlen : ((", ".intercalate (params.map Param.text)).toList ++
        ')' :: (retChars (found.getD .void) ++ rest)).length ≤ limit - 1 := by
      simp only [List.length_append, List.length_cons]
      omega
    exact takes_items_text (fun p hp => readsItem_param (hparams p hp).1 (hparams p hp).2 (by omega))
      hlen (by omega) hclose
  refine (takes_ident hname (endsWord_cons (by decide))).bind ?_
  rw [skip_cons (by decide)]
  exact (Takes.between (by decide) (by decide) hitems).bind hfound.bind_pure

theorem skip_headChars {name : String} {params : List Param} {ret : Ty} (hname : isIdent name = true) :
    skip (headChars name params ret ++ rest) = headChars name params ret ++ rest := by
  rw [headChars, List.append_assoc]
  exact skip_word (isIdent_iff.mp hname).1

/-! ### Functions -/

/-- What follows the head of a function: its body, or a `;` in place of one. -/
def bodyChars (depth : Nat) : Option (List Stmt) → List Char
  | none => [';']
  | some body => ' ' :: blockChars depth body

/-- A function of one name as text, without the blanks before it and the newline after it. -/
def funcChars (f : Func) (name : String) (depth : Nat) : List Char :=
  (if f.body.isNone then "extern ".toList else []) ++
    ("fn ".toList ++ (headChars name f.params f.ret ++ bodyChars depth f.body))

theorem toList_textAt (f : Func) (name : String) (depth : Nat) :
    (f.textAt name depth).toList = blanks depth ++ (funcChars f name depth ++ ['\n']) := by
  have hret : (if f.ret = .void then "" else " -> " ++ f.ret.text).toList = retChars f.ret := by
    by_cases h : f.ret = .void <;> simp [h, retChars]
  cases hbody : f.body with
  | none => simp [Func.textAt, funcChars, headChars, bodyChars, hbody, hret, toList_indentation]
  | some body =>
    simp [Func.textAt, funcChars, headChars, bodyChars, hbody, hret, toList_indentation, toList_braces]

/-- A function that is read has the name and all else that was written. -/
def Written (f : Func) (name : String) (g : Func) : Prop :=
  g.content = { f.content with name := name }

theorem takes_bodied {f : Func} {name : String} {body : List Stmt} (hf : f.Spelled)
    (hname : isIdent name = true) (hbody : f.body = some body)
    (hlimit : (funcChars f name depth ++ rest).length < limit) :
    (bodied limit).TakesSome (funcChars f name depth ++ rest) (Written f name) (skip rest) := by
  have htext : funcChars f name depth ++ rest = "fn".toList ++ ' ' ::
      (headChars name f.params f.ret ++ ' ' :: (blockChars depth body ++ rest)) := by
    simp [funcChars, bodyChars, hbody]
  rw [htext] at hlimit ⊢
  simp only [List.length_append, List.length_cons] at hlimit
  obtain ⟨hspell, hplain⟩ := hf.body body hbody
  have hhead : (head limit).Takes
      (headChars name f.params f.ret ++ ' ' :: (blockChars depth body ++ rest)) (name, f.params, f.ret)
      (skip (' ' :: (blockChars depth body ++ rest))) := by
    refine takes_head hname hf.params hf.ret (endsWord_cons (by decide)) ?_ ?_
    · rw [skip_cons_blank (by decide), skip_blockChars]
      simp [blockChars]
    · simp only [List.length_append, List.length_cons]
      omega
  have hstmts : (between '\x7b' '\x7d' (many limit (stmt limit))).Takes
      (skip (' ' :: (blockChars depth body ++ rest))) body (skip rest) := by
    have hlen : (blockChars depth body ++ rest).length ≤ limit := by
      rw [List.length_append]
      omega
    rw [skip_cons_blank (by decide), skip_blockChars]
    exact (reads_lines hspell hplain).braces hlen hlen
  have hread : (do
      keyword "fn"
      let h ← head limit
      let body ← between '\x7b' '\x7d' (many limit (stmt limit))
      return (h.1, h.2.1, h.2.2, body)).Takes ("fn".toList ++ ' ' ::
        (headChars name f.params f.ret ++ ' ' :: (blockChars depth body ++ rest)))
      (name, f.params, f.ret, body) (skip rest) := by
    refine (takes_keyword "fn" (by decide) (endsWord_cons (by decide))).bind ?_
    rw [skip_cons_blank (by decide), skip_headChars hname]
    exact hhead.bind hstmts.bind_pure
  refine hread.located.bind ?_
  intro found hfound
  obtain ⟨⟨name', params, ret, body'⟩, span⟩ := found
  cases hfound
  exact takes_pure.some (by simp [Written, Func.content, hbody])

theorem takes_native {f : Func} {name : String} (hf : f.Spelled) (hname : isIdent name = true)
    (hbody : f.body = none) (hlimit : (funcChars f name depth ++ rest).length < limit) :
    (native limit).TakesSome (funcChars f name depth ++ rest) (Written f name) (skip rest) := by
  have htext : funcChars f name depth ++ rest = "extern".toList ++ ' ' ::
      ("fn".toList ++ ' ' :: (headChars name f.params f.ret ++ ';' :: rest)) := by
    simp [funcChars, bodyChars, hbody]
  rw [htext] at hlimit ⊢
  simp only [List.length_append, List.length_cons] at hlimit
  have hskip : skip (';' :: rest) = ';' :: rest := skip_cons (by decide)
  have hhead : (head limit).Takes (headChars name f.params f.ret ++ ';' :: rest)
      (name, f.params, f.ret) (';' :: rest) := by
    have hlen : (headChars name f.params f.ret ++ ';' :: rest).length < limit := by
      simp only [List.length_append, List.length_cons]
      omega
    have htake := takes_head hname hf.params hf.ret (endsWord_cons (by decide)) (by simp [hskip]) hlen
    rwa [hskip] at htake
  have hread : (do
      keyword "extern"
      keyword "fn"
      ended (head limit)).Takes ("extern".toList ++ ' ' ::
        ("fn".toList ++ ' ' :: (headChars name f.params f.ret ++ ';' :: rest)))
      (name, f.params, f.ret) (skip rest) := by
    refine (takes_keyword "extern" (by decide) (endsWord_cons (by decide))).bind ?_
    rw [skip_cons_blank (by decide), skip_word (w := "fn".toList) (by decide)]
    refine (takes_keyword "fn" (by decide) (endsWord_cons (by decide))).bind ?_
    rw [skip_cons_blank (by decide), skip_headChars hname]
    exact hhead.bind (takes_symbol (by decide)).bind_pure
  refine hread.located.bind ?_
  intro found hfound
  obtain ⟨⟨name', params, ret⟩, span⟩ := found
  cases hfound
  exact takes_pure.some (by simp [Written, Func.content, hbody])

/-! ### Namespaces -/

/-- Functions in a namespace. -/
def namespaceItem (limit : Nat) : Parser (List Func) := do
  keyword "namespace"
  let ns ← ident
  let inner ← between '\x7b' '\x7d' (many (limit + 1) (item limit))
  return inner.flatten.map fun f => { f with name := ns ++ "::" ++ f.name }

theorem item_succ (limit : Nat) : item (limit + 1) = firstOf
    [(do return [← bodied (limit + 1)]), (do return [← native (limit + 1)]), namespaceItem limit] := rfl

/-- The functions found are one, with the name and all else that was written. -/
def WrittenOne (f : Func) (name : String) (found : List Func) : Prop :=
  ∃ g, found = [g] ∧ Written f name g

theorem takes_item_func {f : Func} {name : String} (hf : f.Spelled) (hname : isIdent name = true)
    (hlimit : (funcChars f name depth ++ rest).length < limit) :
    (item limit).TakesSome (funcChars f name depth ++ rest) (WrittenOne f name) (skip rest) := by
  obtain ⟨limit, rfl⟩ : ∃ n, limit = n + 1 := ⟨limit - 1, by omega⟩
  rw [item_succ]
  cases hbody : f.body with
  | some body =>
    refine TakesSome.firstOf ((takes_bodied hf hname hbody hlimit).bind ?_)
    intro g hg
    exact takes_pure.some ⟨g, rfl, hg⟩
  | none =>
    have hkey : (keyword "fn").Fails (funcChars f name depth ++ rest) := by
      have htext : funcChars f name depth ++ rest = "extern".toList ++ ' ' ::
          ("fn".toList ++ ' ' :: (headChars name f.params f.ret ++ ';' :: rest)) := by
        simp [funcChars, bodyChars, hbody]
      rw [htext]
      exact fails_keyword_of_ne (by decide) (endsWord_cons (by decide)) (by decide)
    refine Fails.firstOf_some hkey.bind.located.bind.bind
      (TakesSome.firstOf ((takes_native hf hname hbody hlimit).bind ?_))
    intro g hg
    exact takes_pure.some ⟨g, rfl, hg⟩

/-- Text in braces after a word and a name. -/
def inBraces (word name : String) (depth : Nat) (inner : List Char) : List Char :=
  word.toList ++ ' ' :: (name.toList ++ ' ' :: '\x7b' :: '\n' ::
    (blanks (depth + 1) ++ (inner ++ '\n' :: (blanks depth ++ ['\x7d']))))

/-- A function in namespaces as text, without the blanks before it and the newline after it. -/
def nestedChars (f : Func) (base : String) (depth : Nat) : List String → List Char
  | [] => funcChars f base depth
  | ns :: rest => inBraces "namespace" ns depth (nestedChars f base (depth + 1) rest)

theorem toList_inNamespaces (f : Func) (base : String) (depth : Nat) (names : List String) :
    (inNamespaces (f.textAt base) depth names).toList =
      blanks depth ++ (nestedChars f base depth names ++ ['\n']) := by
  induction names generalizing depth with
  | nil => exact toList_textAt f base depth
  | cons ns names ih => simp [inNamespaces, nestedChars, inBraces, ih, toList_indentation]

theorem fails_item (h : ∀ text ∈ ["fn", "extern", "namespace"], (keyword text).Fails cs) :
    (item limit).Fails cs := by
  cases limit with
  | zero => exact fun pos => ⟨_, rfl⟩
  | succ limit =>
    rw [item_succ]
    apply fails_firstOf
    simp only [List.forall_mem_cons]
    exact ⟨(h "fn" (by decide)).bind.located.bind.bind, (h "extern" (by decide)).bind.located.bind.bind,
      (h "namespace" (by decide)).bind, by simp⟩

theorem skip_nestedChars (f : Func) (base : String) (names : List String) :
    skip (nestedChars f base depth names ++ rest) = nestedChars f base depth names ++ rest := by
  cases names with
  | nil =>
    rw [nestedChars, funcChars]
    cases f.body.isNone
    · exact skip_word (w := "fn".toList) (by decide)
    · exact skip_word (w := "extern".toList) (by decide)
  | cons ns names =>
    rw [nestedChars, inBraces, List.append_assoc]
    exact skip_word (by decide)

/-- A function in a namespace has the namespace before its name. -/
theorem takes_namespaceItem {f : Func} {ns name : String} {mid : List Char} (hns : isIdent ns = true)
    (hlimit : (skip cs).length ≤ limit + 1)
    (hinner : (item limit).TakesSome (skip cs) (WrittenOne f name) ('\x7d' :: mid))
    (hshorter : ('\x7d' :: mid).length < (skip cs).length) :
    (namespaceItem limit).TakesSome ("namespace".toList ++ ' ' :: (ns.toList ++ ' ' :: '\x7b' :: cs))
      (WrittenOne f (ns ++ "::" ++ name)) (skip mid) := by
  have hclose : (item limit).Fails ('\x7d' :: mid) := fails_item fun text htext =>
    fails_keyword_of_head (by decide) (by decide) (by rintro rfl; simp at htext)
  have heach : TakesEach (item limit) (fun found _ => WrittenOne f name found) (skip cs) [()]
      ('\x7d' :: mid) := .cons hinner hshorter (.nil _)
  have hblock := TakesSome.between (l := '\x7b') (by decide) (by decide) (heach.many hclose hlimit)
  refine (takes_keyword "namespace" (by decide) (endsWord_cons (by decide))).bind_some ?_
  rw [skip_cons_blank (by decide), skip_word (isIdent_iff.mp hns).1]
  refine (takes_ident hns (endsWord_cons (by decide))).bind_some ?_
  rw [skip_cons_blank (by decide), skip_cons (by decide)]
  refine hblock.bind ?_
  intro found hfound
  cases hfound with
  | cons hone hnone =>
    cases hnone
    obtain ⟨g, rfl, hg⟩ := hone
    refine takes_pure.some ⟨{ g with name := ns ++ "::" ++ g.name }, rfl, ?_⟩
    simp only [Written, Func.content, Func.mk.injEq] at hg ⊢
    obtain ⟨hname, hparams, hret, hbody, -⟩ := hg
    exact ⟨by rw [hname], hparams, hret, hbody, trivial⟩

/-- A function is read back from inside its namespaces, under its whole name. -/
theorem takes_item {f : Func} {base : String} {names : List String} (hf : f.Spelled)
    (hnames : ∀ x ∈ names, isIdent x = true) (hbase : isIdent base = true)
    (hlimit : (nestedChars f base depth names ++ rest).length < limit) :
    (item limit).TakesSome (nestedChars f base depth names ++ rest)
      (WrittenOne f ("::".intercalate (names ++ [base]))) (skip rest) := by
  induction names generalizing depth limit rest with
  | nil =>
    rw [List.nil_append, String.intercalate_singleton]
    exact takes_item_func hf hbase hlimit
  | cons ns names ih =>
    obtain ⟨limit, rfl⟩ : ∃ n, limit = n + 1 := ⟨limit - 1, by omega⟩
    have hns := hnames ns List.mem_cons_self
    have htext : nestedChars f base depth (ns :: names) ++ rest = "namespace".toList ++ ' ' ::
        (ns.toList ++ ' ' :: '\x7b' :: '\n' :: (blanks (depth + 1) ++
          (nestedChars f base (depth + 1) names ++ '\n' :: (blanks depth ++ '\x7d' :: rest)))) := by
      simp [nestedChars, inBraces]
    rw [htext] at hlimit ⊢
    simp only [List.length_append, List.length_cons] at hlimit
    have hinner : (item limit).TakesSome
        (nestedChars f base (depth + 1) names ++ '\n' :: (blanks depth ++ '\x7d' :: rest))
        (WrittenOne f ("::".intercalate (names ++ [base])))
        (skip ('\n' :: (blanks depth ++ '\x7d' :: rest))) := by
      refine ih (fun x hx => hnames x (List.mem_cons_of_mem ns hx)) ?_
      simp only [List.length_append, List.length_cons]
      omega
    rw [skip_cons_blank (by decide), skip_close] at hinner
    have hskip : skip ('\n' :: (blanks (depth + 1) ++ (nestedChars f base (depth + 1) names ++
        '\n' :: (blanks depth ++ '\x7d' :: rest)))) =
        nestedChars f base (depth + 1) names ++ '\n' :: (blanks depth ++ '\x7d' :: rest) := by
      rw [skip_cons_blank (by decide), skip_blanks, skip_nestedChars]
    have hjoin : "::".intercalate (ns :: names ++ [base]) =
        ns ++ "::" ++ "::".intercalate (names ++ [base]) := by
      obtain ⟨first, tail, hfirst⟩ := List.exists_cons_of_ne_nil (l := names ++ [base]) (by simp)
      rw [List.cons_append, hfirst, String.intercalate_cons_cons]
    have hfn : (keyword "fn").Fails ("namespace".toList ++ ' ' :: (ns.toList ++ ' ' :: '\x7b' :: '\n' ::
        (blanks (depth + 1) ++ (nestedChars f base (depth + 1) names ++
          '\n' :: (blanks depth ++ '\x7d' :: rest))))) :=
      fails_keyword_of_ne (by decide) (endsWord_cons (by decide)) (by decide)
    have hnative : (keyword "extern").Fails ("namespace".toList ++ ' ' :: (ns.toList ++ ' ' :: '\x7b' ::
        '\n' :: (blanks (depth + 1) ++ (nestedChars f base (depth + 1) names ++
          '\n' :: (blanks depth ++ '\x7d' :: rest))))) :=
      fails_keyword_of_ne (by decide) (endsWord_cons (by decide)) (by decide)
    rw [item_succ, hjoin]
    refine hfn.bind.located.bind.bind.firstOf_some (hnative.bind.located.bind.bind.firstOf_some
      (TakesSome.firstOf (takes_namespaceItem hns ?_ (by rw [hskip]; exact hinner) ?_)))
    · rw [hskip]
      simp only [List.length_append, List.length_cons]
      omega
    · rw [hskip]
      simp only [List.length_append, List.length_cons]
      omega

/-! ### Programs -/

/-- The functions found are the one that was written. -/
def Rereads (found : List Func) (f : Func) : Prop := ∃ g, found = [g] ∧ g.content = f.content

/-- A function is read back from its text. -/
theorem takes_func {f : Func} (hf : f.Spelled) (hlimit : (f.text.toList ++ rest).length < limit) :
    skip (f.text.toList ++ rest) = f.text.toList ++ rest ∧
      (item limit).TakesSome (f.text.toList ++ rest) (Rereads · f) (skip rest) := by
  obtain ⟨first, parts, hparts, hname⟩ := hf.name
  have hnames : nameParts f.name = first :: parts := by rw [hname, nameParts_intercalate hparts]
  have hbase : f.baseName = (first :: parts).getLast (by simp) := by
    rw [Func.baseName, hnames, List.getLastD_eq_getLast?, List.getLast?_eq_some_getLast (by simp),
      Option.getD_some]
  have hsplit : (first :: parts).dropLast ++ [f.baseName] = first :: parts := by
    rw [hbase, List.dropLast_append_getLast]
  have htext : f.text.toList ++ rest =
      nestedChars f f.baseName 0 (first :: parts).dropLast ++ '\n' :: rest := by
    rw [Func.text, toList_inNamespaces, hnames]
    simp [blanks]
  rw [htext] at hlimit ⊢
  refine ⟨skip_nestedChars _ _ _, ?_⟩
  have hread := takes_item hf (fun x hx => hparts x (List.dropLast_subset _ hx))
    (hparts _ (hbase ▸ List.getLast_mem _)) hlimit
  rw [hsplit, ← hname, skip_cons_blank (by decide)] at hread
  intro pos
  obtain ⟨found, pos', alt, hfound, g, hg, hwritten⟩ := hread pos
  exact ⟨found, pos', alt, hfound, g, hg, hwritten⟩

theorem length_funcText_pos (f : Func) : 0 < f.text.toList.length := by
  rw [Func.text, toList_inNamespaces]
  simp only [List.length_append, List.length_cons]
  omega

/-- Functions are read back from their texts with an empty line between them. -/
theorem takesEach_functions {f : Func} {fs : List Func} (hfs : ∀ g ∈ f :: fs, g.Spelled)
    (hlimit : (f.text.toList ++ tailText "\n" (fs.map Func.text)).length < limit) :
    TakesEach (item limit) Rereads (f.text.toList ++ tailText "\n" (fs.map Func.text)) (f :: fs) [] := by
  induction fs generalizing f with
  | nil =>
    obtain ⟨-, hread⟩ := takes_func (hfs f List.mem_cons_self) hlimit
    refine .cons hread ?_ (.nil [])
    have hpos := length_funcText_pos f
    rw [List.length_append]
    change 0 < _
    omega
  | cons g fs ih =>
    obtain ⟨-, hread⟩ := takes_func (hfs f List.mem_cons_self) hlimit
    have htail : tailText "\n" ((g :: fs).map Func.text) =
        '\n' :: (g.text.toList ++ tailText "\n" (fs.map Func.text)) := by
      rw [List.map_cons, tailText_cons]
      rfl
    rw [htail] at hlimit hread ⊢
    simp only [List.length_append, List.length_cons] at hlimit
    have hfit : (g.text.toList ++ tailText "\n" (fs.map Func.text)).length < limit := by
      rw [List.length_append]
      omega
    obtain ⟨hskip, -⟩ := takes_func (hfs g (by simp)) hfit
    rw [skip_cons_blank (by decide), hskip] at hread
    refine .cons hread ?_ (ih (fun x hx => hfs x (List.mem_cons_of_mem f hx)) hfit)
    simp only [List.length_append, List.length_cons]
    omega

theorem contents_of_rereads {found : List (List Func)} {p : Program}
    (h : List.Forall₂ Rereads found p) : found.flatten.map Func.content = p.map Func.content := by
  induction h with
  | nil => rfl
  | cons hf _ ih =>
    obtain ⟨g, rfl, hg⟩ := hf
    simp [hg, ih]

theorem takesEach_program {p : Program} (hp : ∀ f ∈ p, f.Spelled) (hlimit : p.text.toList.length < limit) :
    TakesEach (item limit) Rereads (skip p.text.toList) p [] := by
  cases p with
  | nil => exact .nil []
  | cons f fs =>
    have htext : (Program.text (f :: fs)).toList = f.text.toList ++ tailText "\n" (fs.map Func.text) :=
      toList_intercalate_cons "\n" f.text (fs.map Func.text)
    rw [htext] at hlimit ⊢
    obtain ⟨hskip, -⟩ := takes_func (hp f List.mem_cons_self) hlimit
    rw [hskip]
    exact takesEach_functions hp hlimit

/-- A program is read back from its text. -/
theorem takes_program {p : Program} (hp : ∀ f ∈ p, f.Spelled) (hlimit : p.text.toList.length < limit) :
    (program limit).TakesSome p.text.toList (fun q => q.map Func.content = p.map Func.content) [] := by
  have hend : (item limit).Fails [] := fails_item fun text htext => fails_keyword (by
    change [] ≠ text.toList
    simp only [List.mem_cons, List.not_mem_nil, or_false] at htext
    rcases htext with rfl | rfl | rfl <;> decide)
  have hle : (skip p.text.toList).length ≤ limit := by
    have := length_skip_le p.text.toList
    omega
  have hmany := (takesEach_program hp hlimit).many hend hle
  refine hmany.padded.bind fun found hfound => ?_
  exact takes_eof.bind_some (takes_pure.some (contents_of_rereads hfound))

end Grammar

end Fluxion
