import Mathlib.Data.List.Basic
import Fluxion.Proofs.Grammar.Results

/-!
Parsers that depend on the text alone, and how a text is taken apart that they read. With these it is
shown that a declaration with an array type whose length fits an integer literal is read as the
declaration of an array.
-/

namespace Fluxion.Grammar

namespace Parser

variable {α β : Type} {p q : Parser α} {f : α → Parser β} {c d : Cursor} {a : α} {b : β}
  {alt : Option Failure} {cs rest : List Char}

/-- On each text the parser reads one value, or fails, wherever the text stands. -/
def Definite (p : Parser α) : Prop := ∀ cs, (∃ a rest, p.Takes cs a rest) ∨ p.Fails cs

theorem Definite.takes (h : p.Definite) (hp : p c = .ok a d alt) : p.Takes c.rest a d.rest := by
  change p ⟨c.pos, c.rest⟩ = _ at hp
  rcases h c.rest with ⟨a', rest, ht⟩ | hf
  · obtain ⟨pos, alt', ha⟩ := ht c.pos
    rw [ha] at hp
    cases hp
    exact ht
  · obtain ⟨why, hf⟩ := hf c.pos
    rw [hf] at hp
    cases hp

theorem definite_pure (a : α) : Definite (pure a) := fun cs => .inl ⟨a, cs, takes_pure⟩

theorem Definite.bind (hp : p.Definite) (hf : ∀ a, (f a).Definite) : (p >>= f).Definite := by
  intro cs
  rcases hp cs with ⟨a, mid, ha⟩ | hfail
  · rcases hf a mid with ⟨b, rest, hb⟩ | hb
    · exact .inl ⟨b, rest, ha.bind hb⟩
    · exact .inr (ha.bind_fails hb)
  · exact .inr hfail.bind

theorem Definite.map {g : α → β} (hp : p.Definite) : (p >>= fun a => pure (g a)).Definite :=
  hp.bind fun _ => definite_pure _

theorem definite_satisfy (t : Char → Bool) : (satisfy t).Definite := by
  intro cs
  cases cs with
  | nil => exact .inr (fails_satisfy (by simp))
  | cons c cs =>
    cases h : t c with
    | true => exact .inl ⟨c, cs, takes_satisfy h⟩
    | false => exact .inr (fails_satisfy (by simpa using h))

theorem definite_span (t : Char → Bool) : (span t).Definite :=
  fun cs => .inl ⟨cs.takeWhile t, cs.dropWhile t, fun _ => ⟨_, _, rfl⟩⟩

theorem Definite.padded (h : p.Definite) : (padded p).Definite := by
  intro cs
  rcases h (skip cs) with ⟨a, rest, ha⟩ | hfail
  · exact .inl ⟨a, skip rest, ha.padded⟩
  · exact .inr hfail.padded

theorem Definite.orElse (hp : p.Definite) (hq : q.Definite) : (orElse p q).Definite := by
  intro cs
  rcases hp cs with ⟨a, rest, ha⟩ | hfail
  · exact .inl ⟨a, rest, ha.orElse⟩
  · rcases hq cs with ⟨a, rest, ha⟩ | hfail'
    · exact .inl ⟨a, rest, hfail.orElse ha⟩
    · exact .inr (hfail.orElse_fails hfail')

theorem Definite.optional (h : p.Definite) : (optional p).Definite := by
  intro cs
  rcases h cs with ⟨a, rest, ha⟩ | hfail
  · exact .inl ⟨some a, rest, ha.optional⟩
  · exact .inl ⟨none, cs, hfail.optional⟩

theorem definite_firstOf {ps : List (Parser α)} (h : ∀ p ∈ ps, p.Definite) : (firstOf ps).Definite := by
  induction ps with
  | nil => exact fun cs => .inr fun pos => ⟨_, rfl⟩
  | cons p ps ih =>
    intro cs
    rcases h p List.mem_cons_self cs with ⟨a, rest, ha⟩ | hfail
    · exact .inl ⟨a, rest, ha.firstOf⟩
    · rcases ih (fun q hq => h q (List.mem_cons_of_mem p hq)) cs with ⟨a, rest, ha⟩ | hps
      · exact .inl ⟨a, rest, hfail.firstOf ha⟩
      · refine .inr fun pos => ?_
        obtain ⟨why, hp⟩ := hfail pos
        simpa [firstOf, hp] using (firstAfter_eq why ps ⟨pos, cs⟩).2.mpr (hps pos)

theorem Definite.checked {g : α → Except (Option String) β} (h : p.Definite) :
    (checked p g).Definite := by
  intro cs
  rcases h cs with ⟨a, rest, ha⟩ | hfail
  · cases hg : g a with
    | ok b => exact .inl ⟨b, rest, ha.checked hg⟩
    | error note => exact .inr (ha.checked_fails hg)
  · exact .inr hfail.checked

theorem definite_symbol (ch : Char) : (symbol ch).Definite := (definite_satisfy _).padded

theorem Definite.between (h : p.Definite) (l r : Char) : (between l r p).Definite :=
  (definite_symbol l).bind fun _ => h.bind fun _ => (definite_symbol r).map

/-! ### Taking texts apart -/

theorem Definite.bind_cases (hp : p.Definite) (hf : ∀ a, (f a).Definite)
    (h : (p >>= f).Takes cs b rest) : ∃ a mid, p.Takes cs a mid ∧ (f a).Takes mid b rest := by
  obtain ⟨pos, alt, h⟩ := h 0
  obtain ⟨a, c, alt₁, alt₂, ha, hb⟩ := bind_ok h
  exact ⟨a, c.rest, hp.takes ha, (hf a).takes hb⟩

theorem Definite.map_cases {g : α → β} (hp : p.Definite)
    (h : (p >>= fun a => pure (g a)).Takes cs b rest) : ∃ a, p.Takes cs a rest ∧ g a = b := by
  obtain ⟨a, mid, ha, hb⟩ := hp.bind_cases (fun _ => definite_pure _) h
  obtain ⟨pos, alt, hb⟩ := hb 0
  cases hb
  exact ⟨a, ha, rfl⟩

theorem Definite.padded_cases (h : p.Definite) (ht : (Parser.padded p).Takes cs a rest) :
    ∃ mid, p.Takes (skip cs) a mid ∧ rest = skip mid := by
  obtain ⟨pos, alt, ht⟩ := ht 0
  rcases h (skip cs) with ⟨a', mid, ha⟩ | hfail
  · obtain ⟨pos', alt', hp⟩ := ha.padded 0
    rw [hp] at ht
    cases ht
    exact ⟨mid, ha, rfl⟩
  · obtain ⟨why, hp⟩ := hfail.padded 0
    rw [hp] at ht
    cases ht

theorem Definite.firstOf_cases {ps : List (Parser α)} (hp : p.Definite)
    (h : (firstOf (p :: ps)).Takes cs a rest) :
    p.Takes cs a rest ∨ p.Fails cs ∧ (firstOf ps).Takes cs a rest := by
  rcases hp cs with ⟨a', rest', ha⟩ | hfail
  · obtain ⟨pos, alt, h⟩ := h 0
    have hfirst : (Parser.firstOf (p :: ps)).Takes cs a' rest' := ha.firstOf
    obtain ⟨pos', alt', h'⟩ := hfirst 0
    rw [h'] at h
    cases h
    exact .inl ha
  · refine .inr ⟨hfail, fun pos => ?_⟩
    obtain ⟨pos', alt, h⟩ := h pos
    rcases firstOf_ok h with hp | ⟨-, hps⟩
    · obtain ⟨why, hfail⟩ := hfail pos
      rw [hfail] at hp
      cases hp
    · exact ⟨pos', alt, hps⟩

theorem Definite.orElse_cases (hp : p.Definite) (hq : q.Definite)
    (h : (Parser.orElse p q).Takes cs a rest) : p.Takes cs a rest ∨ q.Takes cs a rest := by
  obtain ⟨pos, alt, h⟩ := h 0
  rcases hp cs with ⟨a', rest', ha⟩ | hfail
  · have hfirst : (Parser.orElse p q).Takes cs a' rest' := ha.orElse
    obtain ⟨pos', alt', h'⟩ := hfirst 0
    rw [h'] at h
    cases h
    exact .inl ha
  · rcases hq cs with ⟨a', rest', ha⟩ | hfail'
    · obtain ⟨pos', alt', h'⟩ := hfail.orElse ha 0
      rw [h'] at h
      cases h
      exact .inr ha
    · obtain ⟨why, h'⟩ := hfail.orElse_fails hfail' 0
      rw [h'] at h
      cases h

theorem Definite.optional_cases {x : Option α} (hp : p.Definite) (h : (Parser.optional p).Takes cs x rest) :
    (∃ a, x = some a ∧ p.Takes cs a rest) ∨ x = none ∧ rest = cs := by
  obtain ⟨pos, alt, h⟩ := h 0
  rcases optional_ok h with ⟨a, ha, h⟩ | ⟨hx, h⟩
  · exact .inl ⟨a, ha, hp.takes h⟩
  · cases h
    exact .inr ⟨hx, rfl⟩

theorem Definite.checked_cases {g : α → Except (Option String) β} (hp : p.Definite)
    (h : (Parser.checked p g).Takes cs b rest) : ∃ a, p.Takes cs a rest ∧ g a = .ok b := by
  obtain ⟨pos, alt, h⟩ := h 0
  rcases hp cs with ⟨a, rest', ha⟩ | hfail
  · cases hg : g a with
    | ok b' =>
      obtain ⟨pos', alt', h'⟩ := ha.checked hg 0
      rw [h'] at h
      cases h
      exact ⟨a, ha, hg⟩
    | error note =>
      obtain ⟨why, h'⟩ := ha.checked_fails hg 0
      rw [h'] at h
      cases h
  · obtain ⟨why, h'⟩ := hfail.checked 0
    rw [h'] at h
    cases h

theorem satisfy_cases {t : Char → Bool} {ch : Char} (h : (satisfy t).Takes cs ch rest) :
    cs = ch :: rest ∧ t ch = true := by
  obtain ⟨pos, alt, h⟩ := h 0
  cases cs with
  | nil => cases h
  | cons x xs =>
    by_cases hx : t x = true
    · simp only [satisfy, hx, if_true] at h
      cases h
      exact ⟨rfl, hx⟩
    · simp [satisfy, hx] at h

theorem span_cases {t : Char → Bool} {xs : List Char} (h : (span t).Takes cs xs rest) :
    cs = xs ++ rest ∧ ∀ c ∈ xs, t c = true := by
  obtain ⟨pos, alt, h⟩ := h 0
  cases h
  exact ⟨List.takeWhile_append_dropWhile.symm, fun c hc => List.all_eq_true.mp List.all_takeWhile c hc⟩

/-- A symbol stands after blanks, and blanks after it are skipped. -/
theorem symbol_cases {ch x : Char} (h : (symbol ch).Takes cs x rest) :
    ∃ mid, skip cs = ch :: mid ∧ rest = skip mid := by
  obtain ⟨mid, hmid, rfl⟩ := (definite_satisfy _).padded_cases h
  obtain ⟨hcs, hx⟩ := satisfy_cases hmid
  obtain rfl : x = ch := by simpa using hx
  exact ⟨mid, hcs, rfl⟩

theorem Definite.between_cases (h : p.Definite) {l r : Char}
    (ht : (Parser.between l r p).Takes cs a rest) : ∃ x y mid mid', (symbol l).Takes cs x mid ∧
      p.Takes mid a mid' ∧ (symbol r).Takes mid' y rest := by
  obtain ⟨x, mid, hl, ht⟩ := (definite_symbol l).bind_cases
    (fun _ => h.bind fun _ => (definite_symbol r).map) ht
  obtain ⟨a', mid', ha, ht⟩ := h.bind_cases (fun _ => (definite_symbol r).map) ht
  obtain ⟨y, hr, rfl⟩ := (definite_symbol r).map_cases ht
  exact ⟨x, y, mid, mid', hl, ha, hr⟩

end Parser

open Fluxion.Grammar.Parser Fluxion.Decimal

variable {cs rest : List Char} {limit : Nat}

/-! ### Words and numbers -/

theorem definite_name : name.Definite := (definite_satisfy _).bind fun _ => (definite_span _).map

theorem definite_keyword (text : String) : (keyword text).Definite := definite_name.checked.padded

theorem definite_ident : ident.Definite := definite_name.checked.padded

/-- A whole number above zero. -/
def positiveNumber : Parser (List Char) := do
  let first ← satisfy fun c => c.isDigit && c != '0'
  let rest ← span Char.isDigit
  return first :: rest

theorem wholeNumber_eq :
    wholeNumber = orElse positiveNumber (do let zero ← char '0'; return [zero]) := rfl

theorem definite_positiveNumber : positiveNumber.Definite :=
  (definite_satisfy _).bind fun _ => (definite_span _).map

theorem definite_wholeNumber : wholeNumber.Definite :=
  definite_positiveNumber.orElse (definite_satisfy _).map

theorem definite_letHead : letHead.Definite :=
  (definite_keyword "let").bind fun _ => definite_ident.bind fun _ => (definite_symbol ':').map

theorem wholeNumber_cases {ds : List Char} (h : wholeNumber.Takes cs ds rest) :
    cs = ds ++ rest ∧ isWhole ds = true := by
  have hwhole : isWhole ds = true := by
    obtain ⟨pos, alt, h⟩ := h 0
    exact gives_wholeNumber _ _ _ _ h
  refine ⟨?_, hwhole⟩
  rw [wholeNumber_eq] at h
  rcases definite_positiveNumber.orElse_cases (definite_satisfy _).map h with h | h
  · obtain ⟨c, mid, hc, h⟩ := (definite_satisfy _).bind_cases (fun _ => (definite_span _).map) h
    obtain ⟨xs, hxs, rfl⟩ := (definite_span _).map_cases h
    rw [(satisfy_cases hc).1, (span_cases hxs).1, List.cons_append]
  · obtain ⟨c, hc, rfl⟩ := (definite_satisfy _).map_cases h
    rw [(satisfy_cases hc).1, List.cons_append, List.nil_append]

theorem keyword_cases {text : String} {x : Unit} (h : (keyword text).Takes cs x rest) :
    wordOf (skip cs) = text.toList := by
  by_contra hne
  obtain ⟨pos, alt, h⟩ := h 0
  obtain ⟨why, hfail⟩ := fails_keyword hne 0
  rw [hfail] at h
  cases h

/-! ### Types -/

theorem definite_scalarTy : scalarTy.Definite := by
  apply definite_firstOf
  simp only [List.forall_mem_cons]
  exact ⟨(definite_keyword _).map, (definite_keyword _).map, (definite_keyword _).map,
    (definite_keyword _).map, by simp⟩

/-- The length in an array type, with the `;` before it. -/
def lengthParts : Parser (List Char) := do
  let _ ← symbol ';'
  padded wholeNumber

theorem definite_lengthParts : lengthParts.Definite :=
  (definite_symbol ';').bind fun _ => definite_wholeNumber.padded

theorem definite_arrayParts (h : (ty limit).Definite) : (arrayParts limit).Definite :=
  h.bind fun _ => definite_lengthParts.optional.map

theorem definite_ty : (ty limit).Definite := by
  induction limit with
  | zero => exact fun cs => .inr fun pos => ⟨_, rfl⟩
  | succ limit ih =>
    rw [ty_succ]
    apply definite_firstOf
    simp only [List.forall_mem_cons]
    exact ⟨definite_scalarTy, (definite_symbol '&').bind fun _ => ih.map,
      ((definite_arrayParts ih).between '[' ']').checked,
      (definite_keyword "tape").bind fun _ => (ih.between '<' '>').map, by simp⟩

/-- The forms of a type that is read: a word, a reference, an array or a tape. -/
theorem ty_cases {t : Ty} (h : (ty (limit + 1)).Takes cs t rest) :
    scalarTy.Takes cs t rest ∨ scalarTy.Fails cs ∧
      ((∃ x t' mid, (symbol '&').Takes cs x mid ∧ (ty limit).Takes mid t' rest ∧ t = .ref t') ∨
       (∃ x y elem len mid mid', (symbol '[').Takes cs x mid ∧
          (arrayParts limit).Takes mid (elem, len) mid' ∧ (symbol ']').Takes mid' y rest ∧
          arrayTy elem len = .ok t) ∨
       (∃ t' mid, (keyword "tape").Takes cs () mid ∧ (between '<' '>' (ty limit)).Takes mid t' rest ∧
          t = .tape t')) := by
  rw [ty_succ] at h
  rcases definite_scalarTy.firstOf_cases h with h | ⟨hscalar, h⟩
  · exact .inl h
  refine .inr ⟨hscalar, ?_⟩
  have href : (do let _ ← symbol '&'; return .ref (← ty limit) : Parser Ty).Definite :=
    (definite_symbol '&').bind fun _ => definite_ty.map
  rcases href.firstOf_cases h with h | ⟨-, h⟩
  · obtain ⟨x, mid, hx, h⟩ := (definite_symbol '&').bind_cases (fun _ => definite_ty.map) h
    obtain ⟨t', ht', rfl⟩ := definite_ty.map_cases h
    exact .inl ⟨x, t', mid, hx, ht', rfl⟩
  have hparts : (between '[' ']' (arrayParts limit)).Definite :=
    (definite_arrayParts definite_ty).between '[' ']'
  rcases hparts.checked.firstOf_cases h with h | ⟨-, h⟩
  · obtain ⟨⟨elem, len⟩, h, ht⟩ := hparts.checked_cases h
    obtain ⟨x, y, mid, mid', hx, helem, hy⟩ := (definite_arrayParts definite_ty).between_cases h
    exact .inr (.inl ⟨x, y, elem, len, mid, mid', hx, helem, hy, ht⟩)
  have htape : (between '<' '>' (ty limit)).Definite := definite_ty.between '<' '>'
  have hlast : (do keyword "tape"; return .tape (← between '<' '>' (ty limit)) : Parser Ty).Definite :=
    (definite_keyword "tape").bind fun _ => htape.map
  rcases hlast.firstOf_cases h with h | ⟨-, h⟩
  · obtain ⟨x, mid, hx, h⟩ := (definite_keyword "tape").bind_cases (fun _ => htape.map) h
    obtain ⟨t', ht', rfl⟩ := htape.map_cases h
    exact .inr (.inr ⟨t', mid, hx, ht', rfl⟩)
  · obtain ⟨pos, alt, h⟩ := h 0
    cases h

theorem fails_symbol_of_ne {ch other x : Char} (h : (symbol ch).Takes cs x rest) (hne : ch ≠ other) :
    (symbol other).Fails cs := by
  obtain ⟨mid, hcs, -⟩ := symbol_cases h
  apply fails_symbol
  rw [hcs]
  simpa using hne

/-- Where the word `tape` stands no symbol does. -/
theorem fails_symbol_of_tape {ch : Char} (h : (keyword "tape").Takes cs () rest) (hch : ch ≠ 't') :
    (symbol ch).Fails cs := by
  apply fails_symbol
  have hword := keyword_cases h
  cases hcs : skip cs with
  | nil =>
    rw [hcs] at hword
    exact absurd hword (by decide)
  | cons c cs' =>
    rw [hcs, wordOf] at hword
    cases hc : isIdentPart c with
    | false => simp [hc] at hword
    | true =>
      rw [List.takeWhile_cons_of_pos hc] at hword
      obtain rfl : c = 't' := (List.cons.inj hword).1
      simpa using hch.symm

theorem takes_arrayParts_of_le {m : Nat} {elem : Ty} {len : Option (List Char)}
    (hty : ∀ {cs rest : List Char} {t : Ty}, (ty limit).Takes cs t rest → (ty m).Takes cs t rest)
    (h : (arrayParts limit).Takes cs (elem, len) rest) : (arrayParts m).Takes cs (elem, len) rest := by
  obtain ⟨t, mid, ht, h⟩ := definite_ty.bind_cases (fun _ => definite_lengthParts.optional.map) h
  obtain ⟨len', hlen, he⟩ := definite_lengthParts.optional.map_cases h
  cases he
  exact (hty ht).bind hlen.bind_pure

/-- What is read as a type at a depth of nesting is read as the same type when more is allowed. -/
theorem takes_ty_of_le {m : Nat} {t : Ty} (h : (ty limit).Takes cs t rest) (hm : limit ≤ m) :
    (ty m).Takes cs t rest := by
  induction limit generalizing m cs t rest with
  | zero =>
    obtain ⟨pos, alt, h⟩ := h 0
    cases h
  | succ limit ih =>
    obtain ⟨m, rfl⟩ : ∃ k, m = k + 1 := ⟨m - 1, by omega⟩
    have hinner : ∀ {cs rest : List Char} {t : Ty}, (ty limit).Takes cs t rest →
        (ty m).Takes cs t rest := fun h => ih h (by omega)
    rw [ty_succ]
    rcases ty_cases h with h | ⟨hscalar, ⟨x, t', mid, hx, ht', rfl⟩ |
      ⟨x, y, elem, len, mid, mid', hx, hparts, hy, ht⟩ | ⟨t', mid, hx, ht', rfl⟩⟩
    · exact h.firstOf
    · exact hscalar.firstOf (hx.bind (hinner ht').bind_pure).firstOf
    · have href := fails_symbol_of_ne hx (by decide : '[' ≠ '&')
      have hbetween : (between '[' ']' (arrayParts m)).Takes cs (elem, len) rest :=
        hx.bind ((takes_arrayParts_of_le hinner hparts).bind hy.bind_pure)
      exact hscalar.firstOf (href.bind.firstOf (hbetween.checked ht).firstOf)
    · have href := fails_symbol_of_tape hx (by decide : '&' ≠ 't')
      have harray := fails_symbol_of_tape hx (by decide : '[' ≠ 't')
      obtain ⟨y, z, mid', mid'', hy, ht', hz⟩ := definite_ty.between_cases ht'
      have hbetween : (between '<' '>' (ty m)).Takes mid t' rest :=
        hy.bind ((hinner ht').bind hz.bind_pure)
      exact hscalar.firstOf (href.bind.firstOf (harray.bind.checked.firstOf
        (hx.bind hbetween.bind_pure).firstOf))

/-! ### Declarations -/

theorem endsNumber_of_skip {mid : List Char} (h : skip rest = ']' :: mid) : EndsNumber rest := by
  cases rest with
  | nil => cases h
  | cons c cs =>
    cases hb : Text.isBlank c with
    | true =>
      have hpart : isIdentPart c = false := by
        cases hp : isIdentPart c with
        | false => rfl
        | true => rw [isBlank_eq_false_of_isIdentPart hp] at hb; cases hb
      refine ⟨endsWord_cons hpart, ?_⟩
      intro he
      obtain rfl : c = '.' := by simpa using he
      exact absurd hb (by decide)
    | false =>
      rw [skip_cons hb] at h
      obtain ⟨rfl, -⟩ := List.cons.inj h
      exact ⟨endsWord_cons (by decide), by simp⟩

/-- Digits before a closing bracket are an expression. -/
theorem takes_expr_of_digits {ds mid : List Char} (hds : isWhole ds = true)
    (hn : digitsValue ds < 2 ^ 63) (hrest : skip rest = ']' :: mid) :
    (expr (limit + 1)).Takes (ds ++ rest) (.int (Int64.ofNat (digitsValue ds))) (skip rest) := by
  have hends := endsNumber_of_skip hrest
  have hnumber : number.Takes (ds ++ rest) (.int (Int64.ofNat (digitsValue ds))) (skip rest) := by
    rw [number_eq]
    apply Takes.padded
    rw [skip_isWhole hds]
    refine (takes_numeral_digits hds hends).checked ?_
    simp only [literal_digits, if_pos hn]
  have hunary : (unary (limit + 1) (expr limit)).Takes (ds ++ rest)
      (.int (Int64.ofNat (digitsValue ds))) (skip rest) := by
    rw [unary_eq]
    exact (takes_many_nil (fails_prefixOp_of_isWhole hds)).bind hnumber.firstOf.bind_pure
  have htier : ∀ k, k ≤ 6 → (tier (limit + 1) (expr limit) k).Takes (ds ++ rest)
      (.int (Int64.ofNat (digitsValue ds))) (skip rest) := by
    intro k hk
    induction k with
    | zero => exact hunary
    | succ k ih =>
      have hops : (padded (opsAt (6 - k))).Fails (skip rest) := by
        have hfollows : Follows (6 - k) (']' :: mid) := .close (by decide)
        have hfails := hfollows.fails_ops (by omega) (by omega)
        rwa [skip_cons (by decide), ← hrest] at hfails
      rw [tier, level_eq]
      exact (ih (by omega)).bind (takes_many_nil hops.bind).bind_pure
  exact htier 6 (Nat.le_refl 6)

theorem gives_scalarTy : scalarTy.Gives fun t => t.isArray = false := by
  apply gives_firstOf
  simp only [List.forall_mem_cons]
  exact ⟨.after fun _ => gives_pure rfl, .after fun _ => gives_pure rfl, .after fun _ => gives_pure rfl,
    .after fun _ => gives_pure rfl, by simp⟩

theorem arrayTy_cases {elem elem' : Ty} {len : Option (List Char)} {n : Nat}
    (h : arrayTy elem len = .ok (.array elem' (some n))) :
    elem = elem' ∧ ∃ ds, len = some ds ∧ digitsValue ds = n := by
  cases len with
  | none => cases h
  | some ds =>
    rw [arrayTy_some] at h
    by_cases hn : digitsValue ds < 2 ^ 64
    · rw [if_pos hn] at h
      cases h
      exact ⟨rfl, ds, rfl, rfl⟩
    · rw [if_neg hn] at h
      cases h

/-- What is read as an array type with a length that fits is read as element type and length of an
array. -/
theorem takes_arrayLength {elem : Ty} {n : Nat} (hn : n < 2 ^ 63)
    (h : (ty (limit + 1)).Takes cs (.array elem (some n)) rest) :
    (between '[' ']' (arrayLength (limit + 1))).Takes cs (elem, .int (Int64.ofNat n)) rest := by
  rcases ty_cases h with h | ⟨-, ⟨_, _, _, -, -, ht⟩ | ⟨x, y, elem', len, mid, mid', hx, hparts, hy, ht⟩ |
    ⟨_, _, -, -, ht⟩⟩
  · obtain ⟨pos, alt, h⟩ := h 0
    exact absurd (gives_scalarTy _ _ _ _ h) (by simp [Ty.isArray])
  · cases ht
  · obtain ⟨rfl, ds, rfl, rfl⟩ := arrayTy_cases ht
    obtain ⟨t, mid₁, helem, hparts⟩ := definite_ty.bind_cases
      (fun _ => definite_lengthParts.optional.map) hparts
    obtain ⟨len, hlen, he⟩ := definite_lengthParts.optional.map_cases hparts
    cases he
    obtain ⟨ds', he, hlen⟩ | ⟨he, -⟩ := definite_lengthParts.optional_cases hlen
    · cases he
      obtain ⟨z, mid₂, hz, hlen⟩ := (definite_symbol ';').bind_cases
        (fun _ => definite_wholeNumber.padded) hlen
      obtain ⟨mid₃, hds, rfl⟩ := definite_wholeNumber.padded_cases hlen
      obtain ⟨mid₄, hclose, -⟩ := symbol_cases hy
      obtain ⟨mid₅, -, rfl⟩ := symbol_cases hz
      rw [skip_skip] at hds hclose
      obtain ⟨htext, hwhole⟩ := wholeNumber_cases hds
      have hexpr : (expr (limit + 1)).Takes (skip mid₅) (.int (Int64.ofNat (digitsValue ds)))
          (skip mid₃) := htext ▸ takes_expr_of_digits hwhole hn hclose
      exact hx.bind (Takes.bind ((takes_ty_of_le helem (by omega)).bind (hz.bind hexpr.bind_pure))
        hy.bind_pure)
    · cases he
  · cases ht

/-- A declaration is only read as such when it is not one of an array. -/
theorem isPlain_of_ok {c d : Cursor} {alt : Option Failure} {l : Local} {why : Failure}
    (hfail : ended (arrayDecl limit) c = .fail why) (h : ended (localDecl limit) c = .ok l d alt) :
    l.isPlain := by
  intro elem n hty hinit
  by_contra hn
  obtain ⟨l', c₁, _, _, hlocal, hend⟩ := bind_ok h
  obtain ⟨x, c₂, _, _, hhead, hlocal⟩ := bind_ok hlocal
  obtain ⟨t, c₃, _, _, ht, hlocal⟩ := bind_ok hlocal
  obtain ⟨init, c₄, _, _, hopt, hlocal⟩ := bind_ok hlocal
  obtain ⟨y, c₅, _, _, hsemi, hend⟩ := bind_ok hend
  cases hlocal
  cases hend
  cases hty
  cases hinit
  obtain ⟨a, ha, -⟩ | ⟨-, rfl⟩ := optional_ok hopt
  · cases ha
  cases limit with
  | zero => cases ht
  | succ limit =>
    have hread : (ended (arrayDecl (limit + 1))).Takes c.rest (.arrayDecl x elem (.int (Int64.ofNat n)))
        d.rest := by
      refine Takes.bind ?_ ((definite_symbol ';').takes hsemi).bind_pure
      rw [arrayDecl_eq]
      refine (definite_letHead.takes hhead).bind ?_
      exact (takes_arrayLength (by omega) (definite_ty.takes ht)).bind_pure
    obtain ⟨pos, alt', hread⟩ := hread c.pos
    rw [show (⟨c.pos, c.rest⟩ : Cursor) = c from rfl, hfail] at hread
    cases hread

end Fluxion.Grammar
