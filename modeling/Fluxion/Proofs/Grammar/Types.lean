import Mathlib.Data.List.Basic
import Fluxion.Proofs.Grammar.Literals

/-!
How types are read back from their texts.
-/

namespace Fluxion

/-- All array lengths in the type fit a machine word. -/
def Ty.lengthsFit : Ty → Bool
  | .ref t => t.lengthsFit
  | .array t (some n) => t.lengthsFit && decide (n < 2 ^ 64)
  | .array t none => t.lengthsFit
  | .tape t => t.lengthsFit
  | _ => true

namespace Grammar

open Fluxion.Grammar.Parser Fluxion.Decimal

variable {cs rest : List Char}

theorem isBlank_of_mem_head_tyText (t : Ty) :
    ∃ c cs, t.text.toList = c :: cs ∧ Text.isBlank c = false := by
  cases t with
  | float => exact ⟨'f', _, rfl, by decide⟩
  | int => exact ⟨'i', _, rfl, by decide⟩
  | bool => exact ⟨'b', _, rfl, by decide⟩
  | void => exact ⟨'v', _, rfl, by decide⟩
  | ref t => exact ⟨'&', t.text.toList, by simp [Ty.text], by decide⟩
  | array t len =>
    cases len with
    | none => exact ⟨'[', _, by simp [Ty.text]; rfl, by decide⟩
    | some n => exact ⟨'[', _, by simp [Ty.text]; rfl, by decide⟩
  | tape t => exact ⟨'t', _, by simp [Ty.text]; rfl, by decide⟩

theorem skip_tyText (t : Ty) : skip (t.text.toList ++ rest) = t.text.toList ++ rest := by
  obtain ⟨c, cs, ht, hc⟩ := isBlank_of_mem_head_tyText t
  rw [ht, List.cons_append, skip_cons hc]

/-- The types that are words. -/
def scalarTy : Parser Ty := firstOf
  [(do keyword "f64"; return .float),
   (do keyword "i64"; return .int),
   (do keyword "bool"; return .bool),
   (do keyword "void"; return .void)]

/-- What stands between the brackets of an array type. -/
def arrayParts (limit : Nat) : Parser (Ty × Option (List Char)) := do
  let elem ← ty limit
  let len ← optional (do
    let _ ← symbol ';'
    padded wholeNumber)
  return (elem, len)

theorem ty_succ (limit : Nat) : ty (limit + 1) = firstOf
    [scalarTy,
     (do
      let _ ← symbol '&'
      return .ref (← ty limit)),
     checked (between '[' ']' (arrayParts limit)) fun (elem, len) => arrayTy elem len,
     (do
      keyword "tape"
      return .tape (← between '<' '>' (ty limit)))] := rfl

theorem fails_scalarTy (h : ∀ text ∈ ["f64", "i64", "bool", "void"], (keyword text).Fails cs) :
    scalarTy.Fails cs := by
  apply fails_firstOf
  intro p hp
  simp only [List.mem_cons, List.not_mem_nil, or_false] at hp
  rcases hp with rfl | rfl | rfl | rfl <;> exact (h _ (by simp)).bind

theorem fails_scalarTy_of_head {c : Char} (hc : isIdentPart c = false)
    (hb : Text.isBlank c = false) : scalarTy.Fails (c :: cs) :=
  fails_scalarTy fun text htext => fails_keyword_of_head hc hb (by rintro rfl; simp at htext)

/-- A word other than those before it in the list is read as the type it stands for. -/
theorem takes_ty_word {text : String} {t : Ty} {limit : Nat} (hrest : EndsWord rest)
    (h : (text, t) ∈ [("f64", Ty.float), ("i64", .int), ("bool", .bool), ("void", .void)]) :
    (ty (limit + 1)).Takes (text.toList ++ rest) t (skip rest) := by
  rw [ty_succ]
  apply Takes.firstOf
  simp only [List.mem_cons, Prod.mk.injEq, List.not_mem_nil, or_false] at h
  have hfails : ∀ word other : String, isWord word.toList = true → word ≠ other →
      (keyword other).Fails (word.toList ++ rest) := fun word other hw hne =>
    fails_keyword_of_ne hw hrest fun he => hne (String.toList_inj.mp he)
  rcases h with ⟨rfl, rfl⟩ | ⟨rfl, rfl⟩ | ⟨rfl, rfl⟩ | ⟨rfl, rfl⟩
  · exact (takes_keyword _ (by decide) hrest).bind_pure.firstOf
  · exact (hfails _ "f64" (by decide) (by decide)).bind.firstOf
      (takes_keyword _ (by decide) hrest).bind_pure.firstOf
  · exact (hfails _ "f64" (by decide) (by decide)).bind.firstOf
      ((hfails _ "i64" (by decide) (by decide)).bind.firstOf
        (takes_keyword _ (by decide) hrest).bind_pure.firstOf)
  · exact (hfails _ "f64" (by decide) (by decide)).bind.firstOf
      ((hfails _ "i64" (by decide) (by decide)).bind.firstOf
        ((hfails _ "bool" (by decide) (by decide)).bind.firstOf
          (takes_keyword _ (by decide) hrest).bind_pure.firstOf))

/-- The length of an array type as text, with the `;` before it. -/
def lengthText : Option Nat → List Char
  | none => []
  | some n => ';' :: ' ' :: Nat.toDigits 10 n

theorem toList_text_array (t : Ty) (len : Option Nat) :
    (Ty.array t len).text.toList = '[' :: (t.text.toList ++ (lengthText len ++ [']'])) := by
  cases len with
  | none => simp [Ty.text, lengthText]
  | some n => simp [Ty.text, lengthText]

theorem takes_arrayParts {t : Ty} {limit : Nat} (len : Option Nat)
    (ht : ∀ {cs : List Char}, EndsWord cs → (ty limit).Takes (t.text.toList ++ cs) t (skip cs)) :
    (arrayParts limit).Takes (t.text.toList ++ (lengthText len ++ ']' :: rest))
      (t, len.map (Nat.toDigits 10)) (']' :: rest) := by
  cases len with
  | none =>
    have hskip : skip (']' :: rest) = ']' :: rest := skip_cons (by decide)
    have hnone : (do let _ ← symbol ';'; padded wholeNumber : Parser (List Char)).Fails
        (']' :: rest) := (fails_symbol (by simp [hskip])).bind
    have hread : (ty limit).Takes (t.text.toList ++ ']' :: rest) t (skip (']' :: rest)) :=
      ht (endsWord_cons (by decide))
    rw [hskip] at hread
    exact hread.bind hnone.optional.bind_pure
  | some n =>
    have hwhole := isWhole_toDigits n
    have hread : (ty limit).Takes (t.text.toList ++ ';' :: ' ' :: (Nat.toDigits 10 n ++ ']' :: rest)) t
        (skip (';' :: ' ' :: (Nat.toDigits 10 n ++ ']' :: rest))) := ht (endsWord_cons (by decide))
    rw [skip_cons (by decide)] at hread
    have hnumber : (padded wholeNumber).Takes (Nat.toDigits 10 n ++ ']' :: rest)
        (Nat.toDigits 10 n) (']' :: rest) := by
      have hpad : (padded wholeNumber).Takes (Nat.toDigits 10 n ++ ']' :: rest)
          (Nat.toDigits 10 n) (skip (']' :: rest)) :=
        Takes.padded (by rw [skip_isWhole hwhole]; exact takes_wholeNumber hwhole (by simp))
      rwa [skip_cons (by decide)] at hpad
    have hlen : (do let _ ← symbol ';'; padded wholeNumber : Parser (List Char)).Takes
        (';' :: ' ' :: (Nat.toDigits 10 n ++ ']' :: rest)) (Nat.toDigits 10 n) (']' :: rest) := by
      refine (takes_symbol (by decide)).bind ?_
      rw [skip_cons_blank (by decide), skip_isWhole hwhole]
      exact hnumber
    exact hread.bind hlen.optional.bind_pure

theorem arrayTy_digits {t : Ty} {len : Option Nat} (h : (Ty.array t len).lengthsFit = true) :
    arrayTy t (len.map (Nat.toDigits 10)) = .ok (.array t len) := by
  cases len with
  | none => rfl
  | some n =>
    simp only [Ty.lengthsFit, Bool.and_eq_true, decide_eq_true_eq] at h
    simp only [arrayTy, Option.map_some, digitsValue_toDigits]
    exact if_pos h.2

theorem toList_text_tape (t : Ty) :
    (Ty.tape t).text.toList = "tape".toList ++ '<' :: (t.text.toList ++ ['>']) := by
  simp [Ty.text]

/-- The text of a type is read back, before anything that does not go on with its last word. -/
theorem takes_ty {t : Ty} (ht : t.lengthsFit = true) (hrest : EndsWord rest) {limit : Nat}
    (hlimit : t.text.toList.length < limit) :
    (ty limit).Takes (t.text.toList ++ rest) t (skip rest) := by
  induction t generalizing limit rest with
  | float | int | bool | void =>
    obtain ⟨limit, rfl⟩ : ∃ n, limit = n + 1 := ⟨limit - 1, by omega⟩
    exact takes_ty_word hrest (by simp [Ty.text])
  | ref t ih =>
    obtain ⟨limit, rfl⟩ : ∃ n, limit = n + 1 := ⟨limit - 1, by omega⟩
    have htext : (Ty.ref t).text.toList = '&' :: t.text.toList := by simp [Ty.text]
    rw [htext] at hlimit ⊢
    rw [ty_succ, List.cons_append]
    refine (fails_scalarTy_of_head (by decide) (by decide)).firstOf (Takes.firstOf ?_)
    refine (takes_symbol (by decide)).bind ?_
    rw [skip_tyText]
    exact (ih ht hrest (by simpa using hlimit)).bind_pure
  | array t len ih =>
    obtain ⟨limit, rfl⟩ : ∃ n, limit = n + 1 := ⟨limit - 1, by omega⟩
    have hfit : t.lengthsFit = true := by
      cases len with
      | none => exact ht
      | some n =>
        simp only [Ty.lengthsFit, Bool.and_eq_true] at ht
        exact ht.1
    rw [toList_text_array] at hlimit ⊢
    simp only [List.length_cons, List.length_append] at hlimit
    have helem : ∀ {cs : List Char}, EndsWord cs →
        (ty limit).Takes (t.text.toList ++ cs) t (skip cs) := fun hcs => ih hfit hcs (by omega)
    rw [ty_succ, List.cons_append, List.append_assoc, List.append_assoc, List.singleton_append]
    refine (fails_scalarTy_of_head (by decide) (by decide)).firstOf (Fails.firstOf ?_
      (Takes.firstOf ?_))
    · exact (fails_symbol (by simp [skip_cons (c := '[') (by decide)])).bind
    · have hparts : (arrayParts limit).Takes (skip (t.text.toList ++ (lengthText len ++ ']' :: rest)))
          (t, len.map (Nat.toDigits 10)) (']' :: rest) := by
        rw [skip_tyText]
        exact takes_arrayParts len helem
      exact (Takes.between (by decide) (by decide) hparts).checked (arrayTy_digits ht)
  | tape t ih =>
    obtain ⟨limit, rfl⟩ : ∃ n, limit = n + 1 := ⟨limit - 1, by omega⟩
    rw [toList_text_tape] at hlimit ⊢
    simp only [List.length_cons, List.length_append] at hlimit
    have hinner : (ty limit).Takes (t.text.toList ++ '>' :: rest) t (skip ('>' :: rest)) :=
      ih ht (endsWord_cons (by decide)) (by omega)
    rw [skip_cons (by decide)] at hinner
    rw [ty_succ, List.append_assoc, List.cons_append, List.append_assoc, List.singleton_append]
    have hends : EndsWord ('<' :: (t.text.toList ++ ('>' :: rest))) := endsWord_cons (by decide)
    have hne : ∀ text ∈ ["f64", "i64", "bool", "void"], "tape".toList ≠ text.toList := by decide
    have hskip : skip ("tape".toList ++ '<' :: (t.text.toList ++ '>' :: rest)) =
        "tape".toList ++ '<' :: (t.text.toList ++ '>' :: rest) := skip_word (by decide)
    refine Fails.firstOf (fails_scalarTy fun text htext =>
      fails_keyword_of_ne (by decide) hends (hne text htext)) (Fails.firstOf ?_
        (Fails.firstOf ?_ (Takes.firstOf ?_)))
    · refine (fails_symbol ?_).bind
      rw [hskip]
      simp
    · refine Fails.checked (fails_between ?_)
      rw [hskip]
      simp
    · refine (takes_keyword _ (by decide) hends).bind ?_
      rw [skip_cons (by decide)]
      have hbetween := Takes.between (l := '<') (r := '>') (by decide) (by decide)
        (by rw [skip_tyText]; exact hinner)
      exact hbetween.bind_pure

end Grammar

end Fluxion
