import Mathlib.Data.List.Basic
import Fluxion.Proofs.Decimal.Digits
import Fluxion.Proofs.Grammar.Words

/-!
How numbers are read back. Digits are read as far as they go, and a point, a power of ten or a letter
would continue a number.
-/

namespace Fluxion.Grammar

open Fluxion.Grammar.Parser Fluxion.Decimal

variable {ds rest : List Char}

/-- A number may end before the text. -/
def EndsNumber (cs : List Char) : Prop := EndsWord cs ∧ cs.head? ≠ some '.'

theorem EndsWord.not_isDigit (h : EndsWord rest) : ∀ c ∈ rest.head?, c.isDigit = false := by
  intro c hc
  have hpart := h c hc
  rw [← Bool.not_eq_true] at hpart ⊢
  exact fun hd => hpart (isIdentPart_of_isDigit hd)

theorem takes_digits (hne : ds ≠ []) (hds : areDigits ds = true)
    (hrest : ∀ c ∈ rest.head?, c.isDigit = false) : digits.Takes (ds ++ rest) ds rest := by
  cases ds with
  | nil => exact absurd rfl hne
  | cons c cs =>
    simp only [areDigits, List.all_cons, Bool.and_eq_true, List.all_eq_true] at hds
    exact (takes_satisfy hds.1).bind (takes_span hds.2 hrest).bind_pure

theorem takes_wholeNumber (hds : isWhole ds = true) (hrest : ∀ c ∈ rest.head?, c.isDigit = false) :
    wholeNumber.Takes (ds ++ rest) ds rest := by
  cases ds with
  | nil => simp [isWhole] at hds
  | cons c cs =>
    by_cases hc : c = '0'
    · obtain rfl : cs = [] := by simpa [isWhole, hc] using hds
      subst hc
      have hfirst : (satisfy fun c => c.isDigit && c != '0').Fails ('0' :: rest) :=
        fails_satisfy (by simp)
      exact hfirst.bind.orElse takes_char.bind_pure
    · simp only [isWhole, hc, if_false, Bool.and_eq_true, areDigits, List.all_eq_true] at hds
      exact ((takes_satisfy (by simp [hds.1, hc])).bind (takes_span hds.2 hrest).bind_pure).orElse

theorem fails_wholeNumber (hrest : ∀ c ∈ rest.head?, c.isDigit = false) :
    wholeNumber.Fails rest := by
  apply Fails.orElse_fails
  · exact (fails_satisfy fun c hc => by simp [hrest c hc]).bind
  · exact (fails_char fun hc => by simpa using hrest '0' hc).bind

/-- No power of ten is read where a word may end. -/
theorem fails_exponent (hrest : EndsWord rest) : exponent.Fails rest := by
  apply Fails.bind
  apply fails_satisfy
  intro c hc
  have hpart := hrest c hc
  rw [Bool.or_eq_false_iff, beq_eq_false_iff_ne, beq_eq_false_iff_ne]
  constructor
  · rintro rfl
    simp [isIdentPart] at hpart
  · rintro rfl
    simp [isIdentPart] at hpart

theorem skip_isWhole (hds : isWhole ds = true) : skip (ds ++ rest) = ds ++ rest := by
  obtain ⟨c, cs, rfl, hc⟩ := exists_cons_of_isWhole hds
  exact skip_cons (isBlank_eq_false_of_isIdentPart (isIdentPart_of_isDigit hc))

/-- Point and fraction of a number. -/
def fraction : Parser (Option (List Char)) := do
  let _ ← char '.'
  optional digits

/-- A number as it is written: whole part, fraction and power of ten. -/
def numeral : Parser (List Char × Option (Option (List Char)) × Option (Option Char × List Char)) := do
  let whole ← wholeNumber
  let frac ← optional fraction
  let power ← optional exponent
  return (whole, frac, power)

theorem number_eq :
    number = padded (checked numeral fun (whole, frac, power) => literal whole frac power) := rfl

/-- A number is read from its parts. -/
theorem takes_numeral {cs cs' : List Char} {frac : Option (Option (List Char))}
    {power : Option (Option Char × List Char)} (hds : isWhole ds = true)
    (hcs : ∀ c ∈ cs.head?, c.isDigit = false) (hfrac : (optional fraction).Takes cs frac cs')
    (hpower : (optional exponent).Takes cs' power rest) :
    numeral.Takes (ds ++ cs) (ds, frac, power) rest :=
  (takes_wholeNumber hds hcs).bind (hfrac.bind hpower.bind_pure)

theorem fails_fraction (h : rest.head? ≠ some '.') : fraction.Fails rest := (fails_char h).bind

/-- Digits alone are a number without fraction and power. -/
theorem takes_numeral_digits (hds : isWhole ds = true) (hrest : EndsNumber rest) :
    numeral.Takes (ds ++ rest) (ds, none, none) rest :=
  takes_numeral hds hrest.1.not_isDigit (fails_fraction hrest.2).optional
    (fails_exponent hrest.1).optional

theorem literal_digits (ds : List Char) : literal ds none none =
    if digitsValue ds < 2 ^ 63 then .ok (.int (Int64.ofNat (digitsValue ds)))
    else .error (some "integer literal out of range") := rfl

/-- A whole number that fits is read as an integer. -/
theorem takes_number_int {n : Nat} (hn : n < 2 ^ 63) (hrest : EndsNumber rest) :
    number.Takes (Nat.toDigits 10 n ++ rest) (.int (Int64.ofNat n)) (skip rest) := by
  have hwhole := isWhole_toDigits n
  rw [number_eq]
  apply Takes.padded
  rw [skip_isWhole hwhole]
  have hlit : literal (Nat.toDigits 10 n) none none = .ok (.int (Int64.ofNat n)) := by
    rw [literal_digits, digitsValue_toDigits, if_pos hn]
  exact (takes_numeral_digits hwhole hrest).checked hlit

/-- A whole number that does not fit is refused. -/
theorem fails_number_int {n : Nat} (hn : ¬ n < 2 ^ 63) (hrest : EndsNumber rest) :
    number.Fails (Nat.toDigits 10 n ++ rest) := by
  have hwhole := isWhole_toDigits n
  rw [number_eq]
  apply Fails.padded
  rw [skip_isWhole hwhole]
  have hlit : literal (Nat.toDigits 10 n) none none = .error (some "integer literal out of range") := by
    rw [literal_digits, digitsValue_toDigits, if_neg hn]
  exact (takes_numeral_digits hwhole hrest).checked_fails hlit

theorem fails_number (h : ∀ c ∈ (skip rest).head?, c.isDigit = false) : number.Fails rest :=
  Fails.padded (fails_wholeNumber h).bind.checked

theorem fails_number_of_isWord {w : List Char} (h : isWord w = true) : number.Fails (w ++ rest) := by
  apply fails_number
  rw [skip_word h]
  obtain ⟨c, cs, rfl, hc⟩ := exists_cons_of_isWord h
  intro d hd
  obtain rfl : c = d := by simpa using hd
  exact isDigit_eq_false_of_isIdentStart hc

theorem takes_power {power : List Char} {e : Int} (h : PowerText power e) (hrest : EndsWord rest) :
    ∃ found, (optional exponent).Takes (power ++ rest) found rest ∧
      (power ≠ [] → found ≠ none) ∧
      ∀ whole frac, (frac ≠ none ∨ found ≠ none) → literal whole frac found =
        .ok (.float (Written.toFloat ⟨whole, (frac.getD none).getD [], e⟩ false)) := by
  cases h with
  | missing =>
    refine ⟨none, (fails_exponent hrest).optional, by simp, ?_⟩
    intro whole frac h
    cases frac with
    | none => simp at h
    | some frac => rfl
  | @positive ds hne hds =>
    have hplain : (optional (satisfy fun c => c == '+' || c == '-')).Takes (ds ++ rest) none
        (ds ++ rest) := by
      apply Fails.optional
      apply fails_satisfy
      intro c hc
      cases ds with
      | nil => exact absurd rfl hne
      | cons d ds =>
        obtain rfl : d = c := by simpa using hc
        simp only [areDigits, List.all_cons, Bool.and_eq_true] at hds
        rw [Bool.or_eq_false_iff, beq_eq_false_iff_ne, beq_eq_false_iff_ne]
        constructor <;> rintro rfl <;> simp at hds
    refine ⟨some (none, ds), Takes.optional ?_, by simp, ?_⟩
    · exact (takes_satisfy (by simp)).bind
        (hplain.bind (takes_digits hne hds hrest.not_isDigit).bind_pure)
    · intro whole frac _
      cases frac <;> rfl
  | @negative ds hne hds =>
    refine ⟨some (some '-', ds), Takes.optional ?_, by simp, ?_⟩
    · exact (takes_satisfy (by simp)).bind ((Takes.optional (takes_satisfy (by simp))).bind
        (takes_digits hne hds hrest.not_isDigit).bind_pure)
    · intro whole frac _
      cases frac <;> rfl

/-- A decimal with a point or a power of ten is read as the float nearest to it. -/
theorem takes_number_float {text : List Char} {w : Written} (h : Spells text w)
    (hrest : EndsNumber rest) :
    number.Takes (text ++ rest) (.float (w.toFloat false)) (skip rest) := by
  obtain ⟨whole, frac, e⟩ := w
  obtain ⟨hwhole, hfrac, power, hpower, rfl, hmarked⟩ := h
  obtain ⟨found, hfound, hsome, hliteral⟩ := takes_power hpower hrest.1
  have hstop : ∀ c ∈ (power ++ rest).head?, c.isDigit = false ∧ c ≠ '.' := by
    intro c hc
    cases hpower with
    | missing => exact ⟨hrest.1.not_isDigit c hc, fun he => hrest.2 (he ▸ hc)⟩
    | positive | negative =>
      obtain rfl : 'e' = c := by simpa using hc
      decide
  rw [number_eq, List.append_assoc, List.append_assoc]
  apply Takes.padded
  rw [skip_isWhole hwhole]
  cases frac with
  | nil =>
    refine (takes_numeral hwhole (fun c hc => (hstop c hc).1)
      (fails_fraction fun hc => (hstop '.' hc).2 rfl).optional hfound).checked ?_
    exact hliteral whole none (.inr (hsome (hmarked.resolve_left (by simp))))
  | cons d ds =>
    have hread : (optional fraction).Takes (fractionText (d :: ds) ++ (power ++ rest))
        (some (some (d :: ds))) (power ++ rest) :=
      Takes.optional (takes_char.bind
        (takes_digits (by simp) hfrac fun c hc => (hstop c hc).1).optional)
    refine (takes_numeral hwhole (by simp [fractionText]) hread hfound).checked ?_
    exact hliteral whole (some (some (d :: ds))) (.inl (by simp))

end Fluxion.Grammar
