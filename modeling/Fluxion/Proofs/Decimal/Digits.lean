import Mathlib.Algebra.Order.Ring.Nat
import Fluxion.Decimal.Layout
import Fluxion.Decimal.Reader

/-!
Decimal digits, and texts of decimals. The digits of a number give the number back, and no number but
zero is written with a zero in front.
-/

namespace Fluxion.Decimal

theorem toList_toString_nat (n : Nat) : (toString n).toList = Nat.toDigits 10 n := Nat.toList_repr

theorem toList_pushn (s : String) (c : Char) (n : Nat) :
    (s.pushn c n).toList = s.toList ++ List.replicate n c := by
  rw [String.pushn_eq_repeat_push]
  induction n with
  | zero => simp [Nat.repeat]
  | succ n ih => rw [Nat.repeat, String.toList_push, ih, List.append_assoc, ← List.replicate_succ']

theorem digitsValue_eq (ds : List Char) : digitsValue ds = Nat.ofDigitChars 10 ds 0 := rfl

@[simp] theorem digitsValue_toDigits (n : Nat) : digitsValue (Nat.toDigits 10 n) = n :=
  Nat.ofDigitChars_ten_toDigits

theorem digitsValue_append_zeros (ds : List Char) (n : Nat) :
    digitsValue (ds ++ List.replicate n '0') = digitsValue ds * 10 ^ n := by
  rw [digitsValue_eq, Nat.ofDigitChars_append, Nat.ofDigitChars_replicate_zero, Nat.mul_comm]
  rfl

theorem digitsValue_zeros_append (n : Nat) (ds : List Char) :
    digitsValue (List.replicate n '0' ++ ds) = digitsValue ds := by
  rw [digitsValue_eq, Nat.ofDigitChars_append, Nat.ofDigitChars_replicate_zero, Nat.mul_zero]
  rfl

/-- A list of digits. -/
def areDigits (ds : List Char) : Bool := ds.all Char.isDigit

theorem areDigits_toDigits (n : Nat) : areDigits (Nat.toDigits 10 n) = true :=
  List.all_eq_true.mpr fun _ h => Nat.isDigit_of_mem_toDigits (by decide) (by decide) h

theorem areDigits_zeros (n : Nat) : areDigits (List.replicate n '0') = true := by
  simp [areDigits]

theorem areDigits_append {xs ys : List Char} :
    areDigits (xs ++ ys) = true ↔ areDigits xs = true ∧ areDigits ys = true := by
  simp [areDigits, List.all_append]

/-- Digits without a superfluous zero in front. -/
def isWhole : List Char → Bool
  | [] => false
  | c :: cs => if c = '0' then cs.isEmpty else c.isDigit && areDigits cs

/-- Only zero is written with a zero in front. -/
theorem exists_cons_toDigits {n : Nat} (h : 0 < n) :
    ∃ c cs, Nat.toDigits 10 n = c :: cs ∧ c ≠ '0' := by
  induction n using Nat.strong_induction_on with
  | _ n ih =>
    rw [Nat.toDigits_eq_if (by decide)]
    by_cases hn : n < 10
    · refine ⟨n.digitChar, [], if_pos hn, ?_⟩
      rw [Ne, Nat.digitChar_eq_zero]
      omega
    · obtain ⟨c, cs, hc, h0⟩ := ih (n / 10) (by omega) (by omega)
      exact ⟨c, cs ++ [(n % 10).digitChar], by rw [if_neg hn, hc, List.cons_append], h0⟩

/-- Digits of a positive number stay without a zero in front when others follow. -/
theorem isWhole_toDigits_append {n : Nat} (h : 0 < n) {ds : List Char}
    (hds : areDigits ds = true) : isWhole (Nat.toDigits 10 n ++ ds) = true := by
  obtain ⟨c, cs, hc, h0⟩ := exists_cons_toDigits h
  have hall := areDigits_toDigits n
  rw [hc] at hall ⊢
  simp only [areDigits, List.all_cons, Bool.and_eq_true] at hall
  simp only [List.cons_append, isWhole, h0, if_false, hall.1, Bool.true_and]
  exact areDigits_append.mpr ⟨hall.2, hds⟩

theorem isWhole_toDigits (n : Nat) : isWhole (Nat.toDigits 10 n) = true := by
  rcases Nat.eq_zero_or_pos n with rfl | h
  · decide
  · simpa using isWhole_toDigits_append h (rfl : areDigits [] = true)

theorem areDigits_of_isWhole {ds : List Char} (h : isWhole ds = true) : areDigits ds = true := by
  cases ds with
  | nil => rfl
  | cons c cs =>
    by_cases hc : c = '0'
    · obtain rfl : cs = [] := by simpa [isWhole, hc] using h
      simp [areDigits, hc]
    · simpa [isWhole, hc, areDigits] using h

theorem exists_cons_of_isWhole {ds : List Char} (h : isWhole ds = true) :
    ∃ c cs, ds = c :: cs ∧ c.isDigit = true := by
  have hall := areDigits_of_isWhole h
  cases ds with
  | nil => simp [isWhole] at h
  | cons c cs =>
    simp only [areDigits, List.all_cons, Bool.and_eq_true] at hall
    exact ⟨c, cs, rfl, hall.1⟩

/-! ### Texts of decimals -/

/-- A fraction with its point; without digits there is no point. -/
def fractionText : List Char → List Char
  | [] => []
  | d :: ds => '.' :: d :: ds

/-- The text of a power of ten, and its exponent. -/
inductive PowerText : List Char → Int → Prop where
  | missing : PowerText [] 0
  | positive {ds : List Char} (some : ds ≠ []) (digits : areDigits ds = true) :
      PowerText ('e' :: ds) (digitsValue ds)
  | negative {ds : List Char} (some : ds ≠ []) (digits : areDigits ds = true) :
      PowerText ('e' :: '-' :: ds) (-(digitsValue ds : Int))

/-- The text writes the decimal, with a point or a power of ten. -/
structure Spells (text : List Char) (w : Written) : Prop where
  whole : isWhole w.whole = true
  frac : areDigits w.frac = true
  spelled : ∃ power, PowerText power w.exponent ∧ text = w.whole ++ (fractionText w.frac ++ power) ∧
    (w.frac ≠ [] ∨ power ≠ [])

/-- The literal for the float reads back as the float. -/
def ReadsBack (v : Float) : Prop :=
  isNegative v = false ∧ ∃ w, Spells (render .literal v).toList w ∧ w.toFloat false = v

end Fluxion.Decimal
