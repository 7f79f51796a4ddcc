import Mathlib.Algebra.Group.Nat.Defs
import Fluxion.Proofs.Results
import Fluxion.Request.Spec

/-!
The grammar of lists of independent variables, which the reader of such lists accepts exactly.
-/

namespace Fluxion.Request

open Listing (Token)

/-! ### The grammar -/

/-- The token is a number that is not negative. -/
def IsNumber (t : Token) (n : Nat) : Prop := ∃ i : Int64, t = .int i ∧ i.toInt = n

/-- The token refers to the parameter. -/
inductive ParamRef.Written : ParamRef → Token → Prop
  | name (x : String) : Written (.name x) (.ident x)
  | position {t : Token} {i : Nat} (h : IsNumber t i) : Written (.position i) t

/-- What follows the reference: nothing, an element, or a range of elements. -/
inductive RangeWritten : Option (Nat × Nat) → List Token → Prop
  | whole : RangeWritten none []
  | element {t : Token} {i : Nat} (h : IsNumber t i) :
      RangeWritten (some (i, i)) [.leftBracket, t, .rightBracket]
  | range {t u : Token} {lo hi : Nat} (hlo : IsNumber t lo) (hhi : IsNumber u hi) :
      RangeWritten (some (lo, hi)) [.leftBracket, t, .colon, u, .rightBracket]

/-- The tokens of an entry. -/
inductive Spec.Written : Spec → List Token → Prop
  | entry {param : ParamRef} {t : Token} {range : Option (Nat × Nat)} {ts : List Token}
      (hparam : param.Written t) (hrange : RangeWritten range ts) : Written ⟨param, range⟩ (t :: ts)

/-- The tokens of a list: entries with commas between them. The list may be empty, and a comma may
follow the last entry. -/
inductive Spec.Listed : List Spec → List Token → Prop
  | empty : Listed [] []
  | last {e : Spec} {piece : List Token} (h : e.Written piece) : Listed [e] piece
  | cons {e : Spec} {es : List Spec} {piece rest : List Token} (h : e.Written piece)
      (hrest : Listed es rest) : Listed (e :: es) (piece ++ .comma :: rest)

variable {t : Token} {ts piece rest : List Token} {range : Option (Nat × Nat)} {n lo hi : Nat}
  {after : Shorter ts} {param : ParamRef} {e : Spec} {specs : List Spec}

/-! ### Parts of an entry -/

theorem isNumber_of_not_neg {i : Int64} (h : ¬ i < 0) : IsNumber (.int i) i.toInt.toNat := by
  rw [Int64.not_lt, Int64.le_iff_toInt_le] at h
  exact ⟨i, rfl, (Int.toNat_of_nonneg h).symm⟩

theorem of_isNumber {i : Int64} (h : i.toInt = n) : ¬ i < 0 ∧ i.toInt.toNat = n := by
  rw [Int64.not_lt, Int64.le_iff_toInt_le, h]
  simp

theorem ParamRef.ofToken_eq_ok : ofToken t = .ok param ↔ param.Written t := by
  constructor
  · intro h
    unfold ofToken at h
    split at h
    · cases h
      exact .name _
    · split at h
      · cases h
      · rename_i hi
        cases h
        exact .position (isNumber_of_not_neg hi)
    · cases h
  · rintro (x | ⟨i, rfl, hi⟩)
    · rfl
    · obtain ⟨hneg, rfl⟩ := of_isNumber hi
      rw [ofToken, if_neg hneg]

theorem takeIndex_ok (h : takeIndex ts = .ok (n, after)) :
    ∃ t, IsNumber t n ∧ ts = t :: after.1 := by
  unfold takeIndex at h
  split at h
  · cases h
  · split at h
    · cases h
    · rename_i hi
      cases h
      exact ⟨_, isNumber_of_not_neg hi, rfl⟩
  · cases h

theorem takeUpper_ok (h : takeUpper lo ts = .ok (hi, after)) :
    (∃ t, IsNumber t hi ∧ ts = .colon :: t :: after.1) ∨ (hi = lo ∧ ts = after.1) := by
  unfold takeUpper at h
  split at h
  · obtain ⟨⟨n, rest⟩, hn, h⟩ := except_bind_eq_ok.mp h
    cases h
    obtain ⟨t, ht, hts⟩ := takeIndex_ok hn
    exact .inl ⟨t, ht, congrArg _ hts⟩
  · cases h
    exact .inr ⟨rfl, rfl⟩

theorem takeBracket_ok (h : takeBracket ts = .ok after) :
    ts = .rightBracket :: after.1 := by
  unfold takeBracket at h
  split at h
  · cases h
    rfl
  · cases h

theorem takeRange_ok (h : takeRange ts = .ok (range, after)) :
    ∃ piece, RangeWritten range piece ∧ ts = piece ++ after.1 := by
  unfold takeRange at h
  split at h
  · simp only [except_bind_eq_ok] at h
    obtain ⟨⟨lo, afterLo⟩, hlo, ⟨hi, afterHi⟩, hhi, rest, hrest, h⟩ := h
    cases h
    dsimp only at hhi hrest
    obtain ⟨t, ht, hts⟩ := takeIndex_ok hlo
    have hclose := takeBracket_ok hrest
    rcases takeUpper_ok hhi with ⟨u, hu, hcolon⟩ | ⟨rfl, hnone⟩
    · exact ⟨_, .range ht hu, by simp [hts, hcolon, hclose]⟩
    · exact ⟨_, .element ht, by simp [hts, hnone, hclose]⟩
  · cases h
    exact ⟨[], .whole, rfl⟩

theorem takeRange_of_written (h : RangeWritten range piece) (hts : ts = piece ++ rest)
    (hrest : ∀ tail, rest ≠ .leftBracket :: tail) :
    ∃ after, takeRange ts = .ok (range, after) ∧ after.1 = rest := by
  subst hts
  cases h with
  | whole =>
    refine ⟨⟨rest, Nat.le_refl _⟩, ?_, rfl⟩
    change takeRange rest = _
    unfold takeRange
    split
    · exact absurd rfl (hrest _)
    · rfl
  | element h =>
    obtain ⟨i, rfl, hi⟩ := h
    obtain ⟨hneg, rfl⟩ := of_isNumber hi
    refine ⟨⟨rest, by simp; omega⟩, ?_, rfl⟩
    simp [takeRange, takeIndex, takeUpper, takeBracket, hneg, bind, Except.bind, pure, Except.pure]
  | range hlo hhi =>
    obtain ⟨i, rfl, hi⟩ := hlo
    obtain ⟨j, rfl, hj⟩ := hhi
    obtain ⟨hneg, rfl⟩ := of_isNumber hi
    obtain ⟨hneg', rfl⟩ := of_isNumber hj
    refine ⟨⟨rest, by simp; omega⟩, ?_, rfl⟩
    simp [takeRange, takeIndex, takeUpper, takeBracket, hneg, hneg', bind, Except.bind, pure,
      Except.pure]

/-! ### Lists -/

/-- An entry is read, and then what follows it decides. -/
theorem Spec.ofTokens_cons (hparam : ParamRef.ofToken t = .ok param)
    (hrange : takeRange ts = .ok (range, after)) :
    ofTokens (t :: ts) = match after.1 with
      | [] => .ok [⟨param, range⟩]
      | .comma :: rest => (ofTokens rest).map (⟨param, range⟩ :: ·)
      | found :: _ => .error (.comma found) := by
  rw [ofTokens, hparam, hrange]
  obtain ⟨rest, hle⟩ := after
  rcases rest with _ | ⟨(_ | _ | _ | _ | _ | _ | _), rest⟩ <;> rfl

theorem Spec.ofTokens_of_written (h : e.Written piece) :
    ofTokens piece = .ok [e] ∧
      ∀ rest, ofTokens (piece ++ .comma :: rest) = (ofTokens rest).map (e :: ·) := by
  obtain ⟨hparam, hrange⟩ := h
  have htoken := ParamRef.ofToken_eq_ok.mpr hparam
  constructor
  · obtain ⟨after, htake, hafter⟩ :=
      takeRange_of_written hrange (List.append_nil _).symm (by simp)
    rw [ofTokens_cons htoken htake, hafter]
  · intro rest
    obtain ⟨after, htake, hafter⟩ :=
      takeRange_of_written hrange (Eq.refl (_ ++ .comma :: rest)) (by simp)
    rw [List.cons_append, ofTokens_cons htoken htake, hafter]

theorem Spec.ofTokens_of_listed (h : Listed specs ts) : ofTokens ts = .ok specs := by
  induction h with
  | empty => rw [ofTokens]
  | last h => exact (ofTokens_of_written h).1
  | cons h _ ih =>
    rw [(ofTokens_of_written h).2, ih]
    rfl

theorem Spec.listed_of_ofTokens (h : ofTokens ts = .ok specs) : Listed specs ts := by
  induction hn : ts.length using Nat.strongRecOn generalizing ts specs with
  | ind n ih =>
  subst hn
  cases ts with
  | nil =>
    rw [ofTokens] at h
    cases h
    exact .empty
  | cons t ts =>
    have hread := h
    rw [ofTokens] at hread
    simp only [except_bind_eq_ok] at hread
    obtain ⟨param, hparam, ⟨range, after⟩, hrange, -⟩ := hread
    obtain ⟨piece, hpiece, hts⟩ := takeRange_ok hrange
    have hentry : Written ⟨param, range⟩ (t :: piece) :=
      .entry (ParamRef.ofToken_eq_ok.mp hparam) hpiece
    rw [ofTokens_cons hparam hrange] at h
    split at h
    · rename_i hnil
      cases h
      rw [hts, hnil, List.append_nil]
      exact .last hentry
    · rename_i rest hcomma
      obtain ⟨more, hmore, rfl⟩ := except_map_eq_ok.mp h
      have hlt : rest.length < (t :: ts).length := by simp [hts, hcomma]; omega
      rw [hts, hcomma]
      exact .cons hentry (ih _ hlt hmore rfl)
    · cases h

/-! ### Lists written out -/

/-- A number as a token. -/
def number (n : Nat) : Token := .int (Int64.ofNat n)

/-- A reference written out. -/
def ParamRef.token : ParamRef → Token
  | .name x => .ident x
  | .position i => number i

/-- A range written out; where it has one element, as that element. -/
def rangeTokens : Option (Nat × Nat) → List Token
  | none => []
  | some (lo, hi) =>
    if lo = hi then [.leftBracket, number lo, .rightBracket]
    else [.leftBracket, number lo, .colon, number hi, .rightBracket]

/-- A list written out. -/
def Spec.tokens : List Spec → List Token
  | [] => []
  | [e] => e.param.token :: rangeTokens e.range
  | e :: es => e.param.token :: rangeTokens e.range ++ .comma :: tokens es

/-- The numbers of an entry are integers of the language. -/
def Spec.Fits (e : Spec) : Prop :=
  (∀ i, e.param = .position i → i < 2 ^ 63) ∧ ∀ r, e.range = some r → r.1 < 2 ^ 63 ∧ r.2 < 2 ^ 63

theorem isNumber_number (h : n < 2 ^ 63) : IsNumber (number n) n :=
  ⟨_, rfl, Int64.toInt_ofNat_of_lt h⟩

theorem Spec.written_of_fits (h : e.Fits) :
    e.Written (e.param.token :: rangeTokens e.range) := by
  obtain ⟨param, range⟩ := e
  obtain ⟨hparam, hrange⟩ := h
  refine .entry ?_ ?_
  · cases param with
    | name x => exact .name x
    | position i => exact .position (isNumber_number (hparam i rfl))
  · rcases range with _ | ⟨lo, hi⟩
    · exact .whole
    · obtain ⟨hlo, hhi⟩ := hrange _ rfl
      by_cases heq : lo = hi
      · subst heq
        simpa [rangeTokens] using RangeWritten.element (isNumber_number hlo)
      · simpa [rangeTokens, heq] using RangeWritten.range (isNumber_number hlo) (isNumber_number hhi)

theorem Spec.listed_tokens (h : ∀ e ∈ specs, e.Fits) : Listed specs (tokens specs) := by
  fun_induction tokens specs with
  | case1 => exact .empty
  | case2 e => exact .last (written_of_fits (h e (by simp)))
  | case3 e es _ ih =>
    exact .cons (written_of_fits (h e (by simp))) (ih fun e' he => h e' (List.mem_cons_of_mem _ he))

/-- The reader accepts the lists of the grammar and no others, and gives their entries in order; so
it reads back every list that is written out. -/
theorem Spec.reads_exactly_listed :
    (∀ ts specs, ofTokens ts = .ok specs ↔ Listed specs ts) ∧
      ∀ specs, (∀ e ∈ specs, e.Fits) → ofTokens (tokens specs) = .ok specs :=
  ⟨fun _ _ => ⟨listed_of_ofTokens, ofTokens_of_listed⟩,
    fun _ hfits => ofTokens_of_listed (listed_tokens hfits)⟩

end Fluxion.Request
