import Mathlib.Data.List.Infix
import Fluxion.Text.Comments

/-!
Blanking the comments of a text moves nothing: byte by byte, the text stays as it is outside
comments and is blank inside them.
-/

namespace Fluxion.Text

open String (utf8EncodeChar)

variable {inside : Bool} {b : UInt8} {bs rest : List UInt8} {i : Nat}

/-- The bytes of a text. -/
def bytesOf (text : String) : List UInt8 := text.toByteArray.data.toList

/-- The byte lies in a comment: two slashes stand at it or before it, and no line ends from there up
to it. -/
def InComment (bs : List UInt8) (i : Nat) : Prop :=
  ∃ j ≤ i, bs[j]? = some 0x2f ∧ bs[j + 1]? = some 0x2f ∧
    ∀ k, j ≤ k → k ≤ i → bs[k]? ≠ some 0x0a

theorem bytesOf_eq (text : String) : bytesOf text = text.toList.flatMap utf8EncodeChar := by
  unfold bytesOf
  rw [← String.utf8Encode_toList]
  exact List.toList_data_toByteArray

/-- A character of ASCII is a byte of its own; the bytes of others stand for no character of ASCII. -/
theorem utf8EncodeChar_cases (c : Char) :
    (c.toNat < 128 ∧ utf8EncodeChar c = [UInt8.ofNat c.toNat]) ∨
      (128 ≤ c.toNat ∧ ∀ b ∈ utf8EncodeChar c, 128 ≤ b.toNat) := by
  have hlarge : ∀ k n : Nat, k + n < 256 → 128 ≤ n → 128 ≤ (UInt8.ofNat (k + n)).toNat := by
    intro k n hlt hle
    rw [UInt8.toNat_ofNat_of_lt' hlt]
    exact Nat.le_add_left_of_le hle
  by_cases hc : c.val.toNat ≤ 127
  · exact .inl ⟨Nat.lt_succ_of_le hc, if_pos hc⟩
  · refine .inr ⟨Nat.lt_of_not_le hc, ?_⟩
    simp only [utf8EncodeChar, if_neg hc]
    -- two, three or four bytes
    split
    · simp only [List.forall_mem_cons, List.not_mem_nil, false_implies, implies_true, and_true]
      exact ⟨hlarge _ _ (by omega) (by decide), hlarge _ _ (by omega) (by decide)⟩
    · split
      all_goals
        intro b hb
        simp only [List.mem_cons, List.not_mem_nil, or_false] at hb
      · rcases hb with rfl | rfl | rfl <;> apply hlarge <;> omega
      · rcases hb with rfl | rfl | rfl | rfl <;> apply hlarge <;> omega

/-- The byte of a character of ASCII is part of no other character. -/
theorem eq_of_mem_utf8EncodeChar {c d : Char} (hd : d.toNat < 128)
    (h : UInt8.ofNat d.toNat ∈ utf8EncodeChar c) : c = d := by
  have hbyte : ∀ n < 128, (UInt8.ofNat n).toNat = n := fun n hn =>
    UInt8.toNat_ofNat_of_lt' (Nat.lt_trans hn (by decide))
  rcases utf8EncodeChar_cases c with ⟨hc, henc⟩ | ⟨_, hlarge⟩
  · rw [henc, List.mem_singleton, ← UInt8.toNat_inj, hbyte _ hd, hbyte _ hc] at h
    exact Char.toNat_inj.mp h.symm
  · have := hlarge _ h
    rw [hbyte _ hd] at this
    omega

/-! ### Blanking bytes -/

/-- The byte before `rest` is in a comment, if the one before it is or a comment begins here. -/
def covers (inside : Bool) (b : UInt8) (rest : List UInt8) : Bool :=
  decide (b ≠ 0x0a ∧ (inside = true ∨ b = 0x2f ∧ rest.head? = some 0x2f))

/-- Blanks comments byte by byte; the first byte follows one in a comment if `inside`. -/
def blankBytes (inside : Bool) : List UInt8 → List UInt8
  | [] => []
  | b :: rest =>
    (if covers inside b rest then 0x20 else b) :: blankBytes (covers inside b rest) rest

@[simp] theorem length_blankBytes : (blankBytes inside bs).length = bs.length := by
  induction bs generalizing inside with
  | nil => rfl
  | cons b rest ih => simp [blankBytes, ih]

/-- Bytes that neither end a line nor are slashes are blanked if and only if they are in a
comment. -/
theorem blankBytes_append (h : ∀ b ∈ bs, b ≠ 0x0a ∧ b ≠ 0x2f) :
    blankBytes inside (bs ++ rest) =
      (if inside then List.replicate bs.length 0x20 else bs) ++ blankBytes inside rest := by
  induction bs with
  | nil => simp
  | cons b bs ih =>
    obtain ⟨hline, hslash⟩ := h b List.mem_cons_self
    have hcovers : covers inside b (bs ++ rest) = inside := by simp [covers, hline, hslash]
    rw [List.cons_append, blankBytes, hcovers, ih fun b hb => h b (List.mem_cons_of_mem _ hb)]
    cases inside <;> rfl

/-- Characters are blanked as their bytes are. -/
theorem flatMap_blankFrom (inside : Bool) (cs : List Char) :
    (blankFrom inside cs).flatMap utf8EncodeChar = blankBytes inside (cs.flatMap utf8EncodeChar) := by
  have hother : ∀ {c : Char}, c ≠ '\n' → c ≠ '/' → ∀ b ∈ utf8EncodeChar c, b ≠ 0x0a ∧ b ≠ 0x2f := by
    intro c hline hslash b hb
    constructor
    · rintro rfl
      exact hline (eq_of_mem_utf8EncodeChar (d := '\n') (by decide) hb)
    · rintro rfl
      exact hslash (eq_of_mem_utf8EncodeChar (d := '/') (by decide) hb)
  have hnewline : utf8EncodeChar '\n' = [0x0a] := rfl
  have hslash : utf8EncodeChar '/' = [0x2f] := rfl
  have hblank : utf8EncodeChar ' ' = [0x20] := rfl
  fun_induction blankFrom inside cs with
  | case1 => rfl
  | case2 inside rest ih => simp [hnewline, blankBytes, covers, ih]
  | case3 inside rest ih => simp [hslash, hblank, blankBytes, covers, ih]
  | case4 c rest hline _ ih =>
    rw [List.flatMap_append, ih, List.flatMap_cons, List.flatMap_replicate, hblank,
      List.flatten_replicate_singleton, ← String.length_utf8EncodeChar]
    by_cases hc : c = '/'
    · simp [hc, hslash, blankBytes, covers]
    · rw [blankBytes_append (hother hline hc), if_pos rfl]
  | case5 inside c rest hline hnext hinside ih =>
    obtain rfl : inside = false := by simpa using hinside
    rw [List.flatMap_cons, ih, List.flatMap_cons]
    by_cases hc : c = '/'
    · -- a single slash
      have hhead : (rest.flatMap utf8EncodeChar).head? ≠ some 0x2f := by
        intro hhead
        cases rest with
        | nil => cases hhead
        | cons d rest =>
          rw [List.flatMap_cons, List.head?_append_of_ne_nil _ String.utf8EncodeChar_ne_nil] at hhead
          have hd := eq_of_mem_utf8EncodeChar (d := '/') (by decide) (List.mem_of_mem_head? hhead)
          exact hnext rest hc (by rw [hd])
      simp [hc, hslash, blankBytes, covers, hhead]
    · rw [blankBytes_append (hother hline hc)]
      rfl

/-! ### Bytes in comments -/

/-- Whether a byte is in a comment hangs on the byte before it and on the one after it. -/
theorem inComment_iff : InComment bs i ↔ bs[i]? ≠ some 0x0a ∧
    ((∃ k, i = k + 1 ∧ InComment bs k) ∨ bs[i]? = some 0x2f ∧ bs[i + 1]? = some 0x2f) := by
  constructor
  · rintro ⟨j, hj, hfirst, hsecond, hline⟩
    refine ⟨hline i hj le_rfl, ?_⟩
    rcases Nat.eq_or_lt_of_le hj with rfl | hlt
    · exact .inr ⟨hfirst, hsecond⟩
    · exact .inl ⟨i - 1, by omega, j, by omega, hfirst, hsecond,
        fun k hjk hk => hline k hjk (by omega)⟩
  · rintro ⟨hend, ⟨k, rfl, j, hj, hfirst, hsecond, hline⟩ | ⟨hfirst, hsecond⟩⟩
    · refine ⟨j, by omega, hfirst, hsecond, fun l hjl hl => ?_⟩
      rcases Nat.eq_or_lt_of_le hl with rfl | hlt
      · exact hend
      · exact hline l hjl (by omega)
    · refine ⟨i, le_rfl, hfirst, hsecond, fun l hil hl => ?_⟩
      rwa [Nat.le_antisymm hl hil]

/-- Exactly the bytes of comments are blanked, from any byte on. -/
theorem getElem?_blankBytes {n : Nat} (hrest : bs.drop n = rest)
    (hinside : inside = true ↔ ∃ k, n = k + 1 ∧ InComment bs k) (hi : i < rest.length) :
    (InComment bs (n + i) ∧ (blankBytes inside rest)[i]? = some 0x20) ∨
      (¬ InComment bs (n + i) ∧ (blankBytes inside rest)[i]? = rest[i]?) := by
  induction rest generalizing inside n i with
  | nil => cases hi
  | cons b rest ih =>
    have hb : bs[n]? = some b := by rw [← List.head?_drop, hrest, List.head?_cons]
    have hnext : bs.drop (n + 1) = rest := by rw [← List.tail_drop, hrest, List.tail_cons]
    have hcovers : covers inside b rest = true ↔ InComment bs n := by
      rw [inComment_iff, ← hinside, hb, ← List.head?_drop, hnext]
      simp [covers]
    rw [blankBytes]
    cases i with
    | zero =>
      rw [Nat.add_zero, ← hcovers]
      by_cases hin : covers inside b rest = true <;> simp [hin]
    | succ i =>
      have hinside' : covers inside b rest = true ↔ ∃ k, n + 1 = k + 1 ∧ InComment bs k := by
        simp [hcovers]
      rw [Nat.add_left_comm, Nat.add_comm i]
      exact ih hnext hinside' (Nat.lt_of_succ_lt_succ hi)

/-! ### Texts -/

/-- The text with its comments blanked. -/
def blanked (text : String) : String := String.ofList (blankComments text)

theorem bytesOf_blanked (text : String) :
    bytesOf (blanked text) = blankBytes false (bytesOf text) := by
  rw [bytesOf_eq, bytesOf_eq, blanked, String.toList_ofList]
  exact flatMap_blankFrom false text.toList

theorem length_blanked (text : String) : (bytesOf (blanked text)).length = (bytesOf text).length := by
  rw [bytesOf_blanked, length_blankBytes]

theorem getElem?_blanked {text : String} (hi : i < (bytesOf text).length) :
    (InComment (bytesOf text) i ∧ (bytesOf (blanked text))[i]? = some 0x20) ∨
      (¬ InComment (bytesOf text) i ∧ (bytesOf (blanked text))[i]? = (bytesOf text)[i]?) := by
  have hstart : false = true ↔ ∃ k, 0 = k + 1 ∧ InComment (bytesOf text) k := by simp
  have h := getElem?_blankBytes List.drop_zero hstart hi
  rwa [Nat.zero_add, ← bytesOf_blanked] at h

/-- What is not blank in the end was there, outside comments. -/
theorem kept_of_getElem?_blanked (text : String) (hb : (bytesOf (blanked text))[i]? = some b)
    (hne : b ≠ 0x20) : ¬ InComment (bytesOf text) i ∧ (bytesOf text)[i]? = some b := by
  have hi : i < (bytesOf text).length := length_blanked text ▸ (List.getElem?_eq_some_iff.mp hb).1
  rcases getElem?_blanked hi with ⟨_, hblank⟩ | ⟨hnot, heq⟩
  · rw [hb, Option.some.injEq] at hblank
    exact absurd hblank hne
  · exact ⟨hnot, heq ▸ hb⟩

/-- A text without two slashes in a row stays as it is. -/
theorem blankFrom_eq_self_of_not_infix {cs : List Char} (h : ¬ ['/', '/'] <:+: cs) :
    blankFrom false cs = cs := by
  induction cs with
  | nil => rfl
  | cons c rest ih =>
    have hrest := ih fun hin => h (List.infix_cons hin)
    by_cases hline : c = '\n'
    · rw [hline, blankFrom, hrest]
    · rw [blankFrom, hrest]
      · rfl
      · exact hline
      · rintro rest' rfl rfl
        exact h ⟨[], rest', rfl⟩

theorem not_infix_blankComments (text : String) : ¬ ['/', '/'] <:+: blankComments text := by
  rintro ⟨before, after, htext⟩
  have hout : bytesOf (blanked text) = before.flatMap utf8EncodeChar ++
      0x2f :: 0x2f :: after.flatMap utf8EncodeChar := by
    rw [bytesOf_eq, blanked, String.toList_ofList, ← htext]
    simp [show utf8EncodeChar '/' = [0x2f] from rfl]
  obtain ⟨hnot, hfirst⟩ := kept_of_getElem?_blanked text (b := 0x2f)
    (i := (before.flatMap utf8EncodeChar).length) (by simp [hout]) (by decide)
  obtain ⟨_, hsecond⟩ := kept_of_getElem?_blanked text (b := 0x2f)
    (i := (before.flatMap utf8EncodeChar).length + 1) (by simp [hout]) (by decide)
  refine hnot ⟨_, le_rfl, hfirst, hsecond, fun k hk hk' => ?_⟩
  rw [Nat.le_antisymm hk' hk, hfirst]
  decide

theorem ascii_of_mem_blankComments {text : String}
    (h : ∀ (i : Nat) b, (bytesOf text)[i]? = some b → 128 ≤ b.toNat → InComment (bytesOf text) i) :
    ∀ c ∈ blankComments text, c.toNat < 128 := by
  intro c hc
  rcases utf8EncodeChar_cases c with ⟨hsmall, _⟩ | ⟨_, hlarge⟩
  · exact hsmall
  · obtain ⟨b, hb⟩ := List.exists_mem_of_ne_nil _ (String.utf8EncodeChar_ne_nil (c := c))
    have hmem : b ∈ bytesOf (blanked text) := by
      rw [bytesOf_eq, blanked, String.toList_ofList]
      exact List.mem_flatMap.mpr ⟨c, hc, hb⟩
    obtain ⟨i, hi⟩ := List.mem_iff_getElem?.mp hmem
    obtain ⟨hnot, hkept⟩ := kept_of_getElem?_blanked text hi fun he =>
      absurd (hlarge b hb) (by rw [he]; decide)
    exact absurd (h i b hkept (hlarge b hb)) hnot

theorem length_flatMap_of_ascii {cs : List Char} (h : ∀ c ∈ cs, c.toNat < 128) :
    (cs.flatMap utf8EncodeChar).length = cs.length := by
  induction cs with
  | nil => rfl
  | cons c cs ih =>
    obtain ⟨hc, hcs⟩ := List.forall_mem_cons.mp h
    rcases utf8EncodeChar_cases c with ⟨_, henc⟩ | ⟨hlarge, _⟩
    · simp [henc, ih hcs]
    · omega

/-- Comments are blanked where they stand: every byte keeps its place, line ends stay, and nothing is
left that could begin a comment. When only comments go beyond ASCII, counting the characters of the
blanked text counts the bytes of the text. -/
theorem comments_blanked_in_place (text : String) :
    (bytesOf (blanked text)).length = (bytesOf text).length ∧
    (∀ i : Nat, (bytesOf (blanked text))[i]? = some 0x0a ↔ (bytesOf text)[i]? = some 0x0a) ∧
    (∀ i < (bytesOf text).length, InComment (bytesOf text) i →
      (bytesOf (blanked text))[i]? = some 0x20) ∧
    (∀ i, ¬ InComment (bytesOf text) i → (bytesOf (blanked text))[i]? = (bytesOf text)[i]?) ∧
    ¬ ['/', '/'] <:+: blankComments text ∧ blanked (blanked text) = blanked text ∧
    ((∀ (i : Nat) b, (bytesOf text)[i]? = some b → 128 ≤ b.toNat → InComment (bytesOf text) i) →
      (∀ c ∈ blankComments text, c.toNat < 128) ∧
      ∀ n, (bytesOf (String.ofList ((blankComments text).take n))).length =
        min n (bytesOf text).length) := by
  have hend : ∀ i, ¬ i < (bytesOf text).length →
      (bytesOf (blanked text))[i]? = (bytesOf text)[i]? := by
    intro i hi
    rw [List.getElem?_eq_none (Nat.le_of_not_lt hi),
      List.getElem?_eq_none (length_blanked text ▸ Nat.le_of_not_lt hi)]
  refine ⟨length_blanked text, fun i => ?_, fun i hi hin => ?_, fun i hnot => ?_,
    not_infix_blankComments text, ?_, fun hascii => ?_⟩
  · by_cases hi : i < (bytesOf text).length
    · rcases getElem?_blanked hi with ⟨⟨j, hj, _, _, hline⟩, hblank⟩ | ⟨_, heq⟩
      · simp [hblank, hline i hj le_rfl]
      · rw [heq]
    · rw [hend i hi]
  · rcases getElem?_blanked hi with ⟨_, hblank⟩ | ⟨hnot, _⟩
    · exact hblank
    · exact absurd hin hnot
  · by_cases hi : i < (bytesOf text).length
    · rcases getElem?_blanked hi with ⟨hin, _⟩ | ⟨_, heq⟩
      · exact absurd hin hnot
      · exact heq
    · exact hend i hi
  · have hagain := blankFrom_eq_self_of_not_infix (not_infix_blankComments text)
    rw [blanked, blanked, blankComments, String.toList_ofList, hagain]
  · have hchars := ascii_of_mem_blankComments hascii
    refine ⟨hchars, fun n => ?_⟩
    have htotal := length_flatMap_of_ascii hchars
    rw [bytesOf_eq, String.toList_ofList,
      length_flatMap_of_ascii fun c hc => hchars c (List.mem_of_mem_take hc), List.length_take,
      ← length_blanked, bytesOf_eq (blanked text), blanked, String.toList_ofList, htotal]

end Fluxion.Text
