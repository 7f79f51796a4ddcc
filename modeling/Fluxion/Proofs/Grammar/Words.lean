import Mathlib.Data.List.Basic
import Fluxion.Grammar.Lexeme
import Fluxion.Proofs.Grammar.Combinators

/-!
How words are read back: keywords, identifiers and paths. A word is read as a whole, so what follows
it may not begin with a character of a word.
-/

namespace Fluxion.Grammar

open Fluxion.Grammar.Parser

/-! ### Characters -/

theorem isIdentPart_iff {c : Char} : isIdentPart c = true ↔
    (((65 ≤ c.toNat ∧ c.toNat ≤ 90) ∨ (97 ≤ c.toNat ∧ c.toNat ≤ 122)) ∨
      (48 ≤ c.toNat ∧ c.toNat ≤ 57)) ∨ c = '_' := by
  unfold isIdentPart Char.isAlphanum Char.isAlpha Char.isUpper Char.isLower Char.isDigit
  simp only [Bool.or_eq_true, Bool.and_eq_true, decide_eq_true_eq, beq_iff_eq,
    UInt32.le_iff_toNat_le, ge_iff_le]
  rfl

theorem isIdentStart_iff {c : Char} : isIdentStart c = true ↔
    ((65 ≤ c.toNat ∧ c.toNat ≤ 90) ∨ (97 ≤ c.toNat ∧ c.toNat ≤ 122)) ∨ c = '_' := by
  unfold isIdentStart Char.isAlpha Char.isUpper Char.isLower
  simp only [Bool.or_eq_true, Bool.and_eq_true, decide_eq_true_eq, beq_iff_eq,
    UInt32.le_iff_toNat_le, ge_iff_le]
  rfl

theorem isDigit_iff {c : Char} : c.isDigit = true ↔ 48 ≤ c.toNat ∧ c.toNat ≤ 57 := by
  simp only [Char.isDigit, Bool.and_eq_true, decide_eq_true_eq, UInt32.le_iff_toNat_le, ge_iff_le]
  rfl

theorem isIdentPart_of_isIdentStart {c : Char} (h : isIdentStart c = true) :
    isIdentPart c = true := by
  rw [isIdentStart_iff] at h
  rw [isIdentPart_iff]
  tauto

theorem isIdentPart_of_isDigit {c : Char} (h : c.isDigit = true) : isIdentPart c = true := by
  rw [isDigit_iff] at h
  rw [isIdentPart_iff]
  tauto

theorem isIdentStart_eq_false_of_isDigit {c : Char} (h : c.isDigit = true) :
    isIdentStart c = false := by
  rw [isDigit_iff] at h
  rw [← Bool.not_eq_true, isIdentStart_iff]
  rintro (hs | rfl)
  · omega
  · simp at h

theorem isDigit_eq_false_of_isIdentStart {c : Char} (h : isIdentStart c = true) :
    c.isDigit = false := by
  rw [isIdentStart_iff] at h
  rw [← Bool.not_eq_true, isDigit_iff]
  rcases h with h | rfl
  · omega
  · decide

theorem isBlank_eq_false_of_isIdentPart {c : Char} (h : isIdentPart c = true) :
    Text.isBlank c = false := by
  rw [isIdentPart_iff] at h
  rcases h with h | rfl
  · rw [Text.isBlank, List.any_eq_false]
    intro r hr
    simp only [Text.blankRanges, List.mem_cons, List.not_mem_nil, or_false] at hr
    simp only [Bool.and_eq_true, decide_eq_true_eq]
    rcases hr with rfl | rfl | rfl | rfl | rfl | rfl | rfl | rfl | rfl | rfl <;> omega
  · decide

/-! ### Words -/

/-- Letters, digits and underscores, the first no digit. -/
def isWord : List Char → Bool
  | [] => false
  | c :: cs => isIdentStart c && cs.all isIdentPart

/-- A word that is no keyword. -/
def isIdent (x : String) : Bool := isWord x.toList && !keywords.contains x

theorem isIdent_iff {x : String} : isIdent x = true ↔ isWord x.toList = true ∧ x ∉ keywords := by
  simp [isIdent]

/-- A word may end before the text. -/
def EndsWord (cs : List Char) : Prop := ∀ c ∈ cs.head?, isIdentPart c = false

/-- The characters of a word that the text begins with. -/
def wordOf (cs : List Char) : List Char := cs.takeWhile isIdentPart

variable {w cs rest : List Char}

theorem endsWord_cons {c : Char} (h : isIdentPart c = false) : EndsWord (c :: cs) := by
  intro d hd
  obtain rfl : c = d := by simpa using hd
  exact h

theorem exists_cons_of_isWord (h : isWord w = true) :
    ∃ c cs, w = c :: cs ∧ isIdentStart c = true := by
  cases w with
  | nil => simp [isWord] at h
  | cons c cs =>
    simp only [isWord, Bool.and_eq_true] at h
    exact ⟨c, cs, rfl, h.1⟩

theorem isIdentPart_of_mem (h : isWord w = true) : ∀ c ∈ w, isIdentPart c = true := by
  cases w with
  | nil => simp
  | cons c cs =>
    simp only [isWord, Bool.and_eq_true, List.all_eq_true] at h
    intro d hd
    rcases List.mem_cons.mp hd with rfl | hd
    · exact isIdentPart_of_isIdentStart h.1
    · exact h.2 d hd

theorem wordOf_append (h : isWord w = true) (hrest : EndsWord rest) : wordOf (w ++ rest) = w := by
  have hstop : rest.takeWhile isIdentPart = [] := by
    cases rest with
    | nil => rfl
    | cons c cs => simp [hrest c rfl]
  rw [wordOf, List.takeWhile_append_of_pos (isIdentPart_of_mem h), hstop, List.append_nil]

theorem wordOf_cons {c : Char} (h : isIdentPart c = false) : wordOf (c :: cs) = [] := by
  simp [wordOf, h]

theorem skip_word (h : isWord w = true) : skip (w ++ rest) = w ++ rest := by
  obtain ⟨c, cs, rfl, hc⟩ := exists_cons_of_isWord h
  exact skip_cons (isBlank_eq_false_of_isIdentPart (isIdentPart_of_isIdentStart hc))

/-- A word begins with no character but one that words begin with. -/
theorem head_word_ne {c : Char} (h : isWord w = true) (hc : isIdentStart c = false) :
    (skip (w ++ rest)).head? ≠ some c := by
  rw [skip_word h]
  obtain ⟨d, cs, rfl, hd⟩ := exists_cons_of_isWord h
  intro he
  obtain rfl : d = c := by simpa using he
  rw [hd] at hc
  exact Bool.noConfusion hc

theorem takes_name (h : isWord w = true) (hrest : EndsWord rest) :
    name.Takes (w ++ rest) (String.ofList w) rest := by
  cases w with
  | nil => simp [isWord] at h
  | cons c cs =>
    simp only [isWord, Bool.and_eq_true, List.all_eq_true] at h
    exact (takes_satisfy h.1).bind (takes_span h.2 hrest).bind_pure

theorem fails_name (h : ∀ c ∈ cs.head?, isIdentStart c = false) : name.Fails cs :=
  (fails_satisfy h).bind

/-- A name is read up to where a word may end. -/
theorem name_cases (cs : List Char) :
    name.Fails cs ∨ name.Takes cs (String.ofList (wordOf cs)) (cs.dropWhile isIdentPart) := by
  cases cs with
  | nil => exact .inl (fails_name (by simp))
  | cons c cs =>
    cases hc : isIdentStart c with
    | false => exact .inl (fails_name (by simpa using hc))
    | true =>
      have hstop : EndsWord (cs.dropWhile isIdentPart) := by
        intro d hd
        have := List.head?_dropWhile_not isIdentPart cs
        rw [Option.mem_def.mp hd] at this
        simpa using this
      have hword : isWord (c :: cs.takeWhile isIdentPart) = true := by
        simp [isWord, hc]
      have htake := takes_name hword hstop
      rw [List.cons_append, List.takeWhile_append_dropWhile] at htake
      have hpart := isIdentPart_of_isIdentStart hc
      right
      rwa [wordOf, List.takeWhile_cons_of_pos hpart, List.dropWhile_cons_of_pos hpart]

theorem takes_keyword (text : String) (h : isWord text.toList = true) (hrest : EndsWord rest) :
    (keyword text).Takes (text.toList ++ rest) () (skip rest) := by
  apply Takes.padded
  rw [skip_word h]
  exact (takes_name h hrest).checked (by simp)

/-- Another word than the keyword is refused. -/
theorem fails_keyword {text : String} (h : wordOf (skip cs) ≠ text.toList) :
    (keyword text).Fails cs := by
  apply Fails.padded
  rcases name_cases (skip cs) with hn | hn
  · exact hn.checked
  · have hne : String.ofList (wordOf (skip cs)) ≠ text := by
      intro he
      exact h (by rw [← he, String.toList_ofList])
    have href : (if String.ofList (wordOf (skip cs)) == text then .ok () else .error none) =
        (.error none : Except (Option String) Unit) := by simp [hne]
    exact hn.checked_fails href

theorem takes_ident {x : String} (h : isIdent x = true) (hrest : EndsWord rest) :
    ident.Takes (x.toList ++ rest) x (skip rest) := by
  rw [isIdent_iff] at h
  apply Takes.padded
  rw [skip_word h.1]
  exact (takes_name h.1 hrest).checked (by simp [h.2])

theorem fails_ident (h : ∀ c ∈ (skip cs).head?, isIdentStart c = false) : ident.Fails cs :=
  Fails.padded (fails_name h).checked

/-- A keyword is no identifier. -/
theorem fails_ident_of_keyword (text : String) (h : isWord text.toList = true)
    (hk : text ∈ keywords) (hrest : EndsWord rest) : ident.Fails (text.toList ++ rest) := by
  apply Fails.padded
  rw [skip_word h]
  exact (takes_name h hrest).checked_fails (by rw [if_pos (by simpa using hk)])

/-- Another word than the keyword is read to its end and refused. -/
theorem fails_keyword_of_ne {text : String} (h : isWord w = true) (hrest : EndsWord rest)
    (hne : w ≠ text.toList) : (keyword text).Fails (w ++ rest) := by
  apply fails_keyword
  rwa [skip_word h, wordOf_append h hrest]

/-- An identifier is none of the keywords. -/
theorem fails_keyword_of_isIdent {x text : String} (h : isIdent x = true) (hrest : EndsWord rest)
    (hk : text ∈ keywords) : (keyword text).Fails (x.toList ++ rest) := by
  rw [isIdent_iff] at h
  apply fails_keyword_of_ne h.1 hrest
  rw [Ne, String.toList_inj]
  intro he
  exact h.2 (he ▸ hk)

theorem fails_keyword_of_head {text : String} {c : Char} (hc : isIdentPart c = false)
    (hb : Text.isBlank c = false) (htext : text ≠ "") : (keyword text).Fails (c :: cs) := by
  apply fails_keyword
  rw [skip_cons hb, wordOf_cons hc]
  intro he
  exact htext (by simpa using congrArg String.ofList he.symm)

/-! ### Lists -/

/-- Texts with a separator before each. -/
def tailText (sep : String) (texts : List String) : List Char :=
  (texts.map fun t => sep.toList ++ t.toList).flatten

theorem toList_intercalate_cons (sep t : String) (texts : List String) :
    (sep.intercalate (t :: texts)).toList = t.toList ++ tailText sep texts := by
  induction texts generalizing t with
  | nil => simp [tailText]
  | cons u texts ih =>
    rw [String.intercalate_cons_cons, String.toList_append, String.toList_append, ih u]
    simp [tailText]

theorem tailText_cons (sep t : String) (texts : List String) :
    tailText sep (t :: texts) = sep.toList ++ (t.toList ++ tailText sep texts) := by
  simp [tailText]

section

variable {α : Type} {p : Parser α} {text : α → String} {n : Nat}

/-- The parser reads the text of `a` back before a comma or a closing parenthesis, if the text is not
longer than `n`. -/
def ReadsItem (p : Parser α) (text : α → String) (n : Nat) (a : α) : Prop :=
  ∀ c cs, c ∈ [',', ')'] → ((text a).toList ++ c :: cs).length ≤ n →
    skip ((text a).toList ++ c :: cs) = (text a).toList ++ c :: cs ∧
      p.Takes ((text a).toList ++ c :: cs) a (c :: cs)

theorem tailText_head (text : α → String) (as : List α) (rest : List Char) :
    ∃ c cs, tailText ", " (as.map text) ++ ')' :: rest = c :: cs ∧ c ∈ [',', ')'] := by
  cases as with
  | nil => exact ⟨')', rest, rfl, by decide⟩
  | cons a as => exact ⟨',', _, by rw [List.map_cons, tailText_cons]; rfl, by decide⟩

theorem takesAll_tailText {as : List α} (h : ∀ a ∈ as, ReadsItem p text n a)
    (hn : (tailText ", " (as.map text) ++ ')' :: rest).length ≤ n) :
    TakesAll (symbol ',' >>= fun _ => p) (tailText ", " (as.map text) ++ ')' :: rest) as
      (')' :: rest) := by
  induction as with
  | nil => exact .nil _
  | cons a as ih =>
    obtain ⟨c, cs, htail, hc⟩ := tailText_head text as rest
    have htext : tailText ", " ((a :: as).map text) ++ ')' :: rest =
        ',' :: ' ' :: ((text a).toList ++ c :: cs) := by
      rw [List.map_cons, tailText_cons, List.append_assoc, List.append_assoc, htail]
      rfl
    rw [htext] at hn ⊢
    simp only [List.length_cons] at hn
    obtain ⟨hskip, htake⟩ := h a List.mem_cons_self c cs hc (by omega)
    rw [htail] at ih
    simp only [List.length_append, List.length_cons] at hn
    refine .cons ((takes_symbol (by decide)).bind ?_) ?_
      (ih (fun b hb => h b (List.mem_cons_of_mem a hb)) ?_)
    · rw [skip_cons_blank (by decide), hskip]
      exact htake
    · simp only [List.length_cons, List.length_append]
      omega
    · rw [List.length_cons]
      omega

/-- A list of items between parentheses is read back. -/
theorem takes_items_text {as : List α} {limit : Nat} (h : ∀ a ∈ as, ReadsItem p text n a)
    (hn : ((", ".intercalate (as.map text)).toList ++ ')' :: rest).length ≤ n) (hlimit : n ≤ limit)
    (hclose : p.Fails (')' :: rest)) :
    (items limit p (symbol ',')).Takes ((", ".intercalate (as.map text)).toList ++ ')' :: rest) as
      (')' :: rest) := by
  cases as with
  | nil => exact takes_items_nil hclose
  | cons a as =>
    obtain ⟨c, cs, htail, hc⟩ := tailText_head text as rest
    rw [List.map_cons, toList_intercalate_cons, List.append_assoc, htail] at hn ⊢
    obtain ⟨-, htake⟩ := h a List.mem_cons_self c cs hc hn
    have hlen : (c :: cs).length ≤ n := by
      rw [List.length_append] at hn
      omega
    have hmore := takesAll_tailText (fun b hb => h b (List.mem_cons_of_mem a hb))
      (htail ▸ hlen : (tailText ", " (as.map text) ++ ')' :: rest).length ≤ n)
    rw [htail] at hmore
    have hend : (symbol ',').Fails (')' :: rest) := fails_symbol (by simp [skip_cons (c := ')') (by decide)])
    exact htake.items hmore hend (by omega)

end

/-! ### Paths -/

/-- A path joins identifiers by `::`. -/
def IsPath (f : String) : Prop :=
  ∃ first rest, (∀ x ∈ first :: rest, isIdent x = true) ∧ f = "::".intercalate (first :: rest)

theorem isPath_of_isIdent {x : String} (h : isIdent x = true) : IsPath x :=
  ⟨x, [], by simpa using h, by simp⟩

theorem takesAll_path {xs : List String} (hxs : ∀ x ∈ xs, isIdent x = true)
    (hrest : EndsWord rest) : TakesAll (do word "::"; ident) (skip (tailText "::" xs ++ rest)) xs
      (skip rest) := by
  induction xs with
  | nil => exact .nil _
  | cons x xs ih =>
    have hends : EndsWord (tailText "::" xs ++ rest) := by
      cases xs with
      | nil => exact hrest
      | cons y ys => exact endsWord_cons (by decide)
    have htext : tailText "::" (x :: xs) ++ rest =
        "::".toList ++ (x.toList ++ (tailText "::" xs ++ rest)) := by
      rw [tailText_cons, List.append_assoc, List.append_assoc]
    have hskip : skip (tailText "::" (x :: xs) ++ rest) = tailText "::" (x :: xs) ++ rest := by
      rw [htext]
      exact skip_cons (by decide)
    rw [hskip, htext]
    refine .cons ((takes_word "::").bind (takes_ident (hxs x List.mem_cons_self) hends)) ?_
      (ih fun y hy => hxs y (List.mem_cons_of_mem x hy))
    have hle := length_skip_le (tailText "::" xs ++ rest)
    have hcolons : "::".toList.length = 2 := by decide
    rw [List.length_append, List.length_append, hcolons]
    omega

/-- What follows does not go on with a path. -/
def EndsPath (cs : List Char) : Prop := EndsWord cs ∧ (skip cs).head? ≠ some ':'

theorem fails_colons (h : (skip rest).head? ≠ some ':') :
    (do word "::"; ident : Parser String).Fails (skip rest) := by
  apply Fails.bind
  apply fails_word
  intro hp
  obtain ⟨t, ht⟩ := hp
  exact h (by rw [← ht]; rfl)

theorem takes_path {f : String} (h : IsPath f) (hrest : EndsPath rest) {limit : Nat}
    (hlimit : (f.toList ++ rest).length ≤ limit) :
    (path limit).Takes (f.toList ++ rest) f (skip rest) := by
  obtain ⟨first, parts, hparts, rfl⟩ := h
  rw [toList_intercalate_cons, List.append_assoc] at hlimit ⊢
  have hends : EndsWord (tailText "::" parts ++ rest) := by
    cases parts with
    | nil => exact hrest.1
    | cons y ys => exact endsWord_cons (by decide)
  have htail := takesAll_path (fun x hx => hparts x (List.mem_cons_of_mem first hx)) hrest.1
  have hle := length_skip_le (tailText "::" parts ++ rest)
  rw [List.length_append] at hlimit
  exact (takes_ident (hparts first List.mem_cons_self) hends).bind
    ((htail.many (fails_colons hrest.2) (by omega)).bind_pure)

theorem fails_path {limit : Nat} (h : ident.Fails cs) : (path limit).Fails cs := h.bind

end Fluxion.Grammar
