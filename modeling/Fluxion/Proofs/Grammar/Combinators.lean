import Mathlib.Data.List.Forall2
import Fluxion.Grammar.Combinators

/-!
What parsers read. Whether a parser succeeds, with which value and before which text, depends on the
text alone; how many characters were read before and which failures are carried along matter only
for what is reported.
-/

namespace Fluxion.Grammar

/-- The text without the blanks that it begins with. -/
def skip (cs : List Char) : List Char := cs.dropWhile Text.isBlank

theorem skip_cons_blank {c : Char} {cs : List Char} (h : Text.isBlank c = true) :
    skip (c :: cs) = skip cs := by
  simp [skip, h]

theorem skip_cons {c : Char} {cs : List Char} (h : Text.isBlank c = false) :
    skip (c :: cs) = c :: cs := by
  simp [skip, h]

theorem skip_skip (cs : List Char) : skip (skip cs) = skip cs := by
  induction cs with
  | nil => rfl
  | cons c cs ih =>
    cases h : Text.isBlank c with
    | true => rw [skip_cons_blank h, ih]
    | false => rw [skip_cons h, skip_cons h]

theorem length_skip_le (cs : List Char) : (skip cs).length ≤ cs.length :=
  (List.dropWhile_sublist _).length_le

theorem skip_append_blanks {blanks cs : List Char} (h : ∀ c ∈ blanks, Text.isBlank c = true) :
    skip (blanks ++ cs) = skip cs := by
  induction blanks with
  | nil => rfl
  | cons c blanks ih =>
    rw [List.cons_append, skip_cons_blank (h c List.mem_cons_self),
      ih fun d hd => h d (List.mem_cons_of_mem c hd)]

namespace Parser

variable {α β : Type}

/-- The parser reads `a` from the text and leaves the rest. -/
def Takes (p : Parser α) (cs : List Char) (a : α) (rest : List Char) : Prop :=
  ∀ pos, ∃ pos' alt, p ⟨pos, cs⟩ = .ok a ⟨pos', rest⟩ alt

/-- The parser fails on the text. -/
def Fails (p : Parser α) (cs : List Char) : Prop := ∀ pos, ∃ why, p ⟨pos, cs⟩ = .fail why

variable {p q : Parser α} {f : α → Parser β} {cs cs' rest : List Char} {a : α} {b : β}

/-! ### Sequences -/

theorem takes_pure : Takes (pure a) cs a cs := fun pos => ⟨pos, none, rfl⟩

theorem Takes.bind (hp : p.Takes cs a cs') (hf : (f a).Takes cs' b rest) :
    (p >>= f).Takes cs b rest := by
  intro pos
  obtain ⟨pos', alt, hp⟩ := hp pos
  obtain ⟨pos'', alt', hf⟩ := hf pos'
  exact ⟨pos'', joinAlt alt alt', by simp [Bind.bind, andThen, hp, hf]⟩

theorem Fails.bind (hp : p.Fails cs) : (p >>= f).Fails cs := by
  intro pos
  obtain ⟨why, hp⟩ := hp pos
  exact ⟨why, by simp [Bind.bind, andThen, hp]⟩

theorem Takes.bind_fails (hp : p.Takes cs a cs') (hf : (f a).Fails cs') : (p >>= f).Fails cs := by
  intro pos
  obtain ⟨pos', alt, hp⟩ := hp pos
  obtain ⟨why, hf⟩ := hf pos'
  exact ⟨alt.elim why why.further, by simp [Bind.bind, andThen, hp, hf]⟩

theorem Takes.bind_pure (hp : p.Takes cs a rest) {g : α → β} :
    (p >>= fun x => Pure.pure (g x)).Takes cs (g a) rest :=
  hp.bind takes_pure

/-! ### Characters -/

theorem takes_satisfy {t : Char → Bool} {c : Char} (h : t c = true) :
    (satisfy t).Takes (c :: cs) c cs := fun pos => ⟨pos + 1, none, by simp [satisfy, h]⟩

theorem fails_satisfy {t : Char → Bool} (h : ∀ c ∈ cs.head?, t c = false) :
    (satisfy t).Fails cs := by
  intro pos
  cases cs with
  | nil => exact ⟨_, rfl⟩
  | cons c cs => exact ⟨_, by simp [satisfy, h c rfl]; rfl⟩

theorem takes_char {c : Char} : (char c).Takes (c :: cs) c cs := takes_satisfy (by simp)

theorem fails_char {c : Char} (h : cs.head? ≠ some c) : (char c).Fails cs :=
  fails_satisfy fun d hd => by
    have hne : d ≠ c := fun he => h (he ▸ hd)
    simpa using hne

theorem takes_word (text : String) : (word text).Takes (text.toList ++ cs) () cs := by
  have hchars : ∀ xs : List Char, (chars xs).Takes (xs ++ cs) () cs := by
    intro xs
    induction xs with
    | nil => exact takes_pure
    | cons x xs ih => exact takes_char.bind ih
  exact hchars text.toList

theorem fails_word {text : String} (h : ¬ text.toList <+: cs) : (word text).Fails cs := by
  have hchars : ∀ xs cs : List Char, ¬ xs <+: cs → (chars xs).Fails cs := by
    intro xs
    induction xs with
    | nil => exact fun cs hn => absurd List.nil_prefix hn
    | cons x xs ih =>
      intro cs hn
      cases cs with
      | nil => exact (fails_char (by simp)).bind
      | cons c cs =>
        by_cases hc : c = x
        · subst hc
          exact takes_char.bind_fails (ih cs fun hp => hn (by simpa using hp))
        · exact (fails_char (by simpa using hc)).bind
  exact hchars _ _ h

theorem takes_span {t : Char → Bool} {xs : List Char} (hxs : ∀ x ∈ xs, t x = true)
    (hcs : ∀ c ∈ cs.head?, t c = false) : (span t).Takes (xs ++ cs) xs cs := by
  intro pos
  have htake : (xs ++ cs).takeWhile t = xs ∧ (xs ++ cs).dropWhile t = cs := by
    induction xs with
    | nil =>
      cases cs with
      | nil => simp
      | cons c cs => simp [hcs c rfl]
    | cons x xs ih =>
      obtain ⟨htake, hdrop⟩ := ih fun y hy => hxs y (List.mem_cons_of_mem x hy)
      simp [hxs x List.mem_cons_self, htake, hdrop]
  exact ⟨pos + xs.length, some (Cursor.objection ⟨pos + xs.length, cs⟩), by
    simp only [span, htake.1, htake.2]⟩

theorem takes_ahead {c d : Char} (h : d ≠ c) : (ahead c).Takes (d :: cs) () (d :: cs) := by
  intro pos
  have hbeq : (d == c) = false := by simpa using h
  exact ⟨pos, none, by simp [ahead, hbeq]⟩

theorem takes_eof : eof.Takes [] () [] := fun pos => ⟨pos, none, rfl⟩

/-! ### Blanks -/

theorem Takes.padded (h : p.Takes (skip cs) a rest) : (padded p).Takes cs a (skip rest) := by
  intro pos
  obtain ⟨pos', alt, h⟩ := h (pos + (cs.takeWhile Text.isBlank).length)
  exact ⟨_, alt, by simp only [Parser.padded, Cursor.skipBlanks]; rw [show
    List.dropWhile Text.isBlank cs = skip cs from rfl, h]; rfl⟩

theorem Fails.padded (h : p.Fails (skip cs)) : (padded p).Fails cs := by
  intro pos
  obtain ⟨why, h⟩ := h (pos + (cs.takeWhile Text.isBlank).length)
  exact ⟨why, by simp only [Parser.padded, Cursor.skipBlanks]; rw [show
    List.dropWhile Text.isBlank cs = skip cs from rfl, h]⟩

/-! ### Alternatives -/

theorem Takes.orElse (h : p.Takes cs a rest) : (orElse p q).Takes cs a rest := by
  intro pos
  obtain ⟨pos', alt, h⟩ := h pos
  exact ⟨pos', alt, by simp [Parser.orElse, h]⟩

theorem Fails.orElse (hp : p.Fails cs) (hq : q.Takes cs a rest) :
    (orElse p q).Takes cs a rest := by
  intro pos
  obtain ⟨why, hp⟩ := hp pos
  obtain ⟨pos', alt, hq⟩ := hq pos
  exact ⟨pos', _, by simp [Parser.orElse, hp, hq]; rfl⟩

theorem Fails.orElse_fails (hp : p.Fails cs) (hq : q.Fails cs) : (Parser.orElse p q).Fails cs := by
  intro pos
  obtain ⟨why, hp⟩ := hp pos
  obtain ⟨why', hq⟩ := hq pos
  exact ⟨_, by simp [Parser.orElse, hp, hq]; rfl⟩

theorem Takes.firstOf {ps : List (Parser α)} (h : p.Takes cs a rest) :
    (firstOf (p :: ps)).Takes cs a rest := by
  intro pos
  obtain ⟨pos', alt, h⟩ := h pos
  exact ⟨pos', alt, by simp [Parser.firstOf, h]⟩

/-- Going on after a failure is choosing among the parsers that are left. -/
theorem firstAfter_eq (why : Failure) (ps : List (Parser α)) (c : Cursor) :
    (∀ a d alt, firstAfter why ps c = .ok a d alt ↔ firstOf ps c = .ok a d alt) ∧
      ((∃ w, firstAfter why ps c = .fail w) ↔ ∃ w, firstOf ps c = .fail w) := by
  have hsame : ∀ (ps : List (Parser α)) (w w' : Failure),
      (∀ a d alt, firstAfter w ps c = .ok a d alt ↔ firstAfter w' ps c = .ok a d alt) ∧
        ((∃ x, firstAfter w ps c = .fail x) ↔ ∃ x, firstAfter w' ps c = .fail x) := by
    intro ps
    induction ps with
    | nil => intro w w'; simp [firstAfter]
    | cons p ps ih =>
      intro w w'
      cases hp : p c with
      | ok a d alt => simp [firstAfter, hp]
      | fail x => simpa [firstAfter, hp] using ih (x.further w) (x.further w')
  cases ps with
  | nil => simp [firstAfter, firstOf, refuse]
  | cons p ps =>
    cases hp : p c with
    | ok a d alt => simp [firstAfter, firstOf, hp]
    | fail x => simpa [firstAfter, firstOf, hp] using hsame ps (x.further why) x

theorem Fails.firstOf {ps : List (Parser α)} (hp : p.Fails cs) (h : (firstOf ps).Takes cs a rest) :
    (firstOf (p :: ps)).Takes cs a rest := by
  intro pos
  obtain ⟨why, hp⟩ := hp pos
  obtain ⟨pos', alt, h⟩ := h pos
  exact ⟨pos', alt, by
    simpa [Parser.firstOf, hp] using ((firstAfter_eq why ps _).1 a _ alt).mpr h⟩

theorem fails_firstOf {ps : List (Parser α)} (h : ∀ p ∈ ps, p.Fails cs) :
    (firstOf ps).Fails cs := by
  induction ps with
  | nil => exact fun pos => ⟨_, rfl⟩
  | cons p ps ih =>
    intro pos
    obtain ⟨why, hp⟩ := h p List.mem_cons_self pos
    have hrest := ih (fun q hq => h q (List.mem_cons_of_mem p hq)) pos
    simpa [firstOf, hp] using (firstAfter_eq why ps ⟨pos, cs⟩).2.mpr hrest

theorem Takes.optional (h : p.Takes cs a rest) : (optional p).Takes cs (some a) rest := by
  intro pos
  obtain ⟨pos', alt, h⟩ := h pos
  exact ⟨pos', alt, by simp [Parser.optional, h]⟩

theorem Fails.optional (h : p.Fails cs) : (optional p).Takes cs none cs := by
  intro pos
  obtain ⟨why, h⟩ := h pos
  exact ⟨pos, some why, by simp [Parser.optional, h]⟩

/-! ### Values that depend on positions -/

/-- The parser reads some value with a property from the text and leaves the rest. -/
def TakesSome (p : Parser α) (cs : List Char) (Q : α → Prop) (rest : List Char) : Prop :=
  ∀ pos, ∃ a pos' alt, p ⟨pos, cs⟩ = .ok a ⟨pos', rest⟩ alt ∧ Q a

variable {Q : α → Prop} {Q' : β → Prop}

theorem Takes.some (h : p.Takes cs a rest) (ha : Q a) : p.TakesSome cs Q rest := by
  intro pos
  obtain ⟨pos', alt, h⟩ := h pos
  exact ⟨a, pos', alt, h, ha⟩

theorem Takes.bind_some (hp : p.Takes cs a cs') (hf : (f a).TakesSome cs' Q' rest) :
    (p >>= f).TakesSome cs Q' rest := by
  intro pos
  obtain ⟨pos', alt, hp⟩ := hp pos
  obtain ⟨b, pos'', alt', hf, hb⟩ := hf pos'
  exact ⟨b, pos'', joinAlt alt alt', by simp [Bind.bind, andThen, hp, hf], hb⟩

theorem TakesSome.bind (hp : p.TakesSome cs Q cs')
    (hf : ∀ a, Q a → (f a).TakesSome cs' Q' rest) : (p >>= f).TakesSome cs Q' rest := by
  intro pos
  obtain ⟨a, pos', alt, hp, ha⟩ := hp pos
  obtain ⟨b, pos'', alt', hf, hb⟩ := hf a ha pos'
  exact ⟨b, pos'', joinAlt alt alt', by simp [Bind.bind, andThen, hp, hf], hb⟩

theorem Takes.located (h : p.Takes cs a rest) : (located p).TakesSome cs (fun x => x.1 = a) rest := by
  intro pos
  obtain ⟨pos', alt, h⟩ := h pos
  exact ⟨(a, _), pos', alt, by simp only [Parser.located, h]; rfl, rfl⟩

theorem Fails.located (h : p.Fails cs) : (Parser.located p).Fails cs := by
  intro pos
  obtain ⟨why, h⟩ := h pos
  exact ⟨why, by simp [Parser.located, h]⟩

theorem TakesSome.padded (h : p.TakesSome (skip cs) Q rest) : (padded p).TakesSome cs Q (skip rest) := by
  intro pos
  obtain ⟨a, pos', alt, h, ha⟩ := h (pos + (cs.takeWhile Text.isBlank).length)
  exact ⟨a, _, alt, by simp only [Parser.padded, Cursor.skipBlanks]; rw [show
    List.dropWhile Text.isBlank cs = skip cs from rfl, h]; rfl, ha⟩

theorem TakesSome.firstOf {ps : List (Parser α)} (h : p.TakesSome cs Q rest) :
    (firstOf (p :: ps)).TakesSome cs Q rest := by
  intro pos
  obtain ⟨a, pos', alt, h, ha⟩ := h pos
  exact ⟨a, pos', alt, by simp [Parser.firstOf, h], ha⟩

theorem Fails.firstOf_some {ps : List (Parser α)} (hp : p.Fails cs)
    (h : (Parser.firstOf ps).TakesSome cs Q rest) :
    (Parser.firstOf (p :: ps)).TakesSome cs Q rest := by
  intro pos
  obtain ⟨why, hp⟩ := hp pos
  obtain ⟨a, pos', alt, h, ha⟩ := h pos
  exact ⟨a, pos', alt, by
    simpa [Parser.firstOf, hp] using ((firstAfter_eq why ps _).1 a _ alt).mpr h, ha⟩

/-! ### Repetition -/

/-- The parser reads values in a relation to those given one after another, each from at least one
character. -/
inductive TakesEach (p : Parser α) (R : α → β → Prop) : List Char → List β → List Char → Prop where
  | nil (cs : List Char) : TakesEach p R cs [] cs
  | cons {cs cs' rest : List Char} {b : β} {bs : List β} (first : p.TakesSome cs (R · b) cs')
      (shorter : cs'.length < cs.length) (more : TakesEach p R cs' bs rest) :
      TakesEach p R cs (b :: bs) rest

namespace TakesEach

variable {R : α → β → Prop} {bs : List β}

theorem length_le (h : TakesEach p R cs bs rest) : bs.length + rest.length ≤ cs.length := by
  induction h with
  | nil cs => simp
  | cons first shorter more ih =>
    rw [List.length_cons]
    omega

theorem manyMore (h : TakesEach p R cs bs rest) (hend : p.Fails rest) (limit : Nat)
    (hlimit : bs.length ≤ limit) (acc : List α) (alt : Option Failure) (pos : Nat) :
    ∃ as pos' alt', manyMore p limit acc alt ⟨pos, cs⟩ = .ok (acc.reverse ++ as) ⟨pos', rest⟩ alt' ∧
      List.Forall₂ R as bs := by
  induction h generalizing limit acc alt pos with
  | nil cs =>
    refine ⟨[], ?_⟩
    cases limit with
    | zero => exact ⟨pos, alt, by simp [Parser.manyMore], .nil⟩
    | succ limit =>
      obtain ⟨why, hend⟩ := hend pos
      exact ⟨pos, _, by simp [Parser.manyMore, hend]; rfl, .nil⟩
  | cons first shorter more ih =>
    cases limit with
    | zero => simp at hlimit
    | succ limit =>
      obtain ⟨a, pos', alt', first, ha⟩ := first pos
      obtain ⟨as, pos'', alt'', h, has⟩ := ih hend limit (by simpa using hlimit) (a :: acc)
        (joinAlt alt alt') pos'
      exact ⟨a :: as, pos'', alt'', by simpa [Parser.manyMore, first] using h, .cons ha has⟩

theorem many (h : TakesEach p R cs bs rest) (hend : p.Fails rest) {limit : Nat}
    (hlimit : cs.length ≤ limit) :
    (many limit p).TakesSome cs (List.Forall₂ R · bs) rest := by
  have hle := h.length_le
  exact fun pos => h.manyMore hend limit (by omega) [] none pos

end TakesEach

/-- The parser reads the values one after another, each from at least one character. -/
inductive TakesAll (p : Parser α) : List Char → List α → List Char → Prop where
  | nil (cs : List Char) : TakesAll p cs [] cs
  | cons {cs cs' rest : List Char} {a : α} {as : List α} (first : p.Takes cs a cs')
      (shorter : cs'.length < cs.length) (more : TakesAll p cs' as rest) :
      TakesAll p cs (a :: as) rest

namespace TakesAll

variable {as bs : List α}

theorem length_le (h : TakesAll p cs as rest) : as.length + rest.length ≤ cs.length := by
  induction h with
  | nil cs => simp
  | cons first shorter more ih =>
    rw [List.length_cons]
    omega

theorem append (h : TakesAll p cs as cs') (h' : TakesAll p cs' bs rest) :
    TakesAll p cs (as ++ bs) rest := by
  induction h with
  | nil cs => exact h'
  | cons first shorter more ih => exact .cons first shorter (ih h')

theorem concat (h : TakesAll p cs as cs') (hlast : p.Takes cs' a rest)
    (hlt : rest.length < cs'.length) : TakesAll p cs (as ++ [a]) rest :=
  h.append (.cons hlast hlt (.nil rest))

theorem each (h : TakesAll p cs as rest) : TakesEach p Eq cs as rest := by
  induction h with
  | nil cs => exact .nil cs
  | cons first shorter more ih => exact .cons (first.some rfl) shorter ih

theorem many (h : TakesAll p cs as rest) (hend : p.Fails rest) {limit : Nat}
    (hlimit : cs.length ≤ limit) : (many limit p).Takes cs as rest := by
  intro pos
  obtain ⟨bs, pos', alt, hread, hbs⟩ := h.each.many hend hlimit pos
  rw [List.forall₂_eq_eq_eq] at hbs
  subst hbs
  exact ⟨pos', alt, hread⟩

end TakesAll

theorem takes_many_nil {limit : Nat} (h : p.Fails cs) : (many limit p).Takes cs [] cs := by
  intro pos
  cases limit with
  | zero => exact ⟨pos, none, rfl⟩
  | succ limit =>
    obtain ⟨why, h⟩ := h pos
    exact ⟨pos, _, by simp [many, manyMore, h]; rfl⟩

/-! ### Lists -/

variable {sep : Parser β}

theorem takes_items_nil {limit : Nat} (h : p.Fails cs) : (items limit p sep).Takes cs [] cs := by
  intro pos
  obtain ⟨why, h⟩ := h pos
  exact ⟨pos, some why, by simp [items, h]⟩

theorem TakesAll.takes_itemsMore {as : List α} (h : TakesAll (sep >>= fun _ => p) cs as rest)
    (hend : sep.Fails rest) (limit : Nat) (hlimit : as.length ≤ limit) (acc : List α)
    (alt : Option Failure) (pos : Nat) : ∃ pos' alt',
      itemsMore p sep limit acc alt ⟨pos, cs⟩ = .ok (acc.reverse ++ as) ⟨pos', rest⟩ alt' := by
  induction h generalizing limit acc alt pos with
  | nil cs =>
    cases limit with
    | zero => exact ⟨pos, alt, by simp [itemsMore]⟩
    | succ limit =>
      obtain ⟨why, hend⟩ := hend pos
      exact ⟨pos, _, by simp [itemsMore, closeList, hend]; rfl⟩
  | @cons cs cs' rest a as first shorter more ih =>
    cases limit with
    | zero => simp at hlimit
    | succ limit =>
      obtain ⟨pos', alt', first⟩ := first pos
      simp only [Bind.bind, andThen] at first
      cases hsep : sep ⟨pos, cs⟩ with
      | fail why => simp [hsep] at first
      | ok b d alt₁ =>
        simp only [hsep] at first
        cases hp : p d with
        | fail why => simp [hp] at first
        | ok a' d' alt₂ =>
          simp only [hp, Reply.ok.injEq] at first
          obtain ⟨rfl, rfl, _⟩ := first
          obtain ⟨pos'', alt'', h⟩ := ih hend limit (by simpa using hlimit) (a' :: acc)
            (joinAlt (joinAlt alt alt₁) alt₂) pos'
          exact ⟨pos'', alt'', by simpa [itemsMore, hsep, hp] using h⟩

/-- A first item, and then items with a separator before each. -/
theorem Takes.items {as : List α} (hp : p.Takes cs a cs')
    (h : TakesAll (sep >>= fun _ => p) cs' as rest) (hend : sep.Fails rest) {limit : Nat}
    (hlimit : cs'.length ≤ limit) : (items limit p sep).Takes cs (a :: as) rest := by
  intro pos
  obtain ⟨pos', alt, hp⟩ := hp pos
  have hle := h.length_le
  obtain ⟨pos'', alt', h⟩ := h.takes_itemsMore hend limit (by omega) [a] alt pos'
  exact ⟨pos'', alt', by simpa [Parser.items, hp] using h⟩

/-! ### Conversions -/

variable {g : α → Except (Option String) β}

theorem Takes.checked (h : p.Takes cs a rest) (hg : g a = .ok b) :
    (checked p g).Takes cs b rest := by
  intro pos
  obtain ⟨pos', alt, h⟩ := h pos
  exact ⟨pos', alt, by simp [Parser.checked, h, hg]⟩

theorem Takes.checked_fails (h : p.Takes cs a rest) {note : Option String} (hg : g a = .error note) :
    (Parser.checked p g).Fails cs := by
  intro pos
  obtain ⟨pos', alt, h⟩ := h pos
  exact ⟨_, by simp [Parser.checked, h, hg]; rfl⟩

theorem Fails.checked (h : p.Fails cs) : (checked p g).Fails cs := by
  intro pos
  obtain ⟨why, h⟩ := h pos
  exact ⟨why, by simp [Parser.checked, h]⟩

/-! ### Symbols -/

theorem takes_symbol {c : Char} (h : Text.isBlank c = false) :
    (symbol c).Takes (c :: cs) c (skip cs) :=
  Takes.padded (by rw [skip_cons h]; exact takes_char)

theorem fails_symbol {c : Char} (h : (skip cs).head? ≠ some c) : (symbol c).Fails cs :=
  Fails.padded (fails_char h)

theorem Takes.between {l r : Char} (hl : Text.isBlank l = false) (hr : Text.isBlank r = false)
    (h : p.Takes (skip cs) a (r :: rest)) : (between l r p).Takes (l :: cs) a (skip rest) :=
  (takes_symbol hl).bind (h.bind ((takes_symbol hr).bind takes_pure))

theorem Fails.between {l r : Char} (hl : Text.isBlank l = false) (h : p.Fails (skip cs)) :
    (between l r p).Fails (l :: cs) := (takes_symbol hl).bind_fails h.bind

theorem fails_between {l r : Char} (h : (skip cs).head? ≠ some l) :
    (Parser.between l r p).Fails cs :=
  (fails_symbol h).bind

theorem TakesSome.between {l r : Char} (hl : Text.isBlank l = false) (hr : Text.isBlank r = false)
    (h : p.TakesSome (skip cs) Q (r :: rest)) : (between l r p).TakesSome (l :: cs) Q (skip rest) :=
  (takes_symbol hl).bind_some (h.bind fun _ ha => (takes_symbol hr).bind_some (takes_pure.some ha))

end Parser

end Fluxion.Grammar
