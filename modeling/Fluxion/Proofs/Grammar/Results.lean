import Mathlib.Data.List.Basic
import Fluxion.Proofs.Grammar.Programs

/-!
What parsers give. A property of all values that a parser gives is carried from parser to parser by one
lemma for each combinator.
-/

namespace Fluxion.Grammar

namespace Parser

variable {α β : Type} {p q : Parser α} {f : α → Parser β} {c d : Cursor} {a : α} {b : β}
  {alt : Option Failure} {Q Q' : α → Prop} {T : β → Prop}

/-- All values that the parser gives have the property. -/
def Gives (p : Parser α) (Q : α → Prop) : Prop := ∀ c a d alt, p c = .ok a d alt → Q a

theorem gives_any (p : Parser α) : p.Gives fun _ => True := fun _ _ _ _ _ => trivial

theorem gives_pure (h : Q a) : Gives (pure a) Q := by
  intro c a' d alt he
  cases he
  exact h

theorem bind_ok (h : (p >>= f) c = .ok b d alt) :
    ∃ a c' alt₁ alt₂, p c = .ok a c' alt₁ ∧ f a c' = .ok b d alt₂ := by
  simp only [Bind.bind, andThen] at h
  cases hp : p c with
  | fail why => simp [hp] at h
  | ok a c' alt₁ =>
    simp only [hp] at h
    cases hf : f a c' with
    | fail why => simp [hf] at h
    | ok b' d' alt₂ =>
      simp only [hf, Reply.ok.injEq] at h
      obtain ⟨rfl, rfl, -⟩ := h
      exact ⟨a, c', alt₁, alt₂, rfl, hf⟩

theorem Gives.bind (hp : p.Gives Q) (hf : ∀ a, Q a → (f a).Gives T) : (p >>= f).Gives T := by
  intro c b d alt h
  obtain ⟨a, c', alt₁, alt₂, ha, hb⟩ := bind_ok h
  exact hf a (hp c a c' alt₁ ha) c' b d alt₂ hb

/-- What is read first says nothing about the value. -/
theorem Gives.after (hf : ∀ a, (f a).Gives T) : (p >>= f).Gives T := (gives_any p).bind fun a _ => hf a

theorem Gives.map {g : α → β} (hp : p.Gives Q) (hg : ∀ a, Q a → T (g a)) :
    (p >>= fun a => pure (g a)).Gives T := hp.bind fun a ha => gives_pure (hg a ha)

theorem gives_satisfy (t : Char → Bool) : (satisfy t).Gives fun c => t c = true := by
  intro c a d alt h
  unfold satisfy at h
  split at h
  · split at h
    · cases h
      assumption
    · cases h
  · cases h

theorem gives_span (t : Char → Bool) : (span t).Gives fun cs => ∀ c ∈ cs, t c = true := by
  intro c a d alt h x hx
  cases h
  exact List.all_eq_true.mp List.all_takeWhile x hx

theorem Gives.padded (h : p.Gives Q) : (padded p).Gives Q := by
  intro c a d alt ha
  unfold Parser.padded at ha
  cases hp : p c.skipBlanks with
  | fail why => simp [hp] at ha
  | ok a' d' alt' =>
    simp only [hp, Reply.ok.injEq] at ha
    exact ha.1 ▸ h _ a' d' alt' hp

theorem Gives.orElse (hp : p.Gives Q) (hq : q.Gives Q) : (orElse p q).Gives Q := by
  intro c a d alt ha
  unfold Parser.orElse at ha
  cases hpc : p c with
  | ok a' d' alt' =>
    simp only [hpc, Reply.ok.injEq] at ha
    exact ha.1 ▸ hp c a' d' alt' hpc
  | fail why =>
    cases hqc : q c with
    | ok a' d' alt' =>
      simp only [hpc, hqc, Reply.ok.injEq] at ha
      exact ha.1 ▸ hq c a' d' alt' hqc
    | fail why' => simp [hpc, hqc] at ha

/-- A choice gives what its first parser gives, or fails there and gives what the others give. -/
theorem firstOf_ok {ps : List (Parser α)} (h : firstOf (p :: ps) c = .ok a d alt) :
    p c = .ok a d alt ∨ (∃ why, p c = .fail why) ∧ firstOf ps c = .ok a d alt := by
  cases hp : p c with
  | ok a' d' alt' => exact .inl (by simpa [firstOf, hp] using h)
  | fail why =>
    refine .inr ⟨⟨why, rfl⟩, ?_⟩
    simp only [firstOf, hp] at h
    exact ((firstAfter_eq why ps c).1 a d alt).mp h

theorem gives_firstOf {ps : List (Parser α)} (h : ∀ p ∈ ps, p.Gives Q) : (firstOf ps).Gives Q := by
  induction ps with
  | nil =>
    intro c a d alt ha
    cases ha
  | cons p ps ih =>
    intro c a d alt ha
    rcases firstOf_ok ha with hp | ⟨-, hps⟩
    · exact h p List.mem_cons_self c a d alt hp
    · exact ih (fun q hq => h q (List.mem_cons_of_mem p hq)) c a d alt hps

/-- What is read optionally leaves the text as it was when it is missing. -/
theorem optional_ok {x : Option α} (h : optional p c = .ok x d alt) :
    (∃ a, x = some a ∧ p c = .ok a d alt) ∨ x = none ∧ d = c := by
  unfold optional at h
  cases hp : p c with
  | ok a d' alt' =>
    simp only [hp, Reply.ok.injEq] at h
    obtain ⟨rfl, rfl, rfl⟩ := h
    exact .inl ⟨a, rfl, rfl⟩
  | fail why =>
    simp only [hp, Reply.ok.injEq] at h
    exact .inr ⟨h.1.symm, h.2.1.symm⟩

theorem Gives.optional (h : p.Gives Q) : (optional p).Gives fun x => ∀ a, x = some a → Q a := by
  intro c x d alt hx a ha
  rcases optional_ok hx with ⟨a', rfl, hp⟩ | ⟨rfl, -⟩
  · cases ha
    exact h c a d alt hp
  · cases ha

theorem Gives.manyMore (h : p.Gives Q) (limit : Nat) (acc : List α) (alt : Option Failure)
    (hacc : ∀ a ∈ acc, Q a) : (manyMore p limit acc alt).Gives fun as => ∀ a ∈ as, Q a := by
  induction limit generalizing acc alt with
  | zero =>
    intro c as d alt' he a ha
    cases he
    exact hacc a (List.mem_reverse.mp ha)
  | succ limit ih =>
    intro c as d alt' he
    unfold Parser.manyMore at he
    cases hp : p c with
    | ok a c' alt₁ =>
      simp only [hp] at he
      exact ih (a :: acc) _ (List.forall_mem_cons.mpr ⟨h c a c' alt₁ hp, hacc⟩) c' as d alt' he
    | fail why =>
      simp only [hp, Reply.ok.injEq] at he
      intro a ha
      exact hacc a (List.mem_reverse.mp (he.1 ▸ ha))

theorem Gives.many (h : p.Gives Q) (limit : Nat) : (many limit p).Gives fun as => ∀ a ∈ as, Q a :=
  h.manyMore limit [] none (by simp)

theorem closeList_ok {sep : Parser β} {acc as : List α} {why : Failure} {alt' : Option Failure}
    (h : closeList sep acc alt why c = .ok as d alt') : as = acc.reverse := by
  unfold closeList at h
  split at h <;> cases h <;> rfl

theorem Gives.itemsMore (h : p.Gives Q) (sep : Parser β) (limit : Nat) (acc : List α)
    (alt : Option Failure) (hacc : ∀ a ∈ acc, Q a) :
    (itemsMore p sep limit acc alt).Gives fun as => ∀ a ∈ as, Q a := by
  induction limit generalizing acc alt with
  | zero =>
    intro c as d alt' he a ha
    cases he
    exact hacc a (List.mem_reverse.mp ha)
  | succ limit ih =>
    intro c as d alt' he
    unfold Parser.itemsMore at he
    cases hsep : sep c with
    | fail why =>
      simp only [hsep] at he
      intro a ha
      exact hacc a (List.mem_reverse.mp (closeList_ok he ▸ ha))
    | ok b c' alt₁ =>
      simp only [hsep] at he
      cases hp : p c' with
      | fail why =>
        simp only [hp] at he
        intro a ha
        exact hacc a (List.mem_reverse.mp (closeList_ok he ▸ ha))
      | ok a c'' alt₂ =>
        simp only [hp] at he
        exact ih (a :: acc) _ (List.forall_mem_cons.mpr ⟨h c' a c'' alt₂ hp, hacc⟩) c'' as d alt' he

theorem Gives.items (h : p.Gives Q) (limit : Nat) (sep : Parser β) :
    (items limit p sep).Gives fun as => ∀ a ∈ as, Q a := by
  intro c as d alt he
  unfold Parser.items at he
  cases hp : p c with
  | fail why =>
    simp only [hp, Reply.ok.injEq] at he
    simp [← he.1]
  | ok a c' alt₁ =>
    simp only [hp] at he
    exact h.itemsMore sep limit [a] alt₁ (by simpa using h c a c' alt₁ hp) c' as d alt he

theorem Gives.between (h : p.Gives Q) (l r : Char) : (between l r p).Gives Q :=
  .after fun _ => h.bind fun _ ha => .after fun _ => gives_pure ha

theorem Gives.checked {g : α → Except (Option String) β} (h : p.Gives Q)
    (hg : ∀ a b, Q a → g a = .ok b → T b) : (checked p g).Gives T := by
  intro c b d alt he
  unfold Parser.checked at he
  cases hp : p c with
  | fail why => simp [hp] at he
  | ok a c' alt₁ =>
    simp only [hp] at he
    cases hga : g a with
    | error note => simp [hga] at he
    | ok b' =>
      simp only [hga, Reply.ok.injEq] at he
      exact he.1 ▸ hg a b' (h c a c' alt₁ hp) hga

theorem Gives.located (h : p.Gives Q) : (located p).Gives fun x => Q x.1 := by
  intro c x d alt he
  unfold Parser.located at he
  cases hp : p c with
  | fail why => simp [hp] at he
  | ok a c' alt₁ =>
    simp only [hp, Reply.ok.injEq] at he
    exact he.1 ▸ h c a c' alt₁ hp

end Parser

open Fluxion.Grammar.Parser Fluxion.Decimal

variable {limit : Nat}

/-! ### Words and numbers -/

theorem gives_name : name.Gives fun s => isWord s.toList = true :=
  (gives_satisfy _).bind fun c hc => (gives_span _).map fun cs hcs => by
    rw [String.toList_ofList, isWord, hc, Bool.true_and]
    exact List.all_eq_true.mpr hcs

theorem gives_ident : ident.Gives fun s => isIdent s = true := by
  refine (gives_name.checked ?_).padded
  intro s x hs hx
  by_cases hk : keywords.contains s = true
  · rw [if_pos hk] at hx
    cases hx
  · rw [if_neg hk] at hx
    cases hx
    exact isIdent_iff.mpr ⟨hs, fun hmem => hk (by simpa using hmem)⟩

theorem gives_path : (path limit).Gives IsPath := by
  refine gives_ident.bind fun first hfirst => ?_
  have hrest : (many limit (do word "::"; ident)).Gives fun xs => ∀ x ∈ xs, isIdent x = true :=
    Gives.many (.after fun _ => gives_ident) limit
  exact hrest.map fun rest hrest => ⟨first, rest, List.forall_mem_cons.mpr ⟨hfirst, hrest⟩, rfl⟩

theorem gives_wholeNumber : wholeNumber.Gives fun ds => isWhole ds = true := by
  apply Gives.orElse
  · refine (gives_satisfy _).bind fun c hc => (gives_span _).map fun cs hcs => ?_
    simp only [Bool.and_eq_true, bne_iff_ne, ne_eq] at hc
    simp only [isWhole, hc.2, if_false, hc.1, Bool.true_and]
    exact List.all_eq_true.mpr hcs
  · refine (gives_satisfy _).map fun c hc => ?_
    obtain rfl : c = '0' := by simpa using hc
    decide

/-- The floats that are read from decimals: no sign, and no more than infinity. -/
def IsMagnitude (v : Float) : Prop := ∃ m, m ≤ 2047 * 2 ^ 52 ∧ v = ofMagnitude false m

theorem isMagnitude_nearest (man : Nat) (exp : Int) : IsMagnitude (nearest false man exp) := by
  unfold nearest
  split
  · exact ⟨0, by omega, rfl⟩
  · split
    · exact ⟨2047 * 2 ^ 52, Nat.le_refl _, rfl⟩
    · exact ⟨_, Nat.min_le_right _ _, rfl⟩

theorem expr_literal {F : Float → Prop} {e : Expr} (h : e.Wellspelt F) (he : e.parts = [e]) :
    (wellspelt F).Expr e := by
  intro part hp
  obtain rfl : part = e := by simpa [he] using hp
  exact h

theorem wellspelt_literal {whole : List Char} {frac : Option (Option (List Char))}
    {power : Option (Option Char × List Char)} {e : Expr} (h : literal whole frac power = .ok e) :
    (wellspelt IsMagnitude).Expr e := by
  unfold literal at h
  split at h
  · by_cases hn : digitsValue whole < Nat.pow 2 63
    · rw [if_pos hn] at h
      cases h
      refine expr_literal ?_ (by simp [Expr.parts])
      rw [Expr.Wellspelt, Int64.le_iff_toInt_le, Int64.toInt_ofNat_of_lt hn]
      simp
    · rw [if_neg hn] at h
      cases h
  · cases h
    exact expr_literal (isMagnitude_nearest _ _) (by simp [Expr.parts])

theorem gives_number : number.Gives (wellspelt IsMagnitude).Expr := by
  refine Gives.padded ((gives_any _).checked ?_)
  intro x e _ h
  exact wellspelt_literal h

theorem arrayTy_some (elem : Ty) (ds : List Char) : arrayTy elem (some ds) =
    if digitsValue ds < 2 ^ 64 then .ok (.array elem (some (digitsValue ds)))
    else .error (some "array length too large") := rfl

theorem lengthsFit_arrayTy {elem t : Ty} {len : Option (List Char)} (helem : elem.lengthsFit = true)
    (h : arrayTy elem len = .ok t) : t.lengthsFit = true := by
  cases len with
  | none =>
    cases h
    exact helem
  | some ds =>
    rw [arrayTy_some] at h
    by_cases hn : digitsValue ds < 2 ^ 64
    · rw [if_pos hn] at h
      cases h
      rw [Ty.lengthsFit, helem, Bool.true_and]
      exact decide_eq_true hn
    · rw [if_neg hn] at h
      cases h

theorem gives_ty : (ty limit).Gives fun t => t.lengthsFit = true := by
  induction limit with
  | zero =>
    intro c t d alt h
    cases h
  | succ limit ih =>
    have hscalar : scalarTy.Gives fun t => t.lengthsFit = true := by
      apply gives_firstOf
      simp only [List.forall_mem_cons]
      exact ⟨.after fun _ => gives_pure rfl, .after fun _ => gives_pure rfl,
        .after fun _ => gives_pure rfl, .after fun _ => gives_pure rfl, by simp⟩
    have harray : (checked (between '[' ']' (arrayParts limit)) fun x => arrayTy x.1 x.2).Gives
        fun t => t.lengthsFit = true := by
      have hparts : (arrayParts limit).Gives fun x => x.1.lengthsFit = true :=
        ih.bind fun elem helem => .after fun len => gives_pure helem
      exact (hparts.between '[' ']').checked fun x t hx h => lengthsFit_arrayTy hx h
    rw [ty_succ]
    apply gives_firstOf
    simp only [List.forall_mem_cons]
    exact ⟨hscalar, .after fun _ => ih.map fun t ht => ht, harray,
      .after fun _ => (ih.between '<' '>').map fun t ht => ht, by simp⟩

/-! ### Expressions -/

section

variable {inner : Parser Expr}

theorem gives_atom (hinner : inner.Gives (wellspelt IsMagnitude).Expr) :
    (atom limit inner).Gives (wellspelt IsMagnitude).Expr := by
  apply gives_firstOf
  simp only [List.forall_mem_cons]
  refine ⟨gives_number, .after fun _ => gives_pure ?_, .after fun _ => gives_pure ?_, ?_, ?_, ?_, ?_,
    hinner.between '(' ')', by simp⟩
  · exact expr_literal trivial (by simp [Expr.parts])
  · exact expr_literal trivial (by simp [Expr.parts])
  · exact gives_path.bind fun f hf => ((hinner.items limit (symbol ',')).between '(' ')').map
      fun args hargs => Rule.expr_call.mpr ⟨hf, hargs⟩
  · exact gives_ident.bind fun x hx => (hinner.between '[' ']').map fun i hi =>
      Rule.expr_index.mpr ⟨hx, hi⟩
  · exact .after fun _ => gives_path.map fun f hf => expr_literal hf (by simp [Expr.parts])
  · exact gives_ident.map fun x hx => Rule.expr_var.mpr hx

theorem gives_unary (hinner : inner.Gives (wellspelt IsMagnitude).Expr) :
    (unary limit inner).Gives (wellspelt IsMagnitude).Expr := by
  refine .after fun ops => (gives_atom hinner).map fun e he => ?_
  induction ops with
  | nil => exact he
  | cons op ops ih => exact Rule.expr_unary.mpr ⟨trivial, ih⟩

theorem expr_joined {R : Rule} {first : Expr} {links : List (BinOp × Expr)} (hfirst : R.Expr first)
    (hlinks : ∀ x ∈ links, R.Expr x.2) (hpart : ∀ op l r, R.part (.binary op l r)) :
    R.Expr (joined first links) := by
  induction links generalizing first with
  | nil => exact hfirst
  | cons x links ih =>
    have hnext : R.Expr (.binary x.1 first x.2) :=
      Rule.expr_binary.mpr ⟨hpart _ _ _, hfirst, hlinks x List.mem_cons_self⟩
    exact ih hnext fun y hy => hlinks y (List.mem_cons_of_mem x hy)

theorem gives_level {operand : Parser Expr} {ops : Parser BinOp}
    (h : operand.Gives (wellspelt IsMagnitude).Expr) :
    (level limit operand ops).Gives (wellspelt IsMagnitude).Expr := by
  rw [level_eq]
  refine h.bind fun first hfirst => ?_
  have hlink : (link operand ops).Gives fun x => (wellspelt IsMagnitude).Expr x.2 :=
    .after fun op => h.map fun rhs hrhs => hrhs
  exact (hlink.many limit).map fun links hlinks => expr_joined hfirst hlinks fun _ _ _ => trivial

theorem gives_tier (hinner : inner.Gives (wellspelt IsMagnitude).Expr) (d : Nat) :
    (tier limit inner d).Gives (wellspelt IsMagnitude).Expr := by
  induction d with
  | zero => exact gives_unary hinner
  | succ d ih => exact gives_level ih

end

/-- The names and literals of an expression that is read are those a program can have. -/
theorem gives_expr : (expr limit).Gives (wellspelt IsMagnitude).Expr := by
  induction limit with
  | zero =>
    intro c e d alt h
    cases h
  | succ limit ih =>
    rw [expr_succ]
    exact gives_tier ih 6

/-! ### Statements -/

theorem gives_place : (place limit).Gives fun p =>
    isIdent p.name = true ∧ (wellspelt IsMagnitude).Place p := by
  refine gives_ident.bind fun x hx => ((gives_expr.between '[' ']').optional).map fun i hi => ?_
  cases i with
  | none => exact ⟨hx, by simp [Rule.Place, Place.parts]⟩
  | some i => exact ⟨hx, hi i rfl⟩

theorem gives_assignment : (assignment limit).Gives (wellspelt IsMagnitude).Assignment :=
  gives_place.bind fun _ hp => .after fun _ => gives_expr.map fun _ he => ⟨hp.1, hp.2, he⟩

theorem gives_letHead : letHead.Gives fun x => isIdent x = true :=
  .after fun _ => gives_ident.bind fun _ hx => .after fun _ => gives_pure hx

theorem gives_localDecl : (localDecl limit).Gives (wellspelt IsMagnitude).Local := by
  refine gives_letHead.bind fun x hx => gives_ty.bind fun t ht => ?_
  have hinit : (optional (do let _ ← symbol '='; expr limit)).Gives fun x =>
      ∀ e, x = some e → (wellspelt IsMagnitude).Expr e := Gives.optional (.after fun _ => gives_expr)
  exact hinit.map fun init hinit => ⟨⟨hx, ht⟩, hinit⟩

theorem Parser.Gives.ended {α : Type} {p : Parser α} {Q : α → Prop} (h : p.Gives Q) :
    (ended p).Gives Q := h.bind fun _ ha => .after fun _ => gives_pure ha

end Fluxion.Grammar
