import Fluxion.Proofs.Accumulated.Execution

/-!
Calls of functions that only add to some of their parameters, by induction on how many more calls
may be opened.
-/

namespace Fluxion

variable {K : Type}

/-! ### Fewer variables -/

section

variable {lends : Lends} {O O' : String → Bool} (hO : ∀ x, O' x = true → O x = true)

include hO

theorem not_of_fewer {x : String} (hx : (!O x) = true) : (!O' x) = true := by
  cases h : O' x with
  | false => rfl
  | true =>
    rw [hO x h] at hx
    cases hx

theorem Assignment.spares_mono {a : Assignment} (h : a.spares O = true) : a.spares O' = true := by
  simp only [spares, Bool.and_eq_true] at h ⊢
  exact ⟨not_of_fewer hO h.1, unread_mono hO h.2⟩

theorem LoopInit.spares_mono {i : LoopInit} (h : i.spares O = true) : i.spares O' = true := by
  cases i with
  | decl d =>
    simp only [spares, Bool.and_eq_true] at h ⊢
    exact ⟨not_of_fewer hO h.1, unread_mono hO h.2⟩
  | assign a => exact Assignment.spares_mono hO h

theorem handsFrom_mono {L : Nat → Bool} : ∀ {es : List Expr} {k : Nat},
    handsFrom O L k es = true → handsFrom O' L k es = true
  | [], _, _ => rfl
  | e :: es, k, h => by
    simp only [handsFrom, Bool.and_eq_true, Bool.or_eq_true, Option.any_eq_true] at h ⊢
    refine ⟨h.1.imp (unread_mono hO) fun hlent => ⟨hlent.1, ?_⟩, handsFrom_mono h.2⟩
    obtain ⟨p, hp, hread⟩ := hlent.2
    exact ⟨p, hp, unread_mono hO hread⟩

theorem Expr.hands_mono {e : Expr} (h : e.hands lends O = true) : e.hands lends O' = true := by
  cases e with
  | call f args =>
    simp only [hands, Bool.and_eq_true] at h ⊢
    exact ⟨h.1, handsFrom_mono hO h.2⟩
  | _ => cases h

omit hO in
theorem all_mono {α : Type} {f f' : α → Bool} (hf : ∀ a, f a = true → f' a = true)
    {o : Option α} (h : o.all f = true) : o.all f' = true := by
  cases o with
  | none => rfl
  | some a => exact hf a h

end

mutual

/-- What adds to some variables adds to fewer of them. -/
theorem Stmt.adds_mono {lends : Lends} {O O' : String → Bool}
    (hO : ∀ x, O' x = true → O x = true) :
    ∀ {st : Stmt}, st.adds lends O = true → st.adds lends O' = true
  | .decl d, h => by
    simp only [Stmt.adds, Bool.and_eq_true] at h ⊢
    exact ⟨not_of_fewer hO h.1, unread_mono hO h.2⟩
  | .arrayDecl x _ len, h => by
    simp only [Stmt.adds, Bool.and_eq_true] at h ⊢
    exact ⟨not_of_fewer hO h.1, unread_mono hO h.2⟩
  | .assign a, h => by
    simp only [Stmt.adds, Bool.and_eq_true, Bool.or_eq_true] at h ⊢
    exact ⟨h.1.imp_left (·.imp_left (not_of_fewer hO)), unread_mono hO h.2⟩
  | .cond test yes no, h => by
    simp only [Stmt.adds, Bool.and_eq_true] at h ⊢
    exact ⟨⟨unread_mono hO h.1.1, addsAll_mono hO h.1.2⟩, addsAll_mono hO h.2⟩
  | .for_ init test step body, h => by
    simp only [Stmt.adds, Bool.and_eq_true] at h ⊢
    exact ⟨⟨⟨all_mono (fun _ => LoopInit.spares_mono hO) h.1.1.1,
      all_mono (fun _ => unread_mono hO) h.1.1.2⟩,
      all_mono (fun _ => Assignment.spares_mono hO) h.1.2⟩, addsAll_mono hO h.2⟩
  | .while_ test body, h => by
    simp only [Stmt.adds, Bool.and_eq_true] at h ⊢
    exact ⟨unread_mono hO h.1, addsAll_mono hO h.2⟩
  | .ret value, h => by
    simp only [Stmt.adds] at h ⊢
    exact all_mono (fun _ => unread_mono hO) h
  | .expr e, h => by
    simp only [Stmt.adds, Bool.or_eq_true] at h ⊢
    exact h.imp (unread_mono hO) (Expr.hands_mono hO)
  | .block body, h => by
    simp only [Stmt.adds] at h ⊢
    exact addsAll_mono hO h

theorem addsAll_mono {lends : Lends} {O O' : String → Bool}
    (hO : ∀ x, O' x = true → O x = true) : ∀ {body : List Stmt}, addsAll lends O body = true →
    addsAll lends O' body = true
  | [], _ => rfl
  | s :: rest, h => by
    simp only [addsAll, Bool.and_eq_true] at h ⊢
    exact ⟨Stmt.adds_mono hO h.1, addsAll_mono hO h.2⟩

end

/-! ### Parameters -/

namespace Machine

open Exec

variable [ExactScalar K] {lends : Lends} {A : Accumulators K} {P : Pairing} {s s' : Store K}
  {total : Prop}

theorem drifts_newCell (hd : Drift A P s s') (v : Value K) :
    Drifts total A P (newCell v) s (newCell v) s' fun P' a b _ _ => P'.slot a b := by
  have hsafe : ∀ {q : Store K}, A.guard.In q → Safe A.guard (newCell v) q fun slot _ =>
      ¬ A.slots slot := fun hq =>
    ⟨.newCell hq v, fun hs => Nat.lt_irrefl _ (hq.slots (.cell _) hs)⟩
  refine (Drifts.of_agree hd (Eval.agree_newCell hd.paired v) (hsafe hd.guard_in)
    (hsafe hd.guard_in')).imp fun P' a b t t' _ _ _ hQ => ?_
  obtain ⟨P'', rfl, hab, ha, hb⟩ := hQ
  exact Pairing.sparing_binding (b := .scalar a) (c := .scalar b) hab ha hb

theorem drifts_enter (hd : Drift A P s s') (p : Param) {b b' : Bound K} (hb : P.bound b b') :
    Drifts total A P (enter p b) s (enter p b') s' fun P' c c' _ _ => P'.binding c c' := by
  rcases b with v | x | a | a <;> rcases b' with w | y | c | c <;> try exact hb.elim
  · obtain rfl : v = w := hb
    exact (drifts_newCell hd _).bind fun _ _ _ _ _ _ ht _ hxy => .pure ht hxy
  · exact .pure hd hb
  · exact .pure hd hb
  · exact .pure hd hb

/-- What is lent to a parameter. -/
theorem enter_lent {p : Param} {b b' : Bound K} (h : A.LendsBound s b b') :
    ∃ c, A.Lends s c ∧ enter p b = pure c ∧ enter p b' = pure c := by
  cases h with
  | slot has => exact ⟨.scalar _, has, rfl, rfl⟩
  | array has => exact ⟨.array _, has, rfl, rfl⟩

/-- Parameters become corresponding variables, but for those that are lent. -/
theorem drifts_enterAll {L : Nat → Bool} {ps : List Param} : ∀ {k : Nat} {O : String → Bool}
    {P : Pairing} {env env' : Env} {s s' : Store K} {bs bs' : List (Bound K)},
    Abreast A O P env env' s s' → Along (A.bounds L P s) k bs bs' →
    (∀ i j p q, i < j → ps[i]? = some p → ps[j]? = some q → L (k + i) = true → q.name ≠ p.name) →
    (∀ p ∈ ps, O p.name = false) →
    Drifts total A P (enterAll env ps bs) s (enterAll env' ps bs') s' fun P' e e' t t' =>
      ∃ O', (∀ x, O' x = true → O x = true ∨
          ∃ i p, ps[i]? = some p ∧ L (k + i) = true ∧ p.name = x) ∧
        Abreast A O' P' e e' t t' := by
  induction ps with
  | nil =>
    intro k O P env env' s s' bs bs' h _ _ _
    exact .pure h.drift ⟨O, fun _ => .inl, h⟩
  | cons p ps ih =>
    intro k O P env env' s s' bs bs' h hb hdistinct hfree
    have hrest : ∀ i j q q', i < j → ps[i]? = some q → ps[j]? = some q' → L (k + 1 + i) = true →
        q'.name ≠ q.name := fun i j q q' hij hq hq' hL =>
      hdistinct (i + 1) (j + 1) q q' (by omega) hq hq' (by rwa [← Nat.add_assoc, Nat.add_right_comm])
    cases hb with
    | nil => exact .pure h.drift ⟨O, fun _ => .inl, h⟩
    | cons hhead htail =>
      have hlater : ∀ {x : String}, (∃ i q, ps[i]? = some q ∧ L (k + 1 + i) = true ∧ q.name = x) →
          ∃ i q, (p :: ps)[i]? = some q ∧ L (k + i) = true ∧ q.name = x := by
        rintro x ⟨i, q, hq, hL, hname⟩
        exact ⟨i + 1, q, hq, by rwa [← Nat.add_assoc, Nat.add_right_comm], hname⟩
      rw [enterAll, enterAll]
      rcases hhead with ⟨hpair, _⟩ | ⟨hL, hlent⟩
      -- a parameter of its own hides no accumulator, and one that is lent becomes one
      · refine (drifts_enter h.drift p hpair).bind fun P₁ c c' t t' hP₁ ht hk₁ hc => ?_
        have h₁ := (h.later hP₁ ht hk₁).declare (hfree p (List.mem_cons_self ..)) hc
        refine (ih h₁ (htail.imp fun _ _ _ hb => hb.later hP₁ (h.drift.same_shape hk₁)) hrest
          fun q hq => hfree q (List.mem_cons_of_mem _ hq)).imp ?_
        rintro P' e e' u u' _ _ _ ⟨O', hO', h'⟩
        exact ⟨O', fun x hx => (hO' x hx).imp_right hlater, h'⟩
      · obtain ⟨c, hc, henter, henter'⟩ := enter_lent (p := p) hlent
        rw [henter, henter', pure_bind, pure_bind]
        refine (ih (h.lend p.name hc) htail hrest fun q hq => ?_).imp ?_
        · obtain ⟨j, hj⟩ := List.mem_iff_getElem?.mp hq
          have hne : q.name ≠ p.name := hdistinct 0 (j + 1) p q (by omega) rfl hj hL
          simp [hfree q (List.mem_cons_of_mem _ hq), hne]
        · rintro P' e e' u u' _ _ _ ⟨O', hO', h'⟩
          refine ⟨O', fun x hx => ?_, h'⟩
          rcases hO' x hx with hx | hx
          · rcases (Bool.or_eq_true _ _).mp hx with hx | hx
            · exact .inl hx
            · exact .inr ⟨0, p, rfl, hL, (eq_of_beq hx).symm⟩
          · exact .inr (hlater hx)

theorem drifts_returned (hd : Drift A P s s') (f : Func) (flow : Eval.Flow K) :
    Drifts total A P (returned f flow) s (returned f flow) s' SameResult := by
  unfold returned
  split
  · exact .pure hd rfl
  · split
    · exact .pure hd rfl
    · exact .stop

/-! ### Calls -/

variable {m : Machine K}

theorem passes_of_forall₂ {W : Writable} (g : Func) {bs bs' : List (Bound K)}
    (hd : Drift A P s s') (hb : List.Forall₂ (fun b b' => P.bound b b' ∧ ∀ id, b ≠ .tape id) bs bs') :
    Passes W A.guard g bs s ∧ Passes W A.guard g bs' s' := by
  have hone : ∀ {b b' : Bound K}, P.bound b b' → (∀ id, b ≠ .tape id) →
      (b.In s ∧ b.Apart A.guard) ∧ b'.In s' ∧ b'.Apart A.guard := by
    intro b b' hbb htape
    rcases b with v | x | a | a <;> rcases b' with w | y | c | c <;> try exact hbb.elim
    · exact ⟨⟨trivial, trivial⟩, trivial, trivial⟩
    · exact hd.binding_in (b := .scalar x) (c := .scalar y) hbb
    · exact hd.binding_in (b := .array a) (c := .array c) hbb
    · exact absurd rfl (htape a)
  obtain ⟨hlen, hget⟩ := List.forall₂_iff_get.mp hb
  constructor
  · intro i b hi
    obtain ⟨hlt, rfl⟩ := List.getElem?_eq_some_iff.mp hi
    obtain ⟨hbb, htape⟩ := hget i hlt (hlen ▸ hlt)
    exact ⟨(hone hbb htape).1.1, fun _ => (hone hbb htape).1.2⟩
  · intro i b hi
    obtain ⟨hlt, rfl⟩ := List.getElem?_eq_some_iff.mp hi
    obtain ⟨hbb, htape⟩ := hget i (hlen ▸ hlt) hlt
    exact ⟨(hone hbb htape).2.1, fun _ => (hone hbb htape).2.2⟩

/-- A call that gets no accumulator. -/
theorem drifts_callAt_of_paired (hparams : ∀ f ∈ m.funcs, ∀ p ∈ f.params, ∀ t, p.ty ≠ .tape t)
    (limit depth : Nat) {g : Func} (hg : g ∈ m.funcs) (hd : Drift A P s s') {bs bs' : List (Bound K)}
    (hb : List.Forall₂ (fun b b' => P.bound b b' ∧ ∀ id, b ≠ .tape id) bs bs') :
    Drifts total A P (m.callAt limit depth g bs) s (m.callAt limit depth g bs') s' SameResult := by
  have hframed := framed_callAt (G := A.guard) hparams (Writable.closed_all m.funcs) limit depth
    trivial
  have hsteady := steady_callAt (N := Eq) (fun _ => rfl) m limit depth
  obtain ⟨hpass, hpass'⟩ := passes_of_forall₂ (W := fun _ _ => True) g hd hb
  refine (Drifts.of_agree hd (hsteady.call g hd.paired (hb.imp fun _ _ h => h.1))
    (hframed.call g hg bs s hd.guard_in hpass)
    (hframed.call g hg bs' s' hd.guard_in' hpass')).imp fun _ _ _ _ _ _ _ _ hQ => ?_
  obtain ⟨_, _, hab, _, _⟩ := hQ
  exact hab

/-- A call that opens a body, which may forget all pairs but those of `P₀`. -/
theorem drifts_callAt_body {P₀ : Pairing} (hP₀ : P₀.Within P) {limit depth : Nat} {g : Func}
    {body : List Stmt} (hbody : g.body = some body) {L : Nat → Bool} (hd : Drift A P s s')
    {bs bs' : List (Bound K)} (hb : Along (A.bounds L P s) 0 bs bs')
    (hdistinct : ∀ (i j : Nat) (p q : Param), i < j → g.params[i]? = some p →
      g.params[j]? = some q → L i = true → q.name ≠ p.name)
    {Q : Eval.Flow K → Eval.Flow K → Prop} {R : Option (Value K) → Option (Value K) → Prop}
    (hexec : ∀ {O P' env env' t t'},
      (∀ x, O x = true → ∃ i p, g.params[i]? = some p ∧ L i = true ∧ p.name = x) →
      P.Within P' → Abreast A O P' env env' t t' →
      Drifts total A P₀ (Eval.execBody ⟨m.funcs, m.callAt limit depth⟩ limit env body) t
        (Eval.execBody ⟨m.funcs, m.callAt limit depth⟩ limit env' body) t' fun _ a b _ _ => Q a b)
    (hreturned : ∀ {P' flow flow' t t'}, Drift A P' t t' → Q flow flow' →
      Drifts total A P' (returned g flow) t (returned g flow') t' fun _ v w _ _ => R v w) :
    Drifts total A P₀ (m.callAt limit (depth + 1) g bs) s (m.callAt limit (depth + 1) g bs') s'
      fun _ v w _ _ => R v w := by
  have hempty : Abreast A (fun _ => false) P [] [] s s' :=
    ⟨hd, ⟨fun _ _ => rfl, fun _ _ => .none⟩, fun _ h => by cases h⟩
  rw [callAt, callAt, hbody]
  refine Drifts.bind (Drifts.inScope (Q := Q) (hd.mono hP₀) ?_) fun P₁ flow flow' t t' _ ht _ hflow =>
    hreturned ht hflow
  refine (drifts_enterAll hempty hb (fun i j p q hij hp hq hL =>
    hdistinct i j p q hij hp hq (by rwa [Nat.zero_add] at hL)) fun _ _ => rfl).bind_within
    fun P₁ env env' t t' hP₁ ht _ henv => ?_
  obtain ⟨O, hO, h₁⟩ := henv
  refine Drifts.inScope (Q := Q) (ht.mono (hP₀.trans hP₁)) (hexec (fun x hx => ?_) hP₁ h₁)
  obtain ⟨i, p, hp, hL, hname⟩ := (hO x hx).resolve_left (by simp)
  exact ⟨i, p, hp, by rwa [Nat.zero_add] at hL, hname⟩

/-- Names that are not repeated. -/
theorem ne_of_nodup {ps : List Param} (h : (ps.map (·.name)).Nodup) (i j : Nat) (p q : Param)
    (hij : i < j) (hp : ps[i]? = some p) (hq : ps[j]? = some q) : q.name ≠ p.name := by
  intro he
  obtain ⟨hj, _⟩ := List.getElem?_eq_some_iff.mp hq
  refine List.nodup_iff_getElem?_ne_getElem?.mp h i j hij (by simpa using hj) ?_
  rw [List.getElem?_map, List.getElem?_map, hp, hq, Option.map_some, Option.map_some, he]

/-- Calls only add to what they are lent. -/
theorem lending_callAt (hparams : ∀ f ∈ m.funcs, ∀ p ∈ f.params, ∀ t, p.ty ≠ .tape t)
    (hadds : ∀ g ∈ m.funcs, (∀ i, lends g.name g.params.length i = false) ∨ g.adds lends = true)
    (limit : Nat) : ∀ depth, Lending lends A ⟨m.funcs, m.callAt limit depth⟩ := by
  have hshared : ∀ g ∈ m.funcs, ∀ i p, lends g.name g.params.length i = true →
      g.params[i]? = some p → p.ty.isShared = true := by
    intro g hg i p hL hp
    rcases hadds g hg with hnone | hadd
    · rw [hnone i] at hL
      cases hL
    · exact (Func.of_adds hadd).1 i p hL hp
  have hpaired : ∀ {g : Func} {P : Pairing} {s : Store K} {bs bs' : List (Bound K)},
      (∀ i, lends g.name g.params.length i = false) →
      Along (A.bounds (lends g.name g.params.length) P s) 0 bs bs' →
      List.Forall₂ (fun b b' => P.bound b b' ∧ ∀ id, b ≠ .tape id) bs bs' := by
    intro g P s bs bs' hnone hb
    refine hb.forall₂ fun i b b' h => h.resolve_right ?_
    rintro ⟨hL, _⟩
    rw [hnone i] at hL
    cases hL
  -- by induction on the depth: a body calls in a context that lends already
  have hcall : ∀ depth {total : Prop} {P : Pairing} {s s' : Store K} {g : Func}
      {bs bs' : List (Bound K)}, g ∈ m.funcs → Drift A P s s' →
      Along (A.bounds (lends g.name g.params.length) P s) 0 bs bs' →
      Drifts total A P (m.callAt limit depth g bs) s (m.callAt limit depth g bs') s' SameResult := by
    intro depth
    induction depth with
    | zero =>
      intro total P s s' g bs bs' hg hd hb
      rcases hadds g hg with hnone | hadd
      · exact drifts_callAt_of_paired hparams limit 0 hg hd (hpaired hnone hb)
      · obtain ⟨_, _, body, hbody, _⟩ := Func.of_adds hadd
        rw [callAt, callAt, hbody]
        exact .stop
    | succ depth ih =>
      intro total P s s' g bs bs' hg hd hb
      rcases hadds g hg with hnone | hadd
      · exact drifts_callAt_of_paired hparams limit (depth + 1) hg hd (hpaired hnone hb)
      obtain ⟨_, hdistinct, body, hbody, hcode⟩ := Func.of_adds hadd
      have hctx : Lending lends A (K := K) ⟨m.funcs, m.callAt limit depth⟩ :=
        ⟨steady_callAt (fun _ => rfl) m limit depth,
          framed_callAt hparams (Writable.closed_all m.funcs) limit depth trivial, hshared, ih⟩
      refine drifts_callAt_body (Q := Eq) (.refl P) hbody hd hb
        (fun i j p q hij hp hq _ => ne_of_nodup hdistinct i j p q hij hp hq)
        (fun hO hP h => (Eval.drifts_execBody hctx limit h ?_).narrow hP) ?_
      · refine addsAll_mono (fun x hx => ?_) hcode
        obtain ⟨i, p, hp, hL, hname⟩ := hO x hx
        exact List.any_eq_true.mpr ⟨(p, i), List.mk_mem_zipIdx_iff_getElem?.mpr hp, by simp [hL, hname]⟩
      · rintro P' flow _ t t' ht rfl
        exact drifts_returned ht g flow
  exact fun depth => ⟨steady_callAt (fun _ => rfl) m limit depth,
    framed_callAt hparams (Writable.closed_all m.funcs) limit depth trivial, hshared, hcall depth⟩

end Machine

end Fluxion
