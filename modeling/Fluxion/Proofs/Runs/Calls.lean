import Fluxion.Proofs.Runs.Statements

/-!
Calls keep what a guard names, by induction on how many more calls may be opened.
-/

namespace Fluxion

variable {K : Type}

/-- The names of parameters that the function may not write. -/
def Func.Keeps (W : Writable) (f : Func) (x : String) : Prop :=
  ∃ i p, f.params[i]? = some p ∧ p.name = x ∧ W.Spares f i

/-- No function writes a parameter that it may not write, or passes it on to be written. -/
def Writable.Closed (W : Writable) (funcs : Program) : Prop :=
  ∀ f ∈ funcs, ∀ body, f.body = some body →
    ∀ G : Guard, G.pops → G.grows → G.returns → (∀ x, ¬ G.fixed x) →
      (G.rule W funcs (f.Keeps W)).Body body

/-- If every parameter may be written, nothing is asked of the code. -/
theorem Writable.closed_all (funcs : Program) : Writable.Closed (fun _ _ => True) funcs := by
  intro f _ body _ G hpops hgrows hreturns hfixed
  have hnone : ∀ x, ¬ f.Keeps (fun _ _ => True) x := by
    rintro x ⟨i, p, _, _, hw, _⟩
    exact hw trivial
  refine Rule.body_of_mem hreturns (fun e _ => ?_) (fun _ _ => hnone _) fun _ _ =>
    ⟨hfixed _, fun _ _ => hgrows, fun x _ _ hx => absurd hx (hnone x)⟩
  cases e with
  | call g args =>
    simp only [Guard.rule]
    split
    · exact hpops
    · exact hpops
    · trivial
    · intro _ _ _ _ _ _ _ _ _
      exact hnone _
  | _ => trivial

namespace Machine

variable {W : Writable} {G : Guard} {s : Store K} [Scalar K]

theorem safe_nativeArg (f : Func) (b : Bound K) : Safe G (nativeArg f b) s fun _ _ => True := by
  cases b with
  | value v => exact Safe.require (by simp) fun _ _ => trivial
  | slot p => exact Safe.get_bind (Safe.require (by simp) fun _ _ => trivial)
  | array id => exact Safe.mistyped
  | tape id => exact Safe.mistyped

theorem safe_callNative (m : Machine K) (f : Func) (bound : List (Bound K)) :
    Safe G (m.callNative f bound) s fun _ _ => True := by
  have hargs : ∀ (bound : List (Bound K)) (s : Store K),
      Safe G (bound.mapM (nativeArg f)) s fun _ _ => True := by
    intro bound
    induction bound with
    | nil => exact fun s => Safe.pure trivial
    | cons b bs ih =>
      intro s
      rw [List.mapM_cons]
      exact (safe_nativeArg f b).bind fun _ s₁ _ _ => (ih s₁).bind fun _ _ _ _ => Safe.pure trivial
  unfold callNative
  refine (Safe.require (Q := fun _ _ => True) (by simp) fun _ _ => trivial).bind
    fun native s₁ _ _ => ?_
  refine (hargs bound s₁).bind fun args s₂ _ _ => ?_
  split
  · exact Safe.pure trivial
  · exact ⟨.refl G s₂, fun x hx => by cases hx⟩

/-- The variables that parameters become fit, when what is bound to a name outside of `D` is not
under guard. -/
theorem safe_enterAll {D : String → Prop} {ps : List Param} {bs : List (Bound K)} {env : Env}
    (h : Fits D G env s) (hb : ∀ (i : Nat) (p : Param) (b : Bound K), ps[i]? = some p → bs[i]? = some b →
      b.In s ∧ (¬ D p.name → b.Apart G)) :
    Safe G (enterAll env ps bs) s fun env' s' => Fits D G env' s' := by
  induction ps generalizing bs env s with
  | nil =>
    unfold enterAll
    exact Safe.pure h
  | cons p ps ih =>
    cases bs with
    | nil =>
      unfold enterAll
      exact Safe.pure h
    | cons b bs =>
      unfold enterAll
      obtain ⟨hin, hapart⟩ := hb 0 p b rfl rfl
      have henter : Safe G (enter p b) s fun binding s' => Fits D G ((p.name, binding) :: env) s' := by
        cases b with
        | value v =>
          have hk : Kept G s { s with cells := s.cells.push (v.coerce p.ty) } :=
            Kept.newCell h.guard _
          have hnew : Safe G (Exec.newCell (v.coerce p.ty)) s fun slot s' =>
              slot = .cell s.cells.size ∧
                s' = { s with cells := s.cells.push (v.coerce p.ty) } := ⟨hk, rfl, rfl⟩
          refine hnew.bind fun slot s₁ _ hslot => ?_
          obtain ⟨rfl, rfl⟩ := hslot
          refine Safe.pure (h.cons hk (by simp [Binding.In, Slot.In]) (fun _ hg => ?_) (by simp))
          exact absurd (h.guard.slots _ hg) (Nat.lt_irrefl _)
        | slot place => exact Safe.pure (h.cons (.refl G s) hin hapart (by simp))
        | array id => exact Safe.pure (h.cons (.refl G s) hin hapart (by simp))
        | tape id => exact hin.elim
      refine henter.bind fun binding s₁ hk₁ h₁ => ih h₁ fun i q c hq hc => ?_
      have := hb (i + 1) q c hq hc
      exact ⟨hk₁.bound_in this.1, this.2⟩

theorem safe_returned (f : Func) (flow : Eval.Flow K) :
    Safe G (returned f flow) s fun _ _ => True := by
  unfold returned
  split
  · exact Safe.pure trivial
  · split
    · exact Safe.pure trivial
    · exact Safe.fail (by simp)

/-- A call keeps what is under guard, however deep calls nest. -/
theorem framed_callAt {m : Machine K} (hparams : ∀ f ∈ m.funcs, ∀ p ∈ f.params, ∀ t, p.ty ≠ .tape t)
    (hW : W.Closed m.funcs) (limit : Nat) :
    ∀ (depth : Nat) {G : Guard}, G.pops → Framed W G ⟨m.funcs, m.callAt limit depth⟩
  | 0, G, hpops => by
    refine ⟨hparams, fun f hf bound s hG hb => ?_⟩
    show Safe G (m.callAt limit 0 f bound) s _
    unfold callAt
    split
    · exact (safe_callNative m f bound).bind fun _ _ _ _ => Safe.pure trivial
    · exact Safe.fail (by simp)
  | depth + 1, G, hpops => by
    refine ⟨hparams, fun f hf bound s hG hb => ?_⟩
    show Safe G (m.callAt limit (depth + 1) f bound) s _
    unfold callAt
    split
    · exact (safe_callNative m f bound).bind fun _ _ _ _ => Safe.pure trivial
    · rename_i body hbody
      have hempty : Fits (f.Keeps W) G.entered [] s :=
        ⟨⟨hG.1, hG.2⟩, by simp, by simp, by simp⟩
      have henter : Safe G.entered (enterAll [] f.params bound) s fun env s' =>
          Fits (f.Keeps W) G.entered env s' := by
        refine safe_enterAll hempty fun i p b hp hbi => ⟨(hb i b hbi).1, fun hkeep => ?_⟩
        have := (hb i b hbi).2 fun hspare => hkeep ⟨i, p, hp, rfl, hspare⟩
        cases b <;> exact this
      have hrun : Safe G.entered (do
          let env ← enterAll [] f.params bound
          Exec.inScope (Eval.execBody ⟨m.funcs, m.callAt limit depth⟩ limit env body)) s
          fun _ _ => True := by
        refine henter.bind fun env s₁ _ h₁ => ?_
        have hctx := framed_callAt hparams hW limit depth (G := G.entered.growing) hpops
        have hcode := hW f hf body hbody G.entered.growing hpops trivial trivial fun _ => not_false
        exact Safe.inScope (Q := fun _ => True) h₁.guard
          ((Eval.safe_execBody limit hctx h₁.growing hcode).imp fun _ _ _ _ => trivial)
      exact (Safe.inScope hG (hrun.covers G.entered_covers)).bind fun flow _ _ _ =>
        safe_returned f flow

end Machine

end Fluxion
