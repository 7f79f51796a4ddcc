import Fluxion.Proofs.Typing.Execution

/-!
Calls of functions that passed the checker take what fits their parameters and give what their
result types promise, however deep they nest.
-/

namespace Fluxion

variable {K : Type}

theorem Intrinsic.eq_centralDifferenceName {name : String}
    (h : ofName? name = some .centralDifference) : name = centralDifferenceName := by
  grind [ofName?]

/-- What is asked of a program for its runs to keep to the types: overloads are not told apart by
lengths, native functions give floats and numerical derivatives are taken along floats. In a strict
run types are of scalars and storage of scalars, every expression statement has a value, and native
functions take as many floats as their implementations need. -/
structure Machine.Regular (strict : Prop) (m : Machine K) : Prop where
  checked : Typing.check m.funcs = []
  lengths : m.funcs.ignoresLengths = true
  natives : ∀ f ∈ m.funcs, f.body = none → f.ret = .float
  code : ∀ f ∈ m.funcs, ∀ body, f.body = some body → (differenceRule strict m.funcs).Body body
  storage : strict → ∀ f ∈ m.funcs, ∀ p ∈ f.params, p.ty.isStorage = true
  results : strict → ∀ f ∈ m.funcs, f.ret.isScalar = true ∨ f.ret = .void
  values : strict → ∀ f ∈ m.funcs, ∀ body, f.body = some body → bodyHasValues f.scope body = true
  bound : strict → ∀ f ∈ m.funcs, f.body = none → (∀ p ∈ f.params, p.ty = .float) ∧
    ∃ native, m.native? f = some native ∧
      ∀ args, args.length = f.params.length → (native args).isSome = true

namespace Machine

variable {strict : Prop} {s : Store K}

theorem Regular.params {m : Machine K} (hm : m.Regular strict) {f : Func} (hf : f ∈ m.funcs) :
    ∀ p ∈ f.params, p.ty ≠ .void ∧ ∀ t, p.ty ≠ .tape t :=
  (Typing.of_checkFunc (Typing.checkFunc_of_check hm.checked hf)).1

variable [Scalar K]

theorem sound_nativeArg {f : Func} {p : Param} {b : Bound K} (hs : s.Typed)
    (hb : b.HasTy s p.ty) (hp : strict → p.ty = .float) :
    Sound strict (nativeArg f b) s fun _ s' => s' = s := by
  cases b with
  | value v =>
    refine Sound.require hs (fun hnone hst => ?_) fun _ _ => rfl
    rw [hp hst] at hb
    cases v with
    | float x => cases hnone
    | int n => cases hnone
    | bool b => cases hb
  | slot place =>
    refine Sound.get_bind (Sound.require hs (fun hnone hst => ?_) fun _ _ => rfl)
    rw [hp hst] at hb
    have hfloat := Store.ty_read hb
    cases hread : s.read place with
    | float x =>
      rw [hread] at hnone
      cases hnone
    | int n =>
      rw [hread] at hnone
      cases hnone
    | bool b =>
      rw [hread] at hfloat
      cases hfloat
  | array id =>
    obtain ⟨elem, len, hty, _⟩ := hb
    refine Sound.fail hs fun hst => ?_
    rw [hp hst] at hty
    cases hty
  | tape id => exact hb.elim

theorem sound_nativeArgs {f : Func} {ps : List Param} {bs : List (Bound K)} (hs : s.Typed)
    (hb : List.Forall₂ (fun p b => b.HasTy s p.ty) ps bs)
    (hps : strict → ∀ p ∈ ps, p.ty = .float) :
    Sound strict (bs.mapM (nativeArg f)) s fun args s' => s' = s ∧ args.length = ps.length := by
  induction hb with
  | nil => exact Sound.pure hs ⟨rfl, rfl⟩
  | @cons p b ps bs hhead htail ih =>
    rw [List.mapM_cons]
    refine (sound_nativeArg hs hhead fun hst => hps hst p List.mem_cons_self).bind
      fun x s₁ _ hs₁ => ?_
    subst hs₁
    refine (ih fun hst q hq => hps hst q (List.mem_cons_of_mem _ hq)).bind fun xs s₂ _ hxs => ?_
    obtain ⟨rfl, hlength⟩ := hxs
    exact Sound.pure hs ⟨rfl, by simp [hlength]⟩

theorem sound_callNative {m : Machine K} (hm : m.Regular strict) {f : Func} (hf : f ∈ m.funcs)
    (hbody : f.body = none) {bound : List (Bound K)} (hs : s.Typed)
    (hb : List.Forall₂ (fun p b => b.HasTy s p.ty) f.params bound) :
    Sound strict (m.callNative f bound) s fun v _ => v.ty = .float := by
  unfold callNative
  have hnative : Sound strict (Exec.require (.missingNative f.name) (m.native? f)) s
      fun native s' => m.native? f = some native ∧ s' = s := by
    refine Sound.require hs (fun hnone hst => ?_) fun native hn => ⟨hn, rfl⟩
    obtain ⟨_, native, hn, _⟩ := hm.bound hst f hf hbody
    rw [hn] at hnone
    cases hnone
  refine hnative.bind fun native s₁ _ hn => ?_
  obtain ⟨hn, rfl⟩ := hn
  refine (sound_nativeArgs hs hb fun hst => (hm.bound hst f hf hbody).1).bind
    fun args s₂ _ hargs => ?_
  obtain ⟨rfl, hlength⟩ := hargs
  split
  · exact Sound.pure hs rfl
  · rename_i hnone
    refine ⟨.refl hs, fun hst => ?_⟩
    obtain ⟨_, native', hn', hsome⟩ := hm.bound hst f hf hbody
    obtain rfl : native = native' := by simpa [hn] using hn'
    have := hsome args hlength
    rw [hnone] at this
    cases this

theorem sound_enter {types : TyEnv} {env : Env} (h : Realizes strict types env s) {p : Param}
    {b : Bound K} (hb : b.HasTy s p.ty) (hp : strict → p.ty.isStorage = true) :
    Sound strict (enter p b) s fun binding s' =>
      Realizes strict ((p.name, p.ty) :: types) ((p.name, binding) :: env) s' := by
  cases b with
  | value v =>
    have hnew : Sound strict (Exec.newCell (v.coerce p.ty)) s fun slot s' =>
        slot = .cell s.cells.size ∧ s' = { s with cells := s.cells.push (v.coerce p.ty) } :=
      ⟨Retains.newCell h.typed _, rfl, rfl⟩
    refine hnew.bind fun slot s₁ hr₁ hslot => ?_
    obtain ⟨rfl, rfl⟩ := hslot
    have hty : (v.coerce p.ty).ty = p.ty.value := hb
    refine Sound.pure hr₁.typed (h.cons hr₁ ?_ hp)
    simp [Binding.HasTy, Store.slotTy?, hty]
  | slot place => exact Sound.pure h.typed (h.cons (.refl h.typed) hb hp)
  | array id => exact Sound.pure h.typed (h.cons (.refl h.typed) hb hp)
  | tape id => exact hb.elim

theorem sound_enterAll {types : TyEnv} {env : Env} {ps : List Param} {bs : List (Bound K)}
    (h : Realizes strict types env s) (hb : List.Forall₂ (fun p b => b.HasTy s p.ty) ps bs)
    (hps : strict → ∀ p ∈ ps, p.ty.isStorage = true) :
    Sound strict (enterAll env ps bs) s fun env' s' =>
      Realizes strict ((ps.map fun p => (p.name, p.ty)).reverse ++ types) env' s' := by
  induction ps generalizing bs types env s with
  | nil =>
    unfold enterAll
    exact Sound.pure h.typed h
  | cons p ps ih =>
    cases hb with
    | @cons _ b _ bs hhead htail =>
      unfold enterAll
      refine (sound_enter h hhead fun hst => hps hst p List.mem_cons_self).bind
        fun binding s₁ hr₁ h₁ => ?_
      have htail' := htail.imp fun _ _ hb => hb.retained hr₁
      have hrest := ih h₁ htail' fun hst q hq => hps hst q (List.mem_cons_of_mem _ hq)
      simpa only [List.map_cons, List.reverse_cons, List.append_assoc, List.singleton_append]
        using hrest

theorem sound_returned {f : Func} {flow : Eval.Flow K} (hs : s.Typed)
    (hflow : flow.HasTy f.ret) :
    Sound strict (returned f flow) s fun v _ => Returned f.ret v := by
  unfold returned
  split
  · obtain ⟨found, htakes, hv⟩ := hflow
    exact Sound.pure hs (Value.ty_coerce_of_takes hv htakes)
  · split
    · exact Sound.pure hs (by assumption)
    · exact Sound.fail hs fun _ => rfl

/-- Calls are sound, however deep they nest. -/
theorem conforms_callAt {m : Machine K} (hm : m.Regular strict) (limit : Nat) :
    ∀ depth : Nat, Conforms strict ⟨m.funcs, m.callAt limit depth⟩
  | 0 => by
    refine ⟨hm.lengths, fun f hf => hm.params hf, hm.storage, hm.results, ?_⟩
    intro f hf bound s hs hb
    show Sound strict (m.callAt limit 0 f bound) s _
    unfold callAt
    split
    · rename_i hbody
      refine (sound_callNative hm hf hbody hs hb).bind fun v s₁ hr₁ hv => ?_
      exact Sound.pure hr₁.typed (by rw [hm.natives f hf hbody]; exact hv)
    · exact Sound.fail hs fun _ => rfl
  | depth + 1 => by
    refine ⟨hm.lengths, fun f hf => hm.params hf, hm.storage, hm.results, ?_⟩
    intro f hf bound s hs hb
    show Sound strict (m.callAt limit (depth + 1) f bound) s _
    unfold callAt
    split
    · rename_i hbody
      refine (sound_callNative hm hf hbody hs hb).bind fun v s₁ hr₁ hv => ?_
      exact Sound.pure hr₁.typed (by rw [hm.natives f hf hbody]; exact hv)
    · rename_i body hbody
      have hctx := conforms_callAt hm limit depth
      have hchecked := (Typing.of_checkFunc (Typing.checkFunc_of_check hm.checked hf)).2 body hbody
      have hempty : Realizes strict [] [] s := ⟨hs, by simp [TyEnv.Describes], by simp⟩
      have hrun : Sound strict (do
          let env ← enterAll [] f.params bound
          Exec.inScope (Eval.execBody ⟨m.funcs, m.callAt limit depth⟩ limit env body)) s
          fun flow _ => flow.HasTy f.ret := by
        refine (sound_enterAll hempty hb fun hst => hm.storage hst f hf).bind fun env s₁ _ h₁ => ?_
        rw [List.append_nil] at h₁
        exact Sound.inScope (Eval.sound_execBody hctx (fun hst => hm.results hst f hf) limit h₁
          hchecked (hm.code f hf body hbody) fun hst => hm.values hst f hf body hbody)
      exact (Sound.inScope hrun).bind fun flow s₁ hr₁ hflow => sound_returned hr₁.typed hflow

end Machine

end Fluxion
