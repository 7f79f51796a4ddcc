import Fluxion.Proofs.Runs.Expressions

/-!
Executing code keeps what a guard names, and so does a call, whatever the functions are: a function
reaches only storage that it is given, and of that it writes only what its code may write.
-/

namespace Fluxion

variable {K : Type}

theorem Fits.growing {D : String → Prop} {G : Guard} {env : Env} {s : Store K}
    (h : Fits D G env s) : Fits D G.growing env s :=
  ⟨⟨h.guard.1, h.guard.2⟩, h.inside, fun y b hb hD => by
    have := h.apart y b hb hD
    cases b <;> exact this, h.tapes⟩

theorem Guard.rule_growing (G : Guard) (W : Writable) (funcs : Program) (D : String → Prop) :
    (G.rule W funcs D).Implies (G.growing.rule W funcs D) where
  part e h := by
    cases e with
    | call f args => exact h
    | _ => trivial
  target _ h := h
  declares _ h := ⟨h.1, fun _ _ => trivial, h.2.2⟩
  returns h := h

/-- A variable that is declared shadows the others. -/
theorem Fits.cons {D : String → Prop} {G : Guard} {env : Env} {s s' : Store K}
    (h : Fits D G env s) (hk : Kept G s s') {x : String} {b : Binding} (hin : b.In s')
    (hapart : ¬ D x → b.Apart G) (htape : G.pops → ∀ id, b = .tape id → ¬ G.tapes id) :
    Fits D G ((x, b) :: env) s' := by
  have h' := h.kept hk
  have hcases : ∀ y b', ((x, b) :: env).lookup y = some b' →
      (y = x ∧ b' = b) ∨ env.lookup y = some b' := by
    intro y b' hb'
    rw [List.lookup_cons] at hb'
    split at hb'
    · rename_i he
      exact .inl ⟨eq_of_beq he, (Option.some.inj hb').symm⟩
    · exact .inr hb'
  refine ⟨h'.guard, fun y b' hb' => ?_, fun y b' hb' hD => ?_, fun hp y id hid => ?_⟩
  · rcases hcases y b' hb' with ⟨_, rfl⟩ | hold
    · exact hin
    · exact h'.inside y b' hold
  · rcases hcases y b' hb' with ⟨rfl, rfl⟩ | hold
    · exact hapart hD
    · exact h'.apart y b' hold hD
  · rcases hcases y _ hid with ⟨_, hb⟩ | hold
    · exact htape hp id hb.symm
    · exact h'.tapes hp y id hold

namespace Eval

/-- The flow is a return only if the code may return. -/
def Flow.Allowed (G : Guard) (flow : Flow K) : Prop := ∀ v, flow = .ret v → G.returns

theorem Flow.allowed_next {G : Guard} : (Flow.next : Flow K).Allowed G := fun _ h => by cases h

/-- How code under guard leaves its variables: they fit, fixed names stand for what they stood for,
and control goes on unless the code may return. -/
structure Leaves (D : String → Prop) (G : Guard) (env : Env) (r : Env × Flow K) (s : Store K) :
    Prop where
  fits : Fits D G r.1 s
  fixed : ∀ x, G.fixed x → r.1.lookup x = env.lookup x
  flow : r.2.Allowed G

variable {W : Writable} {G : Guard} {ctx : Context K} {D : String → Prop} {env : Env} {s : Store K}

theorem Leaves.same {flow : Flow K} (h : Fits D G env s) (hflow : flow.Allowed G) :
    Leaves D G env (env, flow) s :=
  ⟨h, fun _ _ => rfl, hflow⟩

theorem Safe.rounds {test : Exec K Bool} {body : Exec K (Flow K)} {step : Exec K Unit}
    (htest : ∀ s', Kept G s s' → Safe G test s' fun _ _ => True)
    (hbody : ∀ s', Kept G s s' → Safe G body s' fun flow _ => flow.Allowed G)
    (hstep : ∀ s', Kept G s s' → Safe G step s' fun _ _ => True) (n : Nat) {s' : Store K}
    (hk : Kept G s s') : Safe G (rounds test body step n) s' fun flow _ => flow.Allowed G := by
  induction n generalizing s' with
  | zero => exact ⟨.refl G s', fun x hx => by cases hx⟩
  | succ n ih =>
    unfold Eval.rounds
    refine (htest s' hk).bind fun b s₁ hk₁ _ => ?_
    have hk₁' := hk.trans hk₁
    split
    · refine (hbody s₁ hk₁').bind fun flow s₂ hk₂ hflow => ?_
      have hk₂' := hk₁'.trans hk₂
      cases flow with
      | ret v => exact Safe.pure hflow
      | next =>
        exact (hstep s₂ hk₂').bind fun _ s₃ hk₃ _ => ih (hk₂'.trans hk₃)
    · exact Safe.pure Flow.allowed_next

variable [Scalar K]

section

variable (hf : Framed W G ctx) (h : Fits D G env s)

include hf h

theorem safe_eval? {e : Expr} (hr : (G.rule W ctx.funcs D).Expr e) :
    Safe G (eval? ctx env e) s fun _ _ => True :=
  (safe_operand? hf h hr).bind fun o _ _ _ => (safe_value? e o).imp fun _ _ _ _ => trivial

theorem safe_eval {e : Expr} (hr : (G.rule W ctx.funcs D).Expr e) :
    Safe G (eval ctx env e) s fun _ _ => True :=
  (safe_operand? hf h hr).bind fun o _ _ _ => (safe_value e o).imp fun _ _ _ _ => trivial

theorem safe_evalInt {e : Expr} (hr : (G.rule W ctx.funcs D).Expr e) :
    Safe G (evalInt ctx env e) s fun _ _ => True :=
  (safe_operand? hf h hr).bind fun o _ _ _ => (safe_int e o).imp fun _ _ _ _ => trivial

theorem safe_evalBool {e : Expr} (hr : (G.rule W ctx.funcs D).Expr e) :
    Safe G (evalBool ctx env e) s fun _ _ => True :=
  (safe_operand? hf h hr).bind fun o _ _ _ => (safe_bool e o).imp fun _ _ _ _ => trivial

theorem safe_slotOf {place : Place} (hr : (G.rule W ctx.funcs D).Place place) :
    Safe G (slotOf ctx env place) s fun slot s' =>
      slot.In s' ∧ (¬ D place.name → ¬ G.slots slot) := by
  cases place with
  | var x =>
    unfold slotOf
    refine (safe_lookup x).bind fun b s' _ hb => ?_
    obtain ⟨hb, rfl⟩ := hb
    cases b with
    | scalar slot => exact Safe.pure ⟨h.inside x _ hb, h.apart x _ hb⟩
    | array id => exact Safe.mistyped
    | tape id => exact Safe.mistyped
  | index x i =>
    unfold slotOf
    refine (safe_arrayOf x).bind fun id s' _ hid => ?_
    obtain ⟨hid, rfl⟩ := hid
    refine (safe_evalInt hf h (e := i) hr).bind fun index s₁ hk₁ _ => ?_
    refine (safe_elementSlot x id index).imp fun slot s₂ _ hslot => ?_
    obtain ⟨⟨k, rfl⟩, rfl⟩ := hslot
    exact ⟨(h.kept hk₁).inside x _ hid, fun hD => h.apart x _ hid hD k⟩

theorem safe_execLocal {d : Local} (hr : (G.rule W ctx.funcs D).Local d) :
    Safe G (execLocal ctx env d) s fun env' s' =>
      Fits D G env' s' ∧ ∀ x, G.fixed x → env'.lookup x = env.lookup x := by
  obtain ⟨⟨hfixed, hgrow, halias⟩, hinit⟩ := hr
  have hlookup : ∀ b x, G.fixed x → List.lookup x ((d.name, b) :: env) = env.lookup x :=
    fun b x hx => lookup_cons_of_ne fun he => hfixed (he ▸ hx)
  unfold execLocal
  split
  · rename_i elem hty
    have hk : Kept G s { s with tapes := s.tapes.push ⟨elem, #[]⟩ } :=
      Kept.newTape h.guard (hgrow elem hty) _
    have hnew : Safe G (Exec.newTape ⟨elem, #[]⟩) s fun id s' =>
        id = s.tapes.size ∧ s' = { s with tapes := s.tapes.push ⟨elem, #[]⟩ } :=
      ⟨hk, rfl, rfl⟩
    refine hnew.bind fun id s' _ hid => ?_
    obtain ⟨rfl, rfl⟩ := hid
    refine Safe.pure ⟨h.cons hk (by simp [Binding.In]) (fun _ => trivial) ?_, hlookup _⟩
    rintro _ id ⟨⟩ hguard
    exact absurd (h.guard.tapes _ hguard) (Nat.lt_irrefl _)
  · rename_i elem len hty
    split
    · rename_i source hsource
      refine (safe_arrayOf source).bind fun id s' _ hid => ?_
      obtain ⟨hid, rfl⟩ := hid
      refine Safe.pure ⟨h.cons (.refl G _) (h.inside source _ hid) (fun hD => ?_) (by simp),
        hlookup _⟩
      exact h.apart source _ hid fun hDs => hD (halias source (by simp [hty, Ty.isArray]) hsource hDs)
    · exact Safe.mistyped
  · have hcell : ∀ (v : Value K) s₁, Kept G s s₁ → Safe G (do
        let slot ← Exec.newCell v
        return (d.name, .scalar slot) :: env) s₁ fun env' s' =>
          Fits D G env' s' ∧ ∀ x, G.fixed x → env'.lookup x = env.lookup x := by
      intro v s₁ hk₁
      have h₁ := h.kept hk₁
      have hk : Kept G s₁ { s₁ with cells := s₁.cells.push v } := Kept.newCell h₁.guard v
      have hnew : Safe G (Exec.newCell v) s₁ fun slot s' =>
          slot = .cell s₁.cells.size ∧ s' = { s₁ with cells := s₁.cells.push v } := ⟨hk, rfl, rfl⟩
      refine hnew.bind fun slot s₂ _ hslot => ?_
      obtain ⟨rfl, rfl⟩ := hslot
      refine Safe.pure ⟨h₁.cons hk (by simp [Binding.In, Slot.In]) (fun _ hguard => ?_) (by simp),
        hlookup _⟩
      exact absurd (h₁.guard.slots _ hguard) (Nat.lt_irrefl _)
    dsimp only
    split
    · rename_i e he
      refine (safe_eval hf h (hinit e he)).bind fun v s₁ hk₁ _ => ?_
      exact hcell _ s₁ hk₁
    · exact (Safe.require (Q := fun _ _ => True) (by simp) fun _ _ => trivial).bind
        fun v s₁ hk₁ _ => hcell v s₁ hk₁

theorem safe_execArray {x : String} {elem : Ty} {len : Expr}
    (hr : (G.rule W ctx.funcs D).Array x elem len) :
    Safe G (execArray ctx env x elem len) s fun env' s' =>
      Fits D G env' s' ∧ ∀ y, G.fixed y → env'.lookup y = env.lookup y := by
  unfold execArray
  refine (safe_evalInt hf h hr.2).bind fun n s₁ hk₁ _ => ?_
  have h₁ := h.kept hk₁
  refine (Safe.require (Q := fun _ s' => s' = s₁) (by simp) fun _ _ => rfl).bind
    fun zero s₂ _ hs₂ => ?_
  subst hs₂
  split
  · exact Safe.fail (by simp)
  generalize hb : (⟨elem, Array.replicate n.toInt.toNat zero⟩ : Buffer K) = b
  have hk : Kept G s₂ { s₂ with arrays := s₂.arrays.push b } := Kept.newArray h₁.guard b
  have hnew : Safe G (Exec.newArray b) s₂ fun id s' =>
      id = s₂.arrays.size ∧ s' = { s₂ with arrays := s₂.arrays.push b } := ⟨hk, rfl, rfl⟩
  refine hnew.bind fun id s₃ _ hid => ?_
  obtain ⟨rfl, rfl⟩ := hid
  refine Safe.pure ⟨h₁.cons hk (by simp [Binding.In]) (fun _ i hguard => ?_) (by simp),
    fun y hy => lookup_cons_of_ne fun he => hr.1.1 (he ▸ hy)⟩
  exact absurd (h₁.guard.slots _ hguard) (Nat.lt_irrefl _)

theorem safe_execAssignment {a : Assignment} (hr : (G.rule W ctx.funcs D).Assignment a) :
    Safe G (execAssignment ctx env a) s fun _ _ => True := by
  obtain ⟨htarget, hplace, hvalue⟩ := hr
  unfold execAssignment
  refine (safe_slotOf hf h hplace).bind fun slot s₁ hk₁ hslot => ?_
  have hfree : ¬ G.slots slot := hslot.2 htarget
  have hwrite : ∀ (v : Value K) s', Safe G (Exec.write slot v) s' fun _ _ => True :=
    fun v s' => ⟨Kept.write hfree v, trivial⟩
  refine (safe_eval hf (h.kept hk₁) hvalue).bind fun v s₂ _ _ => ?_
  split
  · exact hwrite v s₂
  · rename_i op _
    refine Safe.get_bind ?_
    refine (safe_lift (apply_ne_emptyTape op _ v)).bind fun w s₃ _ _ => hwrite w s₃

theorem safe_execInit {init : Option LoopInit}
    (hr : ∀ i, init = some i → (G.rule W ctx.funcs D).Init i) :
    Safe G (execInit ctx env init) s fun env' s' => Fits D G env' s' := by
  rcases init with _ | (d | a)
  · exact Safe.pure h
  · exact (safe_execLocal hf h (hr _ rfl)).imp fun _ _ _ h' => h'.1
  · exact (safe_execAssignment hf h (hr _ rfl)).bind fun _ _ hk _ => Safe.pure (h.kept hk)

theorem safe_execTest {test : Option Expr}
    (hr : ∀ e, test = some e → (G.rule W ctx.funcs D).Expr e) :
    Safe G (execTest ctx env test) s fun _ _ => True := by
  cases test with
  | none => exact Safe.pure trivial
  | some e => exact safe_evalBool hf h (hr e rfl)

theorem safe_execStep {step : Option Assignment}
    (hr : ∀ a, step = some a → (G.rule W ctx.funcs D).Assignment a) :
    Safe G (execStep ctx env step) s fun _ _ => True := by
  cases step with
  | none => exact Safe.pure trivial
  | some a => exact safe_execAssignment hf h (hr a rfl)

end

mutual

theorem safe_execStmt (limit : Nat) : ∀ {G : Guard} {st : Stmt} {env : Env} {s : Store K},
    Framed W G ctx → Fits D G env s → (G.rule W ctx.funcs D).Stmt st →
    Safe G (execStmt ctx limit env st) s fun r s' => Leaves D G env r s'
  | G, .decl d, env, s, hf, h, hr => by
    unfold execStmt
    exact (safe_execLocal hf h hr).bind fun _ _ _ h' => Safe.pure ⟨h'.1, h'.2, Flow.allowed_next⟩
  | G, .arrayDecl x elem len, env, s, hf, h, hr => by
    unfold execStmt
    exact (safe_execArray hf h hr).bind fun _ _ _ h' => Safe.pure ⟨h'.1, h'.2, Flow.allowed_next⟩
  | G, .assign a, env, s, hf, h, hr => by
    unfold execStmt
    exact (safe_execAssignment hf h hr).bind fun _ _ hk _ =>
      Safe.pure (.same (h.kept hk) Flow.allowed_next)
  | G, .cond test yes no, env, s, hf, h, hr => by
    have hbody : ∀ body s', Kept G s s' → (G.rule W ctx.funcs D).Body body →
        (∀ {s'}, Fits D G.growing env s' → (G.growing.rule W ctx.funcs D).Body body →
          Safe G.growing (execBody ctx limit env body) s' fun flow _ => flow.Allowed G.growing) →
        Safe G (Exec.inScope (execBody ctx limit env body)) s' fun flow _ => flow.Allowed G :=
      fun body s' hk hb hrun => Safe.inScope (h.kept hk).guard
        (hrun (h.kept hk).growing ((Guard.rule_growing G W ctx.funcs D).body hb))
    unfold execStmt
    refine (safe_evalBool hf h hr.1).bind fun b s₁ hk₁ _ => ?_
    split
    · exact (hbody yes s₁ hk₁ hr.2.1 (safe_execBody limit hf.growing)).bind
        fun _ _ hk hflow => Safe.pure (.same ((h.kept hk₁).kept hk) hflow)
    · exact (hbody no s₁ hk₁ hr.2.2 (safe_execBody limit hf.growing)).bind
        fun _ _ hk hflow => Safe.pure (.same ((h.kept hk₁).kept hk) hflow)
  | G, .for_ init test step body, env, s, hf, h, hr => by
    have himp := Guard.rule_growing G W ctx.funcs D
    have hloop : Safe G.growing (do
        let inner ← execInit ctx env init
        rounds (execTest ctx inner test) (Exec.inScope (execBody ctx limit inner body))
          (execStep ctx inner step) limit) s fun flow _ => flow.Allowed G.growing := by
      refine (safe_execInit hf.growing h.growing fun i hi => himp.init (hr.1 i hi)).bind
        fun inner s₁ _ hin => ?_
      refine Safe.rounds (fun s' hk => ?_) (fun s' hk => ?_) (fun s' hk => ?_) limit (.refl _ s₁)
      · exact safe_execTest hf.growing (hin.kept hk) fun e he => himp.expr (hr.2.1 e he)
      · exact Safe.inScope (hin.kept hk).guard
          (safe_execBody limit hf.growing.growing (hin.kept hk).growing
            ((Guard.rule_growing G.growing W ctx.funcs D).body (himp.body hr.2.2.2)))
      · exact safe_execStep hf.growing (hin.kept hk) fun a ha => himp.assignment (hr.2.2.1 a ha)
    unfold execStmt
    exact (Safe.inScope h.guard hloop).bind fun _ _ hk hflow =>
      Safe.pure (.same (h.kept hk) hflow)
  | G, .while_ test body, env, s, hf, h, hr => by
    have himp := Guard.rule_growing G W ctx.funcs D
    unfold execStmt
    have hloop : Safe G (rounds (evalBool ctx env test)
        (Exec.inScope (execBody ctx limit env body)) (return ()) limit) s
        fun flow _ => flow.Allowed G := by
      refine Safe.rounds (fun s' hk => ?_) (fun s' hk => ?_) (fun s' hk => ?_) limit (.refl _ s)
      · exact safe_evalBool hf (h.kept hk) hr.1
      · exact Safe.inScope (h.kept hk).guard
          (safe_execBody limit hf.growing (h.kept hk).growing (himp.body hr.2))
      · exact Safe.pure trivial
    exact hloop.bind fun _ _ hk hflow => Safe.pure (.same (h.kept hk) hflow)
  | G, .ret none, env, s, hf, h, hr => by
    unfold execStmt
    exact Safe.pure (.same h fun _ _ => hr.1)
  | G, .ret (some e), env, s, hf, h, hr => by
    unfold execStmt
    exact (safe_eval? hf h (hr.2 e rfl)).bind fun _ _ hk _ =>
      Safe.pure (.same (h.kept hk) fun _ _ => hr.1)
  | G, .expr e, env, s, hf, h, hr => by
    unfold execStmt
    exact (safe_eval? hf h hr).bind fun _ _ hk _ =>
      Safe.pure (.same (h.kept hk) Flow.allowed_next)
  | G, .block body, env, s, hf, h, hr => by
    have himp := Guard.rule_growing G W ctx.funcs D
    unfold execStmt
    exact (Safe.inScope h.guard (safe_execBody limit hf.growing h.growing (himp.body hr))).bind
      fun _ _ hk hflow => Safe.pure (.same (h.kept hk) hflow)

theorem safe_execBody (limit : Nat) : ∀ {G : Guard} {body : List Stmt} {env : Env} {s : Store K},
    Framed W G ctx → Fits D G env s → (G.rule W ctx.funcs D).Body body →
    Safe G (execBody ctx limit env body) s fun flow _ => flow.Allowed G
  | G, [], env, s, hf, h, hr => by
    unfold execBody
    exact Safe.pure Flow.allowed_next
  | G, st :: rest, env, s, hf, h, hr => by
    unfold execBody
    refine (safe_execStmt limit hf h hr.1).bind fun r s₁ hk₁ h₁ => ?_
    rcases r with ⟨env', _ | v⟩
    · exact safe_execBody limit hf h₁.fits hr.2
    · exact Safe.pure h₁.flow

end

end Eval

end Fluxion
