import Fluxion.Eval.Statement
import Fluxion.Proofs.Paired.Evaluation

/-!
Statements executed side by side. Code is arranged from a body when it does the same in another
order of nesting: locals have new names, what follows a branch that returns stands in the branches,
and blocks are opened. Both runs then go the same way, although only the first leaves the scopes
that the second has no more.
-/

namespace Fluxion

variable {K : Type}

/-- The names and one more. -/
def withName (V : String → Prop) (x : String) : String → Prop := fun y => y = x ∨ V y

/-- The new names of the variables of `V`. -/
def newNames (r : Renaming) (V : String → Prop) : String → Prop := fun y => ∃ x, V x ∧ r.apply x = y

/-- A declaration of `x` may take the name `x'`: no other variable of `V` has it, and it is none of
the names `U` that are needed later on. -/
structure Renewal (N : String → String → Prop) (r : Renaming) (V U : String → Prop)
    (x x' : String) : Prop where
  name : N x x'
  apart : ∀ y, V y → y ≠ x → r.apply y ≠ x'
  spared : ¬ U x'

/-- The first part of a loop header, with the names that the loop sees. -/
inductive ArrangedInit (N : String → String → Prop) (r : Renaming) (V : String → Prop) :
    Option LoopInit → Option LoopInit → Renaming → (String → Prop) → Prop
  | none : ArrangedInit N r V none none r V
  | decl {d : Local} {x' : String} (init : ∀ e, d.init = some e → (Rule.uses V).Expr e)
      (new : Renewal N r V (fun _ => False) d.name x') :
      ArrangedInit N r V (some (.decl d)) (some (.decl ⟨x', d.ty, d.init.map (Expr.rename r)⟩))
        ((d.name, x') :: r) (withName V d.name)
  | assign {a : Assignment} (uses : (Rule.uses V).Assignment a) :
      ArrangedInit N r V (some (.assign a)) (some (.assign (a.rename r))) r V

/-- The code does what the body does, and then what `after` does. Before it the variables of `V`
have the names that `r` gives them, and it declares none of the names `U`. Where the code after a
body is not known, control does not reach its end. -/
inductive Arranged (N : String → String → Prop) : Renaming → (String → Prop) → (String → Prop) →
    Option (List Stmt) → List Stmt → List Stmt → Prop
  | nil {r V U after} : Arranged N r V U (some after) [] after
  | decl {r V U after rest code} {d : Local} {x' : String}
      (init : ∀ e, d.init = some e → (Rule.uses V).Expr e) (new : Renewal N r V U d.name x')
      (next : Arranged N ((d.name, x') :: r) (withName V d.name) U after rest code) :
      Arranged N r V U after (.decl d :: rest)
        (.decl ⟨x', d.ty, d.init.map (Expr.rename r)⟩ :: code)
  | arrayDecl {r V U after rest code} {x x' : String} {elem : Ty} {len : Expr}
      (uses : (Rule.uses V).Expr len) (new : Renewal N r V U x x')
      (next : Arranged N ((x, x') :: r) (withName V x) U after rest code) :
      Arranged N r V U after (.arrayDecl x elem len :: rest)
        (.arrayDecl x' elem (len.rename r) :: code)
  | assign {r V U after rest code} {a : Assignment} (uses : (Rule.uses V).Assignment a)
      (next : Arranged N r V U after rest code) :
      Arranged N r V U after (.assign a :: rest) (.assign (a.rename r) :: code)
  | expr {r V U after rest code} {e : Expr} (uses : (Rule.uses V).Expr e)
      (next : Arranged N r V U after rest code) :
      Arranged N r V U after (.expr e :: rest) (.expr (e.rename r) :: code)
  | ret {r V U after rest code} {value : Option Expr}
      (uses : ∀ e, value = some e → (Rule.uses V).Expr e)
      (next : code ≠ [] → Arranged N r V U after rest code) :
      Arranged N r V U after (.ret value :: rest) (.ret (value.map (Expr.rename r)) :: code)
  | cond {r V U after rest code yes yes' no no'} {test : Expr} (uses : (Rule.uses V).Expr test)
      (hyes : Arranged N r V (fun _ => False) (some []) yes yes')
      (hno : Arranged N r V (fun _ => False) (some []) no no')
      (next : Arranged N r V U after rest code) :
      Arranged N r V U after (.cond test yes no :: rest) (.cond (test.rename r) yes' no' :: code)
  | moved {r V U after rest mid yes yes' no no'} {test : Expr} (uses : (Rule.uses V).Expr test)
      (hyes : Arranged N r V (fun y => U y ∨ newNames r V y) mid yes yes')
      (hno : Arranged N r V (fun y => U y ∨ newNames r V y) mid no no')
      (next : ∀ code, mid = some code → Arranged N r V U after rest code) :
      Arranged N r V U after (.cond test yes no :: rest) [.cond (test.rename r) yes' no']
  | for_ {r r' V V' U after rest code init init' body body'} {test : Option Expr}
      {step : Option Assignment} (header : ArrangedInit N r V init init' r' V')
      (htest : ∀ e, test = some e → (Rule.uses V').Expr e)
      (hstep : ∀ a, step = some a → (Rule.uses V').Assignment a)
      (hbody : Arranged N r' V' (fun _ => False) (some []) body body')
      (next : Arranged N r V U after rest code) :
      Arranged N r V U after (.for_ init test step body :: rest)
        (.for_ init' (test.map (Expr.rename r')) (step.map (Assignment.rename r')) body' :: code)
  | while_ {r V U after rest code body body'} {test : Expr} (uses : (Rule.uses V).Expr test)
      (hbody : Arranged N r V (fun _ => False) (some []) body body')
      (next : Arranged N r V U after rest code) :
      Arranged N r V U after (.while_ test body :: rest) (.while_ (test.rename r) body' :: code)
  | block {r V U after rest code body body'}
      (hbody : Arranged N r V (fun _ => False) (some []) body body')
      (next : Arranged N r V U after rest code) :
      Arranged N r V U after (.block body :: rest) (.block body' :: code)
  | opened {r V U after rest mid body code}
      (hbody : Arranged N r V (fun y => U y ∨ newNames r V y) mid body code)
      (next : ∀ code, mid = some code → Arranged N r V U after rest code) :
      Arranged N r V U after (.block body :: rest) code

/-! ### Declarations -/

section

variable {N : String → String → Prop} {V U : String → Prop} {r : Renaming} {P : Pairing}
  {env env' : Env}

theorem PairedEnv.declare (h : PairedEnv N V r P env env') {x x' : String}
    (hx : Renewal N r V U x x') {b b' : Binding} (hb : P.binding b b') :
    PairedEnv N (withName V x) ((x, x') :: r) P ((x, b) :: env) ((x', b') :: env') := by
  have happly : ∀ y, y ≠ x → Renaming.apply ((x, x') :: r) y = r.apply y := fun y hy => by
    rw [Renaming.apply, lookup_cons_of_ne hy, Renaming.apply]
  have hself : Renaming.apply ((x, x') :: r) x = x' := by simp [Renaming.apply]
  refine ⟨?_, ?_⟩
  · rintro y (rfl | hy)
    · rw [hself]
      exact hx.name
    · by_cases hyx : y = x
      · rw [hyx, hself]
        exact hx.name
      · rw [happly y hyx]
        exact h.names y hy
  · intro y hy
    by_cases hyx : y = x
    · rw [hyx, hself, List.lookup_cons_self, List.lookup_cons_self]
      exact .some hb
    · have hV : V y := hy.resolve_left hyx
      rw [happly y hyx, lookup_cons_of_ne hyx, lookup_cons_of_ne (hx.apart y hV hyx)]
      exact h.bindings y hV

/-- The variables depend on the names of `V` only. -/
theorem PairedEnv.congr (h : PairedEnv N V r P env env') {env'' : Env}
    (heq : ∀ y, newNames r V y → env''.lookup y = env'.lookup y) : PairedEnv N V r P env env'' := by
  refine ⟨h.names, fun x hx => ?_⟩
  rw [heq _ ⟨x, hx, rfl⟩]
  exact h.bindings x hx

end

namespace Eval

open Exec

section

variable {N : String → String → Prop} {V U : String → Prop} {r : Renaming} {P : Pairing}
  {env env' : Env} {ctx : Context K} {s s' : Store K}

/-- Both runs have declared `x`, the second under the name `x'`. -/
def DeclaredBoth (x x' : String) (env env' : Env) (P : Pairing) (e e' : Env) : Prop :=
  ∃ b b', e = (x, b) :: env ∧ e' = (x', b') :: env' ∧ P.binding b b'

theorem agree_newCell (hm : Matches P s s') (v : Value K) :
    Agree N P (newCell v) s (newCell v) s' fun P' => P'.slot :=
  ⟨{ P with cell := withPair P.cell s.cells.size s'.cells.size }, ⟨Or.inl, id, id⟩,
    hm.newCell v, Or.inr ⟨rfl, rfl⟩⟩

theorem agree_newArray (hm : Matches P s s') (b : Buffer K) :
    Agree N P (newArray b) s (newArray b) s' fun P' => P'.array :=
  ⟨{ P with array := withPair P.array s.arrays.size s'.arrays.size }, ⟨id, Or.inl, id⟩,
    hm.newArray b, Or.inr ⟨rfl, rfl⟩⟩

theorem agree_newTape (hm : Matches P s s') (b : Buffer K) :
    Agree N P (newTape b) s (newTape b) s' fun P' => P'.tape :=
  ⟨{ P with tape := withPair P.tape s.tapes.size s'.tapes.size }, ⟨id, id, Or.inl⟩,
    hm.newTape b, Or.inr ⟨rfl, rfl⟩⟩

variable [Scalar K]

theorem agree_execLocal (hc : Steady N ctx) (h : PairedEnv N V r P env env') (hm : Matches P s s')
    {d : Local} (hd : ∀ e, d.init = some e → (Rule.uses V).Expr e) {x' : String}
    (hx : N d.name x') :
    Agree N P (execLocal ctx env d) s (execLocal ctx env' ⟨x', d.ty, d.init.map (Expr.rename r)⟩) s'
      (DeclaredBoth d.name x' env env') := by
  obtain ⟨x, ty, init⟩ := d
  -- a scalar: both cells start with the same value
  have hcell : ∀ {P' : Pairing} {t t' : Store K} (v : Value K), Matches P' t t' → Agree N P' (do
      let slot ← newCell v
      return (x, .scalar slot) :: env) t (do
      let slot ← newCell v
      return (x', .scalar slot) :: env') t' (DeclaredBoth x x' env env') := fun v ht =>
    (agree_newCell ht v).bind fun P₁ y z u u' _ hu hyz => .pure hu ⟨_, _, rfl, rfl, hyz⟩
  have hstart : ∀ t, Agree N P (require (.type (.localType x t)) (Value.zeroOf? t)) s
      (require (.type (.localType x' t)) (Value.zeroOf? t)) s'
      fun _ => (Eq : Value K → Value K → Prop) := by
    intro t
    refine .require hm ⟨hx, rfl⟩ ?_
    cases (Value.zeroOf? t : Option (Value K)) with
    | none => exact .none
    | some v => exact .some rfl
  unfold execLocal
  cases ty with
  | tape elem =>
    exact (agree_newTape hm _).bind fun P₁ a b t t' _ ht hab => .pure ht ⟨_, _, rfl, rfl, hab⟩
  | array elem len =>
    have hstop : Agree N P (mistyped (.arrayLocal x)) s (mistyped (.arrayLocal x')) s'
        (DeclaredBoth x x' env env') := .fail hm hx
    rcases init with _ | e
    · exact hstop
    cases e with
    | var y =>
      have hy : V y := Rule.expr_var.mp (hd _ rfl)
      exact (agree_arrayOf h hm hy).bind fun P₁ a b t t' _ ht hab => .pure ht ⟨_, _, rfl, rfl, hab⟩
    | _ => exact hstop
  | _ =>
    cases init with
    | none => exact (hstart _).bind_eq fun P₁ v t t' _ ht => hcell v ht
    | some e => exact (agree_eval hc h hm (hd e rfl)).bind_eq fun P₁ v t t' _ ht => hcell _ ht

theorem agree_execArray (hc : Steady N ctx) (h : PairedEnv N V r P env env') (hm : Matches P s s')
    {x x' : String} {elem : Ty} {len : Expr} (hlen : (Rule.uses V).Expr len) (hx : N x x') :
    Agree N P (execArray ctx env x elem len) s (execArray ctx env' x' elem (len.rename r)) s'
      (DeclaredBoth x x' env env') := by
  refine (agree_evalInt hc h hm hlen).bind_eq fun P₁ n t t' _ ht => ?_
  refine (agree_require hc ht _ _).bind_eq fun P₂ zero u u' _ hu => ?_
  split
  · exact .fail hu ⟨hx, rfl, rfl⟩
  · exact (agree_newArray hu _).bind fun P₃ a b v v' _ hv hab => .pure hv ⟨_, _, rfl, rfl, hab⟩

theorem agree_write (hm : Matches P s s') {x y : Slot} (hxy : P.slot x y) (v : Value K) :
    Agree N P (write x v) s (write y v) s' fun _ => Eq :=
  ⟨P, .refl P, hm.write v hxy, rfl⟩

theorem agree_execAssignment (hc : Steady N ctx) (h : PairedEnv N V r P env env')
    (hm : Matches P s s') {a : Assignment} (ha : (Rule.uses V).Assignment a) :
    Agree N P (execAssignment ctx env a) s (execAssignment ctx env' (a.rename r)) s'
      fun _ => Eq := by
  obtain ⟨hname, hplace, hvalue⟩ := ha
  refine (agree_slotOf hc h hm hname hplace).bind fun P₁ x y t t' hP₁ ht hxy => ?_
  refine (agree_eval hc (h.mono hP₁) ht hvalue).bind_eq fun P₂ v u u' hP₂ hu => ?_
  have hop : (a.rename r).op = a.op := rfl
  rw [hop]
  split
  · exact agree_write hu (hP₂.slot hxy) v
  · refine (agree_read hu (hP₂.slot hxy)).bind_eq fun P₃ old w w' hP₃ hw => ?_
    refine (agree_lift hc hw _).bind_eq fun P₄ v q q' hP₄ hq => ?_
    exact agree_write hq (hP₄.slot (hP₃.slot (hP₂.slot hxy))) v

/-! ### Loops -/

theorem agree_execInit (hc : Steady N ctx) (h : PairedEnv N V r P env env') (hm : Matches P s s')
    {init init' : Option LoopInit} {r' : Renaming} {V' : String → Prop}
    (hi : ArrangedInit N r V init init' r' V') :
    Agree N P (execInit ctx env init) s (execInit ctx env' init') s'
      (PairedEnv N V' r') := by
  cases hi with
  | none => exact .pure hm h
  | decl hd hx =>
    refine (agree_execLocal hc h hm hd hx.name).imp ?_
    rintro P' e e' hP ⟨b, b', rfl, rfl, hb⟩
    exact (h.mono hP).declare hx hb
  | assign ha =>
    exact (agree_execAssignment hc h hm ha).bind_eq fun P₁ _ t t' hP ht => .pure ht (h.mono hP)

theorem agree_execTest (hc : Steady N ctx) (h : PairedEnv N V r P env env') (hm : Matches P s s')
    {test : Option Expr} (ht : ∀ e, test = some e → (Rule.uses V).Expr e) :
    Agree N P (execTest ctx env test) s (execTest ctx env' (test.map (Expr.rename r))) s'
      fun _ => Eq := by
  cases test with
  | none => exact .pure hm rfl
  | some e => exact agree_evalBool hc h hm (ht e rfl)

theorem agree_execStep (hc : Steady N ctx) (h : PairedEnv N V r P env env') (hm : Matches P s s')
    {step : Option Assignment} (hs : ∀ a, step = some a → (Rule.uses V).Assignment a) :
    Agree N P (execStep ctx env step) s (execStep ctx env' (step.map (Assignment.rename r))) s'
      fun _ => Eq := by
  cases step with
  | none => exact .pure hm rfl
  | some a => exact agree_execAssignment hc h hm (hs a rfl)

omit [Scalar K] in
theorem agree_rounds {test test' : Exec K Bool} {body body' : Exec K (Flow K)}
    {step step' : Exec K Unit}
    (htest : ∀ {P' t t'}, P.Within P' → Matches P' t t' → Agree N P' test t test' t' fun _ => Eq)
    (hbody : ∀ {P' t t'}, P.Within P' → Matches P' t t' → Agree N P' body t body' t' fun _ => Eq)
    (hstep : ∀ {P' t t'}, P.Within P' → Matches P' t t' → Agree N P' step t step' t' fun _ => Eq) :
    ∀ (n : Nat) {P' t t'}, P.Within P' → Matches P' t t' →
      Agree N P' (rounds test body step n) t (rounds test' body' step' n) t' fun _ => Eq
  | 0, P', t, t', _, ht => .stop ht rfl
  | n + 1, P', t, t', hP, ht => by
    rw [rounds, rounds]
    refine (htest hP ht).bind_eq fun P₁ b u u' hP₁ hu => ?_
    split
    · have hP₁' := hP.trans hP₁
      refine (hbody hP₁' hu).bind_eq fun P₂ flow v v' hP₂ hv => ?_
      have hP₂' := hP₁'.trans hP₂
      cases flow with
      | ret value => exact .pure hv rfl
      | next =>
        exact (hstep hP₂' hv).bind_eq fun P₃ _ w w' hP₃ hw =>
          agree_rounds htest hbody hstep n (hP₂'.trans hP₃) hw
    · exact .pure hu rfl

/-! ### Bodies -/

variable {limit : Nat}

/-- What follows a body, by the way it ends. -/
theorem execBody_cons_bind (stmt : Stmt) (rest : List Stmt) (κ : Flow K → Exec K (Flow K)) :
    execBody ctx limit env (stmt :: rest) >>= κ = execStmt ctx limit env stmt >>= fun p =>
      match p.2 with
      | .next => execBody ctx limit p.1 rest >>= κ
      | .ret v => κ (.ret v) := by
  rw [execBody, bind_assoc]
  congr 1
  funext ⟨e, flow⟩
  cases flow with
  | next => rfl
  | ret v => exact pure_bind _ _

/-- A scope of statements, with what follows. -/
theorem execStmt_block_bind (body : List Stmt) {β : Type} (f : Env × Flow K → Exec K β) :
    execStmt ctx limit env (.block body) >>= f =
      inScope (execBody ctx limit env body) >>= fun flow => f (env, flow) := by
  rw [execStmt, bind_assoc]
  rfl

theorem execStmt_cond_bind (test : Expr) (yes no : List Stmt) {β : Type}
    (f : Env × Flow K → Exec K β) :
    execStmt ctx limit env (.cond test yes no) >>= f = evalBool ctx env test >>= fun b =>
      inScope (execBody ctx limit env (if b then yes else no)) >>= fun flow => f (env, flow) := by
  rw [execStmt, bind_assoc]
  congr 1
  funext b
  cases b
  · exact bind_assoc _ _ _
  · exact bind_assoc _ _ _

/-- The first run goes on from a body in `κ` as the second does in the code `after`. -/
structure Continues (N : String → String → Prop) (ctx : Context K) (limit : Nat) (P₀ P : Pairing)
    (U : String → Prop) (env' : Env) (after : Option (List Stmt)) (κ : Flow K → Exec K (Flow K)) :
    Prop where
  ret : ∀ v {P' t t'}, P.Within P' → Matches P' t t' →
    Agree N P₀ (κ (.ret v)) t (pure (.ret v)) t' fun _ => Eq
  next : ∀ {code P' env'' t t'}, after = some code → P.Within P' → Matches P' t t' →
    (∀ y, U y → env''.lookup y = env'.lookup y) →
    Agree N P₀ (κ .next) t (execBody ctx limit env'' code) t' fun _ => Eq

theorem Continues.mono {P₀ P' : Pairing} {after : Option (List Stmt)} {κ : Flow K → Exec K (Flow K)}
    (h : Continues N ctx limit P₀ P U env' after κ) (hP : P.Within P') :
    Continues N ctx limit P₀ P' U env' after κ :=
  ⟨fun v _ _ _ hP' ht => h.ret v (hP.trans hP') ht,
    fun hcode hP' ht henv => h.next hcode (hP.trans hP') ht henv⟩

theorem Continues.congr {P₀ : Pairing} {after : Option (List Stmt)} {κ : Flow K → Exec K (Flow K)}
    (h : Continues N ctx limit P₀ P U env' after κ) {env'' : Env}
    (heq : ∀ y, U y → env''.lookup y = env'.lookup y) :
    Continues N ctx limit P₀ P U env'' after κ :=
  ⟨h.ret, fun hcode hP ht henv => h.next hcode hP ht fun y hy => (henv y hy).trans (heq y hy)⟩

/-- Every run of the body goes the way of a run of the code. -/
def Tracks (N : String → String → Prop) (ctx : Context K) (limit : Nat) (r : Renaming)
    (V U : String → Prop) (after : Option (List Stmt)) (body code : List Stmt) : Prop :=
  ∀ ⦃P₀ P : Pairing⦄ ⦃env env' : Env⦄ ⦃s s' : Store K⦄ ⦃κ : Flow K → Exec K (Flow K)⦄,
    P₀.Within P → PairedEnv N V r P env env' → Matches P s s' →
    Continues N ctx limit P₀ P U env' after κ →
    Agree N P₀ (execBody ctx limit env body >>= κ) s (execBody ctx limit env' code) s' fun _ => Eq

namespace Tracks

variable {after mid : Option (List Stmt)} {body rest code : List Stmt}

/-- A statement that both runs execute, and what follows it. -/
theorem cons {r₁ : Renaming} {V₁ : String → Prop} {stmt stmt' : Stmt}
    (hstmt : ∀ {P env env' s s'}, PairedEnv N V r P env env' → Matches P s s' →
      Agree N P (execStmt ctx limit env stmt) s (execStmt ctx limit env' stmt') s' fun P' p p' =>
        p.2 = p'.2 ∧ PairedEnv N V₁ r₁ P' p.1 p'.1 ∧ ∀ y, U y → p'.1.lookup y = env'.lookup y)
    (hrest : Tracks N ctx limit r₁ V₁ U after rest code) :
    Tracks N ctx limit r V U after (stmt :: rest) (stmt' :: code) := by
  intro P₀ P env env' s s' κ hP₀ henv hm hκ
  rw [execBody_cons_bind, execBody]
  refine Agree.bind_within hP₀ (hstmt henv hm) fun P' p p' t t' hP ht hp => ?_
  obtain ⟨e, flow⟩ := p
  obtain ⟨e', flow'⟩ := p'
  obtain ⟨hflow, henv', hsame⟩ := hp
  obtain rfl : flow = flow' := hflow
  cases flow with
  | next => exact hrest (hP₀.trans hP) henv' ht ((hκ.mono hP).congr hsame)
  | ret v => exact hκ.ret v hP ht

/-- A statement that leaves the variables as they are, and what follows it. -/
theorem cons_same {stmt stmt' : Stmt}
    (hstmt : ∀ {P env env' s s'}, PairedEnv N V r P env env' → Matches P s s' →
      Agree N P (execStmt ctx limit env stmt) s (execStmt ctx limit env' stmt') s' fun _ p p' =>
        p.2 = p'.2 ∧ p.1 = env ∧ p'.1 = env')
    (hrest : Tracks N ctx limit r V U after rest code) :
    Tracks N ctx limit r V U after (stmt :: rest) (stmt' :: code) := by
  refine cons (fun {P env env' s s'} henv hm => (hstmt henv hm).imp ?_) hrest
  rintro P' ⟨e, flow⟩ ⟨e', flow'⟩ hP ⟨hflow, rfl, rfl⟩
  exact ⟨hflow, henv.mono hP, fun y _ => rfl⟩

/-- A declaration under a new name, and what follows it. -/
theorem cons_declared {stmt stmt' : Stmt} {x x' : String} (hx : Renewal N r V U x x')
    (hstmt : ∀ {P env env' s s'}, PairedEnv N V r P env env' → Matches P s s' →
      Agree N P (execStmt ctx limit env stmt) s (execStmt ctx limit env' stmt') s' fun P' p p' =>
        p.2 = p'.2 ∧ DeclaredBoth x x' env env' P' p.1 p'.1)
    (hrest : Tracks N ctx limit ((x, x') :: r) (withName V x) U after rest code) :
    Tracks N ctx limit r V U after (stmt :: rest) (stmt' :: code) := by
  refine cons (fun {P env env' s s'} henv hm => (hstmt henv hm).imp ?_) hrest
  rintro P' ⟨e, flow⟩ ⟨e', flow'⟩ hP ⟨hflow, b, b', rfl, rfl, hb⟩
  refine ⟨hflow, (henv.mono hP).declare hx hb, fun y hy => ?_⟩
  exact lookup_cons_of_ne fun hyx => hx.spared (hyx ▸ hy)

/-- A scope that both runs have. -/
theorem inScope {body' : List Stmt}
    (h : Tracks N ctx limit r V (fun _ => False) (some []) body body')
    (henv : PairedEnv N V r P env env') (hm : Matches P s s') :
    Agree N P (Exec.inScope (execBody ctx limit env body)) s
      (Exec.inScope (execBody ctx limit env' body')) s' fun _ => Eq := by
  have hend : Continues N ctx limit P P (fun _ => False) env' (some []) pure := by
    refine ⟨fun v _ _ _ _ ht => (Agree.pure ht rfl).narrow ‹_›, ?_⟩
    rintro _ P' env'' t t' ⟨⟩ hP ht -
    rw [execBody]
    exact (Agree.pure ht rfl).narrow hP
  have hbody := h (.refl P) henv hm hend
  rw [bind_pure] at hbody
  exact hbody.inScope hm

/-- A scope that only the first run has. What the second run goes on with sees the variables that
were there before it, and more. -/
theorem opened (hbody : Tracks N ctx limit r V (fun y => U y ∨ newNames r V y) mid body code)
    (hrest : ∀ m, mid = some m → Tracks N ctx limit r V U after rest m) {P₀ : Pairing}
    {κ : Flow K → Exec K (Flow K)} (hP₀ : P₀.Within P) (henv : PairedEnv N V r P env env')
    (hm : Matches P s s') (hκ : Continues N ctx limit P₀ P U env' after κ) :
    Agree N P₀ (Exec.inScope (execBody ctx limit env body) >>= fun flow =>
      match flow with
      | .next => execBody ctx limit env rest >>= κ
      | .ret v => κ (.ret v)) s (execBody ctx limit env' code) s' fun _ => Eq := by
  refine Agree.inScope_bind_left (hm.mono hP₀) (hbody hP₀ henv hm ⟨?_, ?_⟩)
  · intro v P' t t' hP ht
    exact hκ.ret v (.refl P) (hm.release_left (ht.mono hP))
  · intro m P' env'' t t' hmid hP ht heq
    have henv' : PairedEnv N V r P env env'' := henv.congr fun y hy => heq y (.inr hy)
    have hκ' := hκ.congr fun y hy => heq y (.inl hy)
    exact hrest m hmid hP₀ henv' (hm.release_left (ht.mono hP)) hκ'

end Tracks

/-- A branch as the only statement ends as the branch taken does. -/
theorem execBody_cond (test : Expr) (yes no : List Stmt) :
    execBody ctx limit env [.cond test yes no] = evalBool ctx env test >>= fun b =>
      inScope (execBody ctx limit env (if b then yes else no)) := by
  rw [execBody, execStmt_cond_bind]
  congr 1
  funext b
  conv_rhs => rw [← bind_pure (inScope _)]
  congr 1
  funext flow
  cases flow with
  | next =>
    change execBody ctx limit env [] = pure .next
    rw [execBody]
  | ret v => rfl

/-- Code that is arranged from a body does what the body does. -/
theorem Arranged.tracks (hc : Steady N ctx) {after : Option (List Stmt)} {body code : List Stmt}
    (h : Arranged N r V U after body code) : Tracks N ctx limit r V U after body code := by
  induction h with
  | nil =>
    intro P₀ P env env' s s' κ hP₀ henv hm hκ
    rw [execBody, pure_bind]
    exact hκ.next rfl (.refl P) hm fun _ _ => rfl
  | decl hd hx _ ih =>
    refine Tracks.cons_declared hx (fun henv hm => ?_) ih
    rw [execStmt, execStmt]
    have hlocal := agree_execLocal hc henv hm hd hx.name
    exact hlocal.bind fun P' e e' t t' _ ht he => .pure ht ⟨rfl, he⟩
  | arrayDecl hlen hx _ ih =>
    refine Tracks.cons_declared hx (fun henv hm => ?_) ih
    rw [execStmt, execStmt]
    refine (agree_execArray hc henv hm hlen hx.name).bind fun P' e e' t t' _ ht he => ?_
    exact .pure ht ⟨rfl, he⟩
  | assign ha _ ih =>
    refine Tracks.cons_same (fun henv hm => ?_) ih
    rw [execStmt, execStmt]
    have hassign := agree_execAssignment hc henv hm ha
    exact hassign.bind_eq fun P' _ t t' _ ht => .pure ht ⟨rfl, rfl, rfl⟩
  | expr he _ ih =>
    refine Tracks.cons_same (fun henv hm => ?_) ih
    rw [execStmt, execStmt]
    exact (agree_eval? hc henv hm he).bind_eq fun P' _ t t' _ ht => .pure ht ⟨rfl, rfl, rfl⟩
  | @ret _ _ _ _ _ _ value hv _ _ =>
    intro P₀ P env env' s s' κ hP₀ henv hm hκ
    rw [execBody_cons_bind, execBody]
    cases value with
    | none =>
      rw [Option.map_none, execStmt, execStmt, pure_bind, pure_bind]
      exact hκ.ret none (.refl P) hm
    | some e =>
      rw [Option.map_some, execStmt, execStmt, bind_assoc, bind_assoc]
      have hvalue := agree_eval? hc henv hm (hv e rfl)
      refine Agree.bind_within hP₀ hvalue fun P' v w t t' hP ht hvw => ?_
      obtain rfl : v = w := hvw
      exact hκ.ret v hP ht
  | cond ht _ _ _ ihyes ihno ih =>
    refine Tracks.cons_same (fun henv hm => ?_) ih
    rw [execStmt, execStmt]
    refine (agree_evalBool hc henv hm ht).bind_eq fun P' b t t' hP ht => ?_
    split
    · exact (ihyes.inScope (henv.mono hP) ht).bind_eq fun _ _ _ _ _ hu => .pure hu ⟨rfl, rfl, rfl⟩
    · exact (ihno.inScope (henv.mono hP) ht).bind_eq fun _ _ _ _ _ hu => .pure hu ⟨rfl, rfl, rfl⟩
  | moved ht _ _ _ ihyes ihno ih =>
    intro P₀ P env env' s s' κ hP₀ henv hm hκ
    rw [execBody_cons_bind, execStmt_cond_bind, execBody_cond]
    refine Agree.bind_within hP₀ (agree_evalBool hc henv hm ht) fun P' b b' t t' hP ht hb => ?_
    obtain rfl : b = b' := hb
    refine Agree.inScope_right (ht.mono (hP₀.trans hP)) ?_
    cases b with
    | true => exact ihyes.opened ih (hP₀.trans hP) (henv.mono hP) ht (hκ.mono hP)
    | false => exact ihno.opened ih (hP₀.trans hP) (henv.mono hP) ht (hκ.mono hP)
  | for_ hi ht hs _ _ ihbody ih =>
    refine Tracks.cons_same (fun henv hm => ?_) ih
    rw [execStmt, execStmt]
    refine (Agree.inScope hm ?_).bind_eq fun P' flow t t' _ ht => .pure ht ⟨rfl, rfl, rfl⟩
    refine (agree_execInit hc henv hm hi).bind fun P' e e' t t' _ ht' he => ?_
    exact agree_rounds (fun hP hu => agree_execTest hc (he.mono hP) hu ht)
      (fun hP hu => ihbody.inScope (he.mono hP) hu)
      (fun hP hu => agree_execStep hc (he.mono hP) hu hs) limit (.refl P') ht'
  | while_ ht _ _ ihbody ih =>
    refine Tracks.cons_same (fun {P _ _ _ _} henv hm => ?_) ih
    rw [execStmt, execStmt]
    refine Agree.bind_eq ?_ fun P' flow t t' _ ht => .pure ht ⟨rfl, rfl, rfl⟩
    exact agree_rounds (fun hP hu => agree_evalBool hc (henv.mono hP) hu ht)
      (fun hP hu => ihbody.inScope (henv.mono hP) hu) (fun _ hu => .pure hu rfl) limit (.refl P) hm
  | block _ _ ihbody ih =>
    refine Tracks.cons_same (fun henv hm => ?_) ih
    rw [execStmt, execStmt]
    exact (ihbody.inScope henv hm).bind_eq fun P' flow t t' _ ht => .pure ht ⟨rfl, rfl, rfl⟩
  | opened _ _ ihbody ih =>
    intro P₀ P env env' s s' κ hP₀ henv hm hκ
    rw [execBody_cons_bind, execStmt_block_bind]
    exact ihbody.opened ih hP₀ henv hm hκ

end

end Eval

end Fluxion
