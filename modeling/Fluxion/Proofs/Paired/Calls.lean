import Fluxion.Eval.Machine
import Fluxion.Proofs.Canonical.Unique
import Fluxion.Proofs.Paired.Execution

/-!
Calls side by side. A call with corresponding arguments gives the same on any storage, so calls on
one machine do not see each other.
-/

namespace Fluxion

variable {K : Type}

/-! ### Code beside itself -/

theorem Rule.uses_of_forall {V : String → Prop} (hV : ∀ x, V x) (e : Fluxion.Expr) :
    (Rule.uses V).Expr e := by
  intro part _
  cases part <;> first | exact hV _ | trivial

theorem Rule.uses_assignment_of_forall {V : String → Prop} (hV : ∀ x, V x)
    (a : Fluxion.Assignment) : (Rule.uses V).Assignment a := by
  refine ⟨hV _, ?_, uses_of_forall hV _⟩
  obtain ⟨x | ⟨x, i⟩, op, value⟩ := a
  · intro part hpart
    cases hpart
  · exact uses_of_forall hV i

theorem Renaming.apply_cons_self {r : Renaming} (hr : ∀ x, r.apply x = x) (x y : String) :
    Renaming.apply ((x, x) :: r) y = y := by
  by_cases hy : y = x
  · simp [Renaming.apply, hy]
  · rw [Renaming.apply, lookup_cons_of_ne hy]
    exact hr y

/-- Code beside itself keeps every name. -/
structure Unchanged (N : String → String → Prop) (r : Renaming) (V U : String → Prop) : Prop where
  refl : ∀ x, N x x
  all : ∀ x, V x
  free : ∀ x, ¬ U x
  same : ∀ x, r.apply x = x

namespace Unchanged

variable {N : String → String → Prop} {r : Renaming} {V U : String → Prop} (h : Unchanged N r V U)

include h

theorem renewal (x : String) : Renewal N r V U x x :=
  ⟨h.refl x, fun y _ hy => by rwa [h.same], h.free x⟩

theorem cons (x : String) : Unchanged N ((x, x) :: r) (withName V x) U :=
  ⟨h.refl, fun y => .inr (h.all y), h.free, Renaming.apply_cons_self h.same x⟩

theorem closed : Unchanged N r V fun _ => False := ⟨h.refl, h.all, fun _ => id, h.same⟩

theorem local_eq (d : Local) : (⟨d.name, d.ty, d.init.map (Expr.rename r)⟩ : Local) = d := by
  obtain ⟨x, ty, init⟩ := d
  cases init <;> simp [Expr.rename_of_apply_self h.same]

theorem init (i : Option LoopInit) :
    ∃ r' V', ArrangedInit N r V i i r' V' ∧ Unchanged N r' V' fun _ => False := by
  rcases i with _ | (d | a)
  · exact ⟨r, V, .none, h.closed⟩
  · refine ⟨_, _, ?_, h.closed.cons d.name⟩
    have hd := ArrangedInit.decl (d := d) (fun e _ => Rule.uses_of_forall h.all e)
      (h.closed.renewal d.name)
    rwa [h.local_eq] at hd
  · refine ⟨r, V, ?_, h.closed⟩
    have ha : ArrangedInit N r V _ (some (.assign (a.rename r))) r V :=
      .assign (Rule.uses_assignment_of_forall h.all a)
    rwa [Assignment.rename_of_apply_self h.same] at ha

end Unchanged

/-- Every body is arranged from itself. -/
theorem arranged_self {N : String → String → Prop} : ∀ (body : List Stmt) {r : Renaming}
    {V U : String → Prop}, Unchanged N r V U → Arranged N r V U (some []) body body
  | [], r, V, U, h => .nil
  | .decl d :: rest, r, V, U, h => by
    have hd := Arranged.decl (d := d) (fun e _ => Rule.uses_of_forall h.all e) (h.renewal d.name)
      (arranged_self rest (h.cons d.name))
    rwa [h.local_eq] at hd
  | .arrayDecl x elem len :: rest, r, V, U, h => by
    have hd : Arranged N r V U _ _ (.arrayDecl x elem (len.rename r) :: rest) :=
      .arrayDecl (Rule.uses_of_forall h.all len) (h.renewal x) (arranged_self rest (h.cons x))
    rwa [Expr.rename_of_apply_self h.same] at hd
  | .assign a :: rest, r, V, U, h => by
    have ha := Arranged.assign (Rule.uses_assignment_of_forall h.all a) (arranged_self rest h)
    rwa [Assignment.rename_of_apply_self h.same] at ha
  | .expr e :: rest, r, V, U, h => by
    have he := Arranged.expr (Rule.uses_of_forall h.all e) (arranged_self rest h)
    rwa [Expr.rename_of_apply_self h.same] at he
  | .ret value :: rest, r, V, U, h => by
    have hv : Arranged N r V U (some []) (.ret value :: rest)
        (.ret (value.map (Expr.rename r)) :: rest) :=
      .ret (fun e _ => Rule.uses_of_forall h.all e) fun _ => arranged_self rest h
    have heq : value.map (Expr.rename r) = value := by
      cases value <;> simp [Expr.rename_of_apply_self h.same]
    rwa [heq] at hv
  | .cond test yes no :: rest, r, V, U, h => by
    have hc := Arranged.cond (Rule.uses_of_forall h.all test) (arranged_self yes h.closed)
      (arranged_self no h.closed) (arranged_self rest h)
    rwa [Expr.rename_of_apply_self h.same] at hc
  | .for_ init test step body :: rest, r, V, U, h => by
    obtain ⟨r', V', hi, h'⟩ := h.init init
    have hf : Arranged N r V U _ _ (.for_ init (test.map (Expr.rename r'))
        (step.map (Assignment.rename r')) body :: rest) :=
      .for_ hi (fun e _ => Rule.uses_of_forall h'.all e)
        (fun a _ => Rule.uses_assignment_of_forall h'.all a) (arranged_self body h')
        (arranged_self rest h)
    have htest : test.map (Expr.rename r') = test := by
      cases test <;> simp [Expr.rename_of_apply_self h'.same]
    have hstep : step.map (Assignment.rename r') = step := by
      cases step <;> simp [Assignment.rename_of_apply_self h'.same]
    rwa [htest, hstep] at hf
  | .while_ test body :: rest, r, V, U, h => by
    have hw := Arranged.while_ (Rule.uses_of_forall h.all test) (arranged_self body h.closed)
      (arranged_self rest h)
    rwa [Expr.rename_of_apply_self h.same] at hw
  | .block body :: rest, r, V, U, h =>
    .block (arranged_self body h.closed) (arranged_self rest h)
termination_by body => sizeOf body

/-! ### Calls -/

namespace Machine

open Exec

variable {N : String → String → Prop} {P : Pairing} {s s' : Store K}

theorem agree_enter [Scalar K] (hm : Matches P s s') (p : Param) {b b' : Bound K}
    (hb : P.bound b b') : Agree N P (enter p b) s (enter p b') s' fun P' => P'.binding := by
  rcases b with v | x | a | a <;> rcases b' with w | y | c | c <;> try exact hb.elim
  · obtain rfl : v = w := hb
    exact (Eval.agree_newCell hm _).bind fun P' x y t t' _ ht hxy => .pure ht hxy
  · exact .pure hm hb
  · exact .pure hm hb
  · exact .pure hm hb

/-- Parameters become corresponding variables. -/
theorem agree_enterAll [Scalar K] (hN : ∀ x, N x x) {ps : List Param} {bs bs' : List (Bound K)}
    {env env' : Env} (henv : PairedEnv N (fun _ => True) [] P env env') (hm : Matches P s s')
    (hb : List.Forall₂ P.bound bs bs') :
    Agree N P (enterAll env ps bs) s (enterAll env' ps bs') s'
      (PairedEnv N (fun _ => True) []) := by
  induction ps generalizing P env env' bs bs' s s' with
  | nil => exact .pure hm henv
  | cons p ps ih =>
    cases hb with
    | nil => exact .pure hm henv
    | cons hhead htail =>
      refine (agree_enter hm p hhead).bind fun P' b b' t t' hP ht hbb => ?_
      refine ih ⟨fun x _ => hN x, fun x _ => ?_⟩ ht (htail.imp fun _ _ h => hP.bound h)
      by_cases hx : x = p.name
      · subst hx
        simpa [Renaming.apply] using Option.Rel.some hbb
      · have := (henv.mono hP).bindings x trivial
        simpa [Renaming.apply, lookup_cons_of_ne hx] using this

variable [Scalar K]

theorem agree_nativeArg (hN : ∀ x, N x x) (hm : Matches P s s') (f : Func) {b b' : Bound K}
    (hb : P.bound b b') : Agree N P (nativeArg f b) s (nativeArg f b') s' fun _ => Eq := by
  have hnumber : ∀ {P' : Pairing} {t t' : Store K} (v : Value K), Matches P' t t' →
      Agree N P' (require (.type (.nativeNumber f.name)) v.number?) t
        (require (.type (.nativeNumber f.name)) v.number?) t' fun _ => Eq := by
    intro P' t t' v ht
    cases v.number? with
    | none => exact .fail ht (RuntimeError.alike_refl hN _)
    | some k => exact .pure ht rfl
  rcases b with v | x | a | a <;> rcases b' with w | y | c | c <;> try exact hb.elim
  · obtain rfl : v = w := hb
    exact hnumber v hm
  · exact (Eval.agree_read hm hb).bind_eq fun P' v t t' _ ht => hnumber v ht
  · exact .fail hm (RuntimeError.alike_refl hN _)
  · exact .fail hm (RuntimeError.alike_refl hN _)

theorem agree_nativeArgs (hN : ∀ x, N x x) (hm : Matches P s s') (f : Func)
    {bs bs' : List (Bound K)} (hb : List.Forall₂ P.bound bs bs') :
    Agree N P (bs.mapM (nativeArg f)) s (bs'.mapM (nativeArg f)) s' fun _ => Eq := by
  induction bs generalizing P bs' s s' with
  | nil =>
    cases hb
    exact .pure hm rfl
  | cons b bs ih =>
    obtain _ | ⟨hhead, htail⟩ := hb
    rw [List.mapM_cons, List.mapM_cons]
    refine (agree_nativeArg hN hm f hhead).bind_eq fun P₁ x t t' hP₁ ht => ?_
    have hrest := ih ht (htail.imp fun _ _ h => hP₁.bound h)
    exact hrest.bind_eq fun P₂ xs u u' _ hu => .pure hu rfl

theorem agree_callNative (hN : ∀ x, N x x) (hm : Matches P s s') (m : Machine K) (f : Func)
    {bs bs' : List (Bound K)} (hb : List.Forall₂ P.bound bs bs') :
    Agree N P (m.callNative f bs) s (m.callNative f bs') s' fun _ => Eq := by
  unfold callNative
  cases m.native? f with
  | none => exact .fail hm (RuntimeError.alike_refl hN _)
  | some native =>
    refine (agree_nativeArgs hN hm f hb).bind_eq fun P' args t t' _ ht => ?_
    cases native args with
    | none => exact .stop ht rfl
    | some v => exact .pure ht rfl

theorem agree_returned (hN : ∀ x, N x x) (hm : Matches P s s') (f : Func) (flow : Eval.Flow K) :
    Agree N P (returned f flow) s (returned f flow) s' fun _ => Eq := by
  unfold returned
  split
  · exact .pure hm rfl
  · split
    · exact .pure hm rfl
    · exact .fail hm (RuntimeError.alike_refl hN _)

/-- Calls of two functions that differ in their bodies only, one arranged from the other. -/
theorem agree_callAt_of_arranged {m : Machine K} {limit depth : Nat}
    (hc : Steady N (K := K) ⟨m.funcs, m.callAt limit depth⟩) {f : Func} {body code : List Stmt}
    {V : String → Prop} (hbody : f.body = some body)
    (h : Arranged N [] V (fun _ => False) (some []) body code) (hm : Matches P s s')
    {bs bs' : List (Bound K)} (hb : List.Forall₂ P.bound bs bs') :
    Agree N P (m.callAt limit (depth + 1) f bs) s
      (m.callAt limit (depth + 1) { f with body := some code } bs') s' fun _ => Eq := by
  have henv : PairedEnv N (fun _ => True) [] P [] [] := ⟨fun x _ => hc.refl x, fun _ _ => .none⟩
  unfold callAt
  rw [hbody]
  refine Agree.bind_eq (.inScope hm ?_) fun P' flow t t' _ ht => agree_returned hc.refl ht f flow
  refine (agree_enterAll hc.refl henv hm hb).bind fun P' env env' t t' _ ht he => ?_
  have he' : PairedEnv N V [] P' env env' :=
    ⟨fun x _ => hc.refl x, fun x _ => he.bindings x trivial⟩
  exact (Eval.Arranged.tracks hc h).inScope he' ht

theorem agree_callAt_native (hN : ∀ x, N x x) (hm : Matches P s s') (m : Machine K) (limit depth : Nat)
    {f : Func} (hbody : f.body = none) {bs bs' : List (Bound K)} (hb : List.Forall₂ P.bound bs bs') :
    Agree N P (m.callAt limit depth f bs) s (m.callAt limit depth f bs') s' fun _ => Eq := by
  cases depth <;>
  · simp only [callAt, hbody]
    exact (agree_callNative hN hm m f hb).bind_eq fun P' v t t' _ ht => .pure ht rfl

/-- A call with corresponding arguments gives the same, on any storage. -/
theorem steady_callAt (hN : ∀ x, N x x) (m : Machine K) (limit : Nat) :
    ∀ depth, Steady N (K := K) ⟨m.funcs, m.callAt limit depth⟩
  | 0 => by
    refine ⟨hN, fun f P bs bs' s s' hm hb => ?_⟩
    cases hbody : f.body with
    | none => exact agree_callAt_native hN hm m limit 0 hbody hb
    | some body =>
      simp only [callAt, hbody]
      exact .fail hm (RuntimeError.alike_refl hN _)
  | depth + 1 => by
    refine ⟨hN, fun f P bs bs' s s' hm hb => ?_⟩
    cases hbody : f.body with
    | none => exact agree_callAt_native hN hm m limit (depth + 1) hbody hb
    | some body =>
      have hself : Arranged N [] (fun _ => True) (fun _ => False) (some []) body body :=
        arranged_self body ⟨hN, fun _ => trivial, fun _ => id, fun _ => rfl⟩
      have hcall := agree_callAt_of_arranged (steady_callAt hN m limit depth) hbody hself hm hb
      rwa [← hbody] at hcall

/-! ### Runs from outside -/

theorem agree_bindArg (hN : ∀ x, N x x) (hm : Matches P s s') (f : Func) (p : Param) (a : Arg K) :
    Agree N P (bindArg f p a) s (bindArg f p a) s' fun P' => P'.bound := by
  have hstop : ∀ kind, Agree N P (fail (.argumentKind f.name p.name kind)) s
      (fail (.argumentKind f.name p.name kind)) s' fun P' => P'.bound (K := K) :=
    fun _ => .fail hm (RuntimeError.alike_refl hN _)
  unfold bindArg
  split
  · exact (Eval.agree_newCell hm _).bind fun P' x y t t' _ ht hxy => .pure ht hxy
  · exact hstop _
  · exact (Eval.agree_newArray hm _).bind fun P' x y t t' _ ht hxy => .pure ht hxy
  · exact hstop _
  · exact .pure hm rfl
  · exact .pure hm rfl
  · exact .pure hm rfl
  · split
    · exact .pure hm rfl
    · exact hstop _
  · exact .pure hm rfl
  · exact hstop _

theorem agree_bindArgs (hN : ∀ x, N x x) (hm : Matches P s s') (f : Func) (ps : List Param)
    (args : List (Arg K)) :
    Agree N P (bindArgs f ps args) s (bindArgs f ps args) s' fun P' => List.Forall₂ P'.bound := by
  induction ps generalizing P args s s' with
  | nil =>
    unfold bindArgs
    exact .pure hm .nil
  | cons p ps ih =>
    cases args with
    | nil =>
      unfold bindArgs
      exact .pure hm .nil
    | cons a args =>
      unfold bindArgs
      refine (agree_bindArg hN hm f p a).bind fun P₁ b b' t t' _ ht hb => ?_
      exact (ih ht args).bind fun P₂ bs bs' u u' hP₂ hu hbs => .pure hu (.cons (hP₂.bound hb) hbs)

theorem writeBacks_eq (hm : Matches P s s') {bs bs' : List (Bound K)}
    (hb : List.Forall₂ P.bound bs bs') (args : List (Arg K)) :
    writeBacks s bs args = writeBacks s' bs' args := by
  induction hb generalizing args with
  | nil => rfl
  | @cons b b' bs bs' hhead _ ih =>
    cases args with
    | nil => rfl
    | cons a args =>
      have hfirst : writeBack s b a = writeBack s' b' a := by
        rcases b with v | x | i | i <;> rcases b' with w | y | j | j <;> try exact hhead.elim
        · rfl
        · cases a <;> simp [writeBack, hm.read_eq (x := x) (y := y) hhead]
        · cases a <;> simp [writeBack, hm.array_eq (a := i) (b := j) hhead]
        · rfl
      rw [writeBacks, writeBacks, hfirst, ih]

/-- A run gives the same on any storage. -/
theorem agree_run (hN : ∀ x, N x x) (hm : Matches P s s') (m : Machine K) (limit : Nat) (f : Func)
    (args : List (Arg K)) :
    Agree N P (m.run limit f args) s (m.run limit f args) s' fun _ => Eq := by
  unfold run
  split
  · exact .fail hm (RuntimeError.alike_refl hN _)
  refine (agree_bindArgs hN hm f f.params args).bind fun P₁ bs bs' t t' _ ht hb => ?_
  refine ((steady_callAt hN m limit maxDepth).call f ht hb).bind_eq fun P₂ v u u' hP₂ hu => ?_
  refine .get_bind (.pure hu ?_)
  rw [writeBacks_eq hu (hb.imp fun _ _ h => hP₂.bound h) args]

/-! ### Calls one after another -/

/-- A call from outside. -/
structure Call (K : Type) where
  func : Func
  args : List (Arg K)

/-- What the caller has afterwards: a number, nothing or an error, and the arguments. -/
structure Seen (K : Type) where
  result : Except Stop (Option K)
  args : List (Arg K)

/-- Arguments are written back by a run that ends, and by no other. -/
def seen (args : List (Arg K)) : Except Stop (Outcome K) → Seen K
  | .ok outcome => ⟨.ok outcome.value, outcome.args⟩
  | .error e => ⟨.error e, args⟩

/-- Calls one after another, every time on the storage that the call before has left. -/
def callsFrom (m : Machine K) (limit : Nat) (s : Store K) : List (Call K) → List (Seen K)
  | [] => []
  | c :: rest =>
    let r := answer (m.run limit c.func c.args s)
    seen c.args r.1 :: m.callsFrom limit r.2 rest

/-- A call on storage of its own. -/
def callAlone (m : Machine K) (limit : Nat) (c : Call K) : Seen K :=
  seen c.args (answer (m.run limit c.func c.args .empty)).1

/-- The answer of a run does not depend on the storage. -/
theorem answer_run_eq (m : Machine K) (limit : Nat) (f : Func) (args : List (Arg K))
    (s s' : Store K) :
    (answer (m.run limit f args s)).1 = (answer (m.run limit f args s')).1 := by
  have h := agree_run (fun _ => rfl) (Matches.nothing s s') m limit f args
  unfold Agree at h
  cases hr : m.run limit f args s <;> cases hr' : m.run limit f args s' <;> rw [hr, hr'] at h
  · obtain ⟨_, _, _, hvalue⟩ := h
    exact congrArg Except.ok hvalue
  · exact h.elim
  · exact h.elim
  · exact congrArg Except.error (Stop.eq_of_alike h.2)

/-- Runs of a function for several lists of arguments give what each gives alone. -/
theorem executeAll_eq_map (m : Machine K) (f : Func) (s : Store K) (argss : List (List (Arg K))) :
    m.executeAll f s argss = argss.map (m.execute f) := by
  induction argss generalizing s with
  | nil => rfl
  | cons args rest ih =>
    have hfirst := answer_run_eq m manyRounds f args s .empty
    exact congrArg₂ List.cons hfirst (ih _)

/-- Doubles its argument, and then takes from a tape that is empty. -/
def doubleThenPop : Func :=
  ⟨"double", [⟨"x", .ref .float⟩], .void, some [
    .assign ⟨.var "x", .mul, .float 2.0⟩,
    .decl ⟨"t", .tape .float, none⟩,
    .expr (.call "pop" [.var "t"])], default⟩

end Machine

end Fluxion
