import Fluxion.Proofs.Canonical.Arranged
import Fluxion.Proofs.Paired.Calls

/-!
The canonical form of a function means what the function means: calls of the two go the same way,
although their scopes nest differently.
-/

namespace Fluxion

/-! ### Answers and storage -/

section

variable {K α : Type} {s t t' : Store K}

/-- Stores that hold the same up to where `s` ends are the same up to there. -/
theorem Matches.release_eq (h : Matches (.identity s) t t') :
    t.release s.marks = t'.release s.marks := by
  have heq : ∀ {α : Type} {n : Nat} {xs ys : Array α},
      Twinned (fun i j => i = j ∧ i < n) xs ys → xs.take n = ys.take n := by
    intro α n xs ys hl
    refine Array.ext_getElem? fun i => ?_
    by_cases hi : i < n
    · rw [getElem?_take_of_lt hi, getElem?_take_of_lt hi, hl.getElem?_eq ⟨rfl, hi⟩]
    · have hnone : ∀ zs : Array α, (zs.take n)[i]? = none := fun zs =>
        Array.getElem?_eq_none (by simp; omega)
      rw [hnone, hnone]
  simp only [Store.release, Store.marks]
  rw [heq h.cells, heq h.arrays, heq h.tapes]

theorem Store.release_release (t : Store K) (m : Marks) :
    (t.release m).release m = t.release m := by
  simp [Store.release]

theorem Exec.leaves_inScope (m : Exec K α) (s : Store K) :
    (Exec.inScope m).leaves s = (m.leaves s).release s.marks := by
  unfold Exec.leaves Exec.inScope
  cases m s <;> rfl

end

namespace Machine

variable {K α : Type}

/-- The same value, or errors that differ in the names of variables only. -/
def SameAnswer : Except Stop α → Except Stop α → Prop
  | .ok a, .ok b => a = b
  | .error e, .error e' => e.Alike (fun _ _ => True) e'
  | _, _ => False

theorem sameAnswer_of_agree {P : Pairing} {s s' : Store K} {m m' : Exec K α}
    (h : Agree (fun _ _ => True) P m s m' s' fun _ => Eq) :
    SameAnswer (answer (m s)).1 (answer (m' s')).1 ∧ Matches P (m.leaves s) (m'.leaves s') := by
  unfold Agree at h
  unfold Exec.leaves
  cases hm : m s <;> cases hm' : m' s' <;> rw [hm, hm'] at h
  · obtain ⟨_, hP, hmatch, heq⟩ := h
    exact ⟨heq, hmatch.mono hP⟩
  · exact h.elim
  · exact h.elim
  · exact ⟨h.2, h.1⟩

variable [Scalar K]

theorem leaves_bind_returned (m : Exec K (Eval.Flow K)) (f : Func) (s : Store K) :
    (m >>= returned f).leaves s = m.leaves s := by
  have hkeep : ∀ flow (t : Store K), (returned f flow).leaves t = t := by
    intro flow t
    unfold returned
    split
    · rfl
    · split <;> rfl
  simp only [Exec.leaves, Bind.bind, EStateM.bind] at hkeep ⊢
  cases m s with
  | ok flow t => exact hkeep flow t
  | error e t => rfl

/-- A call gives back what it allocates. -/
theorem release_leaves_callAt (m : Machine K) (limit depth : Nat) {f : Func} {body : List Stmt}
    (hbody : f.body = some body) (bound : List (Bound K)) (s : Store K) :
    ((m.callAt limit (depth + 1) f bound).leaves s).release s.marks =
      (m.callAt limit (depth + 1) f bound).leaves s := by
  simp only [callAt, hbody]
  rw [leaves_bind_returned, Exec.leaves_inScope, Store.release_release]

omit [Scalar K] in
/-- Storage of `s` corresponds to itself. -/
theorem bound_identity {s : Store K} {b : Bound K} (h : b.In s) :
    (Pairing.identity s).bound b b := by
  cases b with
  | value v => rfl
  | slot x =>
    cases x with
    | cell i => exact ⟨rfl, h⟩
    | element a i => exact ⟨⟨rfl, h⟩, rfl⟩
  | array a => exact ⟨rfl, h⟩
  | tape a => exact h.elim

theorem bindArgs_congr {f g : Func} (hname : g.name = f.name) (ps : List Param)
    (args : List (Arg K)) : bindArgs g ps args = bindArgs f ps args := by
  induction ps generalizing args with
  | nil => rfl
  | cons p ps ih =>
    cases args with
    | nil => rfl
    | cons a args =>
      have hfirst : bindArg g p a = bindArg f p a := by
        unfold bindArg
        rw [hname]
      rw [bindArgs, bindArgs, hfirst, ih]

section

variable {m : Machine K} {f g : Func} (hp : Typing.check m.funcs = []) (hf : f ∈ m.funcs)
  (hg : Canonical.canonicalize f = .ok g)

include hp hf hg

omit [Scalar K] in
/-- The canonical form differs from the function in its body, which is arranged from that of the
function; a native function is its own canonical form. -/
theorem arranged_canonicalize : g = f ∨ ∃ body code V, f.body = some body ∧
    g = { f with body := some code } ∧
    Arranged (fun _ _ => True) [] V (fun _ => False) (some []) body code := by
  cases hbody : f.body with
  | none =>
    simp only [Canonical.canonicalize, hbody] at hg
    cases hg
    exact .inl rfl
  | some body =>
    simp only [Canonical.canonicalize, hbody, except_map_eq_ok] at hg
    obtain ⟨code, hcode, rfl⟩ := hg
    obtain ⟨V, _, h⟩ := Canonical.arranged_canonicalBody (Typing.checkFunc_of_check hp hf) hbody hcode
    exact .inr ⟨body, code, V, rfl, rfl, h⟩

/-- Calls of a function and of its canonical form go the same way. -/
theorem agree_callAt_canonicalize (limit depth : Nat) {P : Pairing} {s s' : Store K}
    (hm : Matches P s s') {bs bs' : List (Bound K)} (hb : List.Forall₂ P.bound bs bs') :
    Agree (fun _ _ => True) P (m.callAt limit depth f bs) s (m.callAt limit depth g bs') s'
      fun _ => Eq := by
  have hsteady := steady_callAt (N := fun _ _ => True) (fun _ => trivial) m limit
  rcases arranged_canonicalize hp hf hg with rfl | ⟨body, code, V, hbody, rfl, h⟩
  · exact (hsteady depth).call g hm hb
  cases depth with
  | zero =>
    simp only [callAt, hbody]
    exact .fail hm rfl
  | succ depth => exact agree_callAt_of_arranged (hsteady depth) hbody h hm hb

end

/-- A checked function and its canonical form, called with allocated arguments or run from outside,
end in the same way: with the same value and the same storage, or the same arguments to give back,
or with the same error up to names of variables; and if one does not end, the other does not. -/
theorem canonicalize_preserves_meaning {m : Machine K} {f g : Func}
    (hp : Typing.check m.funcs = []) (hf : f ∈ m.funcs) (hg : Canonical.canonicalize f = .ok g)
    (limit : Nat) :
    (∀ depth bound s, (∀ b ∈ bound, b.In s) →
      SameAnswer (answer (m.callAt limit depth f bound s)).1
          (answer (m.callAt limit depth g bound s)).1 ∧
        (m.callAt limit depth f bound).leaves s = (m.callAt limit depth g bound).leaves s) ∧
      ∀ args s, SameAnswer (answer (m.run limit f args s)).1 (answer (m.run limit g args s)).1 := by
  constructor
  · intro depth bound s hin
    have hbound : List.Forall₂ (Pairing.identity s).bound bound bound :=
      List.forall₂_same.mpr fun b hb => bound_identity (hin b hb)
    have hcall := agree_callAt_canonicalize hp hf hg limit depth (.identity s) hbound
    obtain ⟨hanswer, hmatch⟩ := sameAnswer_of_agree hcall
    refine ⟨hanswer, ?_⟩
    rcases arranged_canonicalize hp hf hg with rfl | ⟨body, code, V, hbody, rfl, _⟩
    · rfl
    cases depth with
    | zero => simp only [callAt, hbody]
    | succ depth =>
      rw [← release_leaves_callAt m limit depth hbody, hmatch.release_eq,
        release_leaves_callAt m limit depth rfl]
  · intro args s
    have hsame : g.name = f.name ∧ g.params = f.params := by
      rcases arranged_canonicalize hp hf hg with rfl | ⟨_, _, _, _, rfl, _⟩ <;> exact ⟨rfl, rfl⟩
    have hrun : Agree (fun _ _ => True) .nothing (m.run limit f args) s (m.run limit g args) s
        fun _ => Eq := by
      unfold run
      rw [hsame.1, hsame.2, bindArgs_congr hsame.1]
      split
      · exact .fail (.nothing s s) rfl
      refine (agree_bindArgs (fun _ => trivial) (.nothing s s) f f.params args).bind
        fun P₁ bs bs' t t' _ ht hb => ?_
      refine (agree_callAt_canonicalize hp hf hg limit maxDepth ht hb).bind_eq
        fun P₂ v u u' hP₂ hu => ?_
      refine .get_bind (.pure hu ?_)
      rw [writeBacks_eq hu (hb.imp fun _ _ h => hP₂.bound h) args]
    exact (sameAnswer_of_agree hrun).1

/-- Declares `y` three times, in a branch that returns, in a block and around both. -/
def shadowing : Func :=
  ⟨"shadowing", [⟨"x", .float⟩, ⟨"out", .ref .float⟩], .float, some [
    .decl ⟨"y", .float, some (.var "x")⟩,
    .cond (.binary .lt (.var "x") (.float 0.0)) [
      .decl ⟨"y", .float, some (.float 2.0)⟩,
      .assign ⟨.var "out", .set, .var "y"⟩,
      .ret (some (.binary .mul (.var "y") (.var "x")))] [],
    .block [
      .decl ⟨"y", .float, some (.binary .add (.var "x") (.float 1.0))⟩,
      .assign ⟨.var "out", .set, .var "y"⟩],
    .ret (some (.var "y"))], default⟩

/-- The same function with each `y` named apart, and all that follows the branch inside it. -/
def shadowingApart : Func :=
  { shadowing with body := some [
    .decl ⟨"y", .float, some (.var "x")⟩,
    .cond (.binary .lt (.var "x") (.float 0.0)) [
      .decl ⟨"y_1", .float, some (.float 2.0)⟩,
      .assign ⟨.var "out", .set, .var "y_1"⟩,
      .ret (some (.binary .mul (.var "y_1") (.var "x")))] [
      .decl ⟨"y_2", .float, some (.binary .add (.var "x") (.float 1.0))⟩,
      .assign ⟨.var "out", .set, .var "y_2"⟩,
      .ret (some (.var "y"))]] }

theorem canonicalize_preserves_meaning_shadowing :
    let m : Machine Float := ⟨[shadowing], []⟩
    let bound : List (Bound Float) := [.value (.float 3.0), .slot (.cell 0)]
    let s : Store Float := ⟨#[.float 0.0], #[], #[]⟩
    Typing.check m.funcs = [] ∧ Canonical.canonicalize shadowing = .ok shadowingApart ∧
      SameAnswer (answer (m.callAt 10 5 shadowing bound s)).1
        (answer (m.callAt 10 5 shadowingApart bound s)).1 ∧
      (m.callAt 10 5 shadowing bound).leaves s = (m.callAt 10 5 shadowingApart bound).leaves s := by
  intro m bound s
  have hp : Typing.check m.funcs = [] := by decide +kernel
  have hg : Canonical.canonicalize shadowing = .ok shadowingApart := by rfl
  have hin : ∀ b ∈ bound, b.In s := by simp [bound, s, Bound.In, Slot.In]
  have hf : shadowing ∈ m.funcs := by simp [m]
  exact ⟨hp, hg, (canonicalize_preserves_meaning hp hf hg 10).1 5 bound s hin⟩

end Machine

end Fluxion
