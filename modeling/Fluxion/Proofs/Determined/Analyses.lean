import Fluxion.Analysis.Writes
import Fluxion.Canonical.Returns
import Fluxion.Proofs.Typing.Overload

/-!
The analyses end. Each is the one solution of the equation that it is meant to solve: the search
for written parameters without a limit, and the walks that go through a branch by putting what
follows it after each of its sides. Were some call to lead back to itself, there would be several.
-/

namespace Fluxion

/-- `f` solves a recursive equation, and nothing else does. -/
structure Determines {α : Type} (step : α → α) (f : α) : Prop where
  solves : step f = f
  only : ∀ g, step g = g → g = f

/-- A solution of an equation that asks only for what is smaller is the only one. -/
theorem Determines.of_smaller {α β : Type} {step : (α → β) → α → β} {f : α → β} (size : α → Nat)
    (solves : step f = f)
    (smaller : ∀ g a, (∀ b, size b < size a → g b = f b) → step g a = step f a) :
    Determines step f where
  solves := solves
  only := by
    intro g hg
    have hat : ∀ n a, size a < n → g a = f a := by
      intro n
      induction n with
      | zero => exact fun a ha => absurd ha (Nat.not_lt_zero _)
      | succ n ih =>
        intro a ha
        calc g a = step g a := by rw [hg]
          _ = step f a := smaller g a fun b hb => ih b (by omega)
          _ = f a := by rw [solves]
    funext a
    exact hat _ a (Nat.lt_succ_self _)

namespace Analysis

/-! ### Written parameters -/

/-- Parameters of a function that may be written, where `visit` looks into the functions that it
calls. -/
def writtenStep (resolve : Resolver) (visit : List Signature → Func → Written)
    (seen : List Signature) (f : Func) : Written :=
  match f.body with
  | none => (positions f (·.ty.isRef), seen)
  | some body =>
    if seen.contains f.signature then ([], seen)
    else
      let names := paramsWritten f
      let direct := positions f fun p => p.ty.isShared && names.contains p.name
      let (passed, seen) := writtenByCalls resolve visit f (f.signature :: seen) (calls body)
      (direct ++ passed, seen)

theorem writtenFrom_succ (resolve : Resolver) (limit : Nat) :
    writtenFrom resolve (limit + 1) = writtenStep resolve (writtenFrom resolve limit) := by
  funext seen f
  unfold writtenFrom writtenStep
  rfl

section

variable {resolve : Resolver}

/-- Whatever is known of the functions looked into by now, the calls of a function only need what
`visit` gives from there on. -/
theorem writtenByCalls_congr {visit visit' : List Signature → Func → Written}
    {P : List Signature → Prop}
    (h : ∀ seen, P seen → ∀ name types callee, resolve name types = some callee →
      visit seen callee = visit' seen callee ∧ P (visit' seen callee).2)
    (f : Func) (found : List (String × List Expr)) (seen : List Signature) (hseen : P seen) :
    writtenByCalls resolve visit f seen found = writtenByCalls resolve visit' f seen found := by
  induction found generalizing seen with
  | nil => rfl
  | cons call rest ih =>
    obtain ⟨name, args⟩ := call
    unfold writtenByCalls
    split
    · exact ih seen hseen
    · split
      · exact ih seen hseen
      · rename_i callee hcallee
        obtain ⟨types, _, hresolve⟩ := Option.bind_eq_some_iff.mp hcallee
        obtain ⟨hvisit, hnext⟩ := h seen hseen name types callee hresolve
        simp only [hvisit, ih _ hnext]

theorem subset_writtenByCalls {visit : List Signature → Func → Written}
    (h : ∀ seen callee, seen ⊆ (visit seen callee).2) (f : Func)
    (found : List (String × List Expr)) (seen : List Signature) :
    seen ⊆ (writtenByCalls resolve visit f seen found).2 := by
  induction found generalizing seen with
  | nil => exact fun _ hmem => hmem
  | cons call rest ih =>
    obtain ⟨name, args⟩ := call
    unfold writtenByCalls
    split
    · exact ih seen
    · split
      · exact ih seen
      · rename_i callee _
        exact fun _ hmem => ih _ (h seen callee hmem)

/-- A function that was looked into stays known. -/
theorem subset_writtenFrom (limit : Nat) (seen : List Signature) (f : Func) :
    seen ⊆ (writtenFrom resolve limit seen f).2 := by
  induction limit generalizing seen f with
  | zero => exact fun _ hmem => hmem
  | succ limit ih =>
    rw [writtenFrom_succ, writtenStep]
    split
    · exact fun _ hmem => hmem
    · split
      · exact fun _ hmem => hmem
      · exact fun sig hmem =>
          subset_writtenByCalls ih f _ (f.signature :: seen) (List.mem_cons_of_mem _ hmem)

end

section

variable {h : Host}

/-- The functions that a host's calls reach are its own. -/
theorem mem_of_hostResolve {name : String} {types : List Ty} {f : Func}
    (hf : h.resolve name types = some f) : f ∈ h.derived ++ h.program := by
  rcases Option.or_eq_some_iff.mp hf with hd | ⟨_, hp⟩
  · exact List.mem_append_left _ (mem_of_resolve hd).1
  · exact List.mem_append_right _ (mem_of_resolve hp).1

/-- The number of functions of a host that were not looked into so far. -/
def unseen (h : Host) (seen : List Signature) : Nat :=
  (h.derived ++ h.program).countP fun f => !seen.contains f.signature

theorem unseen_le {seen seen' : List Signature} (hsub : seen ⊆ seen') :
    unseen h seen' ≤ unseen h seen := by
  refine List.countP_mono_left fun f _ hf => ?_
  simp only [Bool.not_eq_true', List.contains_eq_mem, decide_eq_false_iff_not] at hf ⊢
  exact fun hmem => hf (hsub hmem)

theorem unseen_le_size (seen : List Signature) : unseen h seen ≤ h.size := by
  calc unseen h seen ≤ (h.derived ++ h.program).length := List.countP_le_length
    _ = h.size := by rw [List.length_append, Host.size, Nat.add_comm]

theorem unseen_cons_lt {seen : List Signature} {f : Func} (hf : f ∈ h.derived ++ h.program)
    (hseen : seen.contains f.signature = false) :
    unseen h (f.signature :: seen) < unseen h seen := by
  obtain ⟨before, after, hsplit⟩ := List.append_of_mem hf
  have hrest : ∀ fs : List Func, fs.countP (fun g => !(f.signature :: seen).contains g.signature) ≤
      fs.countP fun g => !seen.contains g.signature := by
    intro fs
    refine List.countP_mono_left fun g _ hg => ?_
    simp only [List.contains_cons, Bool.not_or, Bool.and_eq_true] at hg
    exact hg.2
  have hbefore := hrest before
  have hafter := hrest after
  simp only [unseen, hsplit, List.countP_append, List.countP_cons, List.contains_cons, BEq.rfl,
    Bool.true_or, Bool.not_true, hseen, Bool.not_false] at hbefore hafter ⊢
  simp only [Bool.false_eq_true, if_false, if_true]
  omega

/-- One step of the search agrees under two ways to look into callees, where these agree on the
functions of the host when fewer of them are left. -/
theorem writtenStep_congr {visit visit' : List Signature → Func → Written}
    (grows : ∀ seen callee, seen ⊆ (visit' seen callee).2) {seen : List Signature} {f : Func}
    (hvisit : ∀ seen' callee, callee ∈ h.derived ++ h.program →
      (f ∈ h.derived ++ h.program → unseen h seen' < unseen h seen) →
      visit seen' callee = visit' seen' callee) :
    writtenStep h.resolve visit seen f = writtenStep h.resolve visit' seen f := by
  unfold writtenStep
  split
  · rfl
  · split
    · rfl
    · rename_i body _ hseen
      have hfewer : ∀ seen', f.signature :: seen ⊆ seen' → f ∈ h.derived ++ h.program →
          unseen h seen' < unseen h seen := by
        intro seen' hsub hf
        exact Nat.lt_of_le_of_lt (unseen_le hsub) (unseen_cons_lt hf (by simpa using hseen))
      rw [writtenByCalls_congr (P := fun seen' => f.signature :: seen ⊆ seen')
        (fun seen' hsub name types callee hresolve =>
          ⟨hvisit seen' callee (mem_of_hostResolve hresolve) (hfewer seen' hsub),
            fun _ hmem => grows _ _ (hsub hmem)⟩)
        f (calls body) _ fun _ hmem => hmem]

/-- A limit that leaves room for every function not looked into so far makes no difference. -/
theorem writtenFrom_eq {limit limit' : Nat} {seen : List Signature} {f : Func}
    (hf : f ∈ h.derived ++ h.program) (hlimit : unseen h seen < limit)
    (hlimit' : unseen h seen < limit') :
    writtenFrom h.resolve limit seen f = writtenFrom h.resolve limit' seen f := by
  induction limit generalizing limit' seen f with
  | zero => omega
  | succ limit ih =>
    obtain ⟨limit', rfl⟩ : ∃ n, limit' = n + 1 := ⟨limit' - 1, by omega⟩
    rw [writtenFrom_succ, writtenFrom_succ]
    refine writtenStep_congr (subset_writtenFrom limit') fun seen' callee hcallee hfewer => ?_
    have := hfewer hf
    exact ih hcallee (by omega) (by omega)

/-- The search for the parameters that a function may write ends by itself: with a limit of all
functions of the host and two more it is the search without one. -/
theorem determines_writtenFrom (h : Host) :
    Determines (writtenStep h.resolve) (writtenFrom h.resolve (h.size + 2)) := by
  have hsolves : writtenStep h.resolve (writtenFrom h.resolve (h.size + 2)) =
      writtenFrom h.resolve (h.size + 2) := by
    funext seen f
    rw [writtenFrom_succ h.resolve (h.size + 1)]
    refine writtenStep_congr (subset_writtenFrom _) fun seen' callee hcallee _ => ?_
    have hsize : unseen h seen' ≤ h.size := unseen_le_size seen'
    have hlimit : unseen h seen' < h.size + 1 := by omega
    exact writtenFrom_eq hcallee (Nat.lt_succ_of_lt hlimit) hlimit
  refine ⟨hsolves, fun visit hstep => ?_⟩
  -- Functions of the host first, for which each call leaves fewer of them to look into.
  have hhost : ∀ n seen callee, callee ∈ h.derived ++ h.program → unseen h seen < n →
      visit seen callee = writtenFrom h.resolve (h.size + 2) seen callee := by
    intro n
    induction n with
    | zero => exact fun _ _ _ hn => absurd hn (Nat.not_lt_zero _)
    | succ n ih =>
      intro seen callee hcallee hn
      rw [← hstep, ← hsolves]
      refine writtenStep_congr (subset_writtenFrom _) fun seen' g hg hfewer => ?_
      have := hfewer hcallee
      exact ih seen' g hg (by omega)
  funext seen f
  rw [← hstep, ← hsolves]
  exact writtenStep_congr (subset_writtenFrom _) fun seen' g hg _ =>
    hhost _ seen' g hg (Nat.lt_succ_self _)

end

end Analysis

/-! ### Paths -/

theorem sizeOf_lt_cons (s : Stmt) (rest : List Stmt) : sizeOf rest < sizeOf (s :: rest) := by
  simp only [List.cons.sizeOf_spec]
  omega

/-- The statements of a branch, with what follows it after them, are smaller than the branch with
what follows. -/
theorem sizeOf_append_lt_cons {s : Stmt} {side : List Stmt} (hside : sizeOf side < sizeOf s)
    (rest : List Stmt) : sizeOf (side ++ rest) < sizeOf (s :: rest) := by
  have happend : sizeOf (side ++ rest) + 1 = sizeOf side + sizeOf rest := by
    induction side with
    | nil => simp [Nat.add_comm]
    | cons t side ih =>
      simp only [List.cons_append, List.cons.sizeOf_spec] at ih hside ⊢
      have := ih (by omega)
      omega
  simp only [List.cons.sizeOf_spec]
  omega

section

variable (test : Expr) (yes no body : List Stmt)

theorem sizeOf_yes_lt : sizeOf yes < sizeOf (Stmt.cond test yes no) := by
  simp only [Stmt.cond.sizeOf_spec]
  omega

theorem sizeOf_no_lt : sizeOf no < sizeOf (Stmt.cond test yes no) := by
  simp only [Stmt.cond.sizeOf_spec]
  omega

theorem sizeOf_block_lt : sizeOf body < sizeOf (Stmt.block body) := by
  simp only [Stmt.block.sizeOf_spec]
  omega

end

namespace Analysis

variable (recursive : String → Bool)

/-- Some path through statements avoids the functions that `recursive` holds of, where `exits`
tells this of the statements that a path goes on with. -/
def exitsStep (exits : List Stmt → Bool) : List Stmt → Bool
  | [] => true
  | s :: rest =>
    match s with
    | .ret value => !value.any (·.mentions recursive)
    | .cond test yes no =>
      !test.mentions recursive && (exits (yes ++ rest) || exits (no ++ rest))
    | .for_ init test _ _ =>
      !(init.any (initMentions recursive) || test.any (·.mentions recursive)) && exits rest
    | .while_ test _ => !test.mentions recursive && exits rest
    | .block body => exits (body ++ rest)
    | s => !stmtMentions recursive s && exits rest

theorem exitsOnto_append (xs ys : List Stmt) (after : Bool) :
    exitsOnto recursive (xs ++ ys) after =
      exitsOnto recursive xs (exitsOnto recursive ys after) := by
  induction xs with
  | nil => simp only [List.nil_append, exitsOnto]
  | cons s xs ih => simp only [List.cons_append, exitsOnto, ih]

/-- The search for a path ends, although each side of a branch is followed by all that comes after
the branch. -/
theorem determines_exitsCleanly :
    Determines (exitsStep recursive) (exitsCleanly recursive) := by
  refine .of_smaller sizeOf ?_ fun exits body hsmaller => ?_
  · funext body
    cases body with
    | nil => rfl
    | cons s rest =>
      cases s <;> simp only [exitsStep, exitsCleanly, exitsOnto, exitsStmt, exitsOnto_append]
  · cases body with
    | nil => rfl
    | cons s rest =>
      have hrest := hsmaller rest (sizeOf_lt_cons s rest)
      cases s with
      | cond test yes no =>
        simp only [exitsStep, hsmaller _ (sizeOf_append_lt_cons (sizeOf_yes_lt test yes no) rest),
          hsmaller _ (sizeOf_append_lt_cons (sizeOf_no_lt test yes no) rest)]
      | block body =>
        simp only [exitsStep, hsmaller _ (sizeOf_append_lt_cons (sizeOf_block_lt body) rest)]
      | _ => simp only [exitsStep, hrest]

end Analysis

namespace Canonical

/-- Moves the returns of statements to the end, where `lift` does so for the statements that a
branch goes on with. -/
def liftStep (lift : List Stmt → Lifted) : List Stmt → Lifted
  | [] => .ok []
  | s :: rest =>
    match s with
    | .ret value => .ok [.ret value]
    | .cond test yes no =>
      if hasReturnIn yes || hasReturnIn no then do
        let yes ← lift (yes ++ rest)
        let no ← lift (no ++ rest)
        return [.cond test yes no]
      else (lift rest).map (.cond test yes no :: ·)
    | .block body =>
      if hasReturnIn body then lift (body ++ rest) else (lift rest).map (.block body :: ·)
    | .for_ init test step body =>
      if hasReturnIn body then .error .mk else (lift rest).map (.for_ init test step body :: ·)
    | .while_ test body =>
      if hasReturnIn body then .error .mk else (lift rest).map (.while_ test body :: ·)
    | s => (lift rest).map (s :: ·)

theorem liftOnto_append (xs ys : List Stmt) (after : Lifted) :
    liftOnto (xs ++ ys) after = liftOnto xs (liftOnto ys after) := by
  induction xs with
  | nil => simp only [List.nil_append, liftOnto]
  | cons s xs ih => simp only [List.cons_append, liftOnto, ih]

/-- Moving returns ends, although what follows a branch that may return is copied into both of
its sides. -/
theorem determines_liftReturns : Determines liftStep liftReturns := by
  refine .of_smaller sizeOf ?_ fun lift body hsmaller => ?_
  · funext body
    cases body with
    | nil => rfl
    | cons s rest =>
      cases s <;> simp only [liftStep, liftReturns, liftOnto, liftStmt, liftOnto_append]
  · cases body with
    | nil => rfl
    | cons s rest =>
      have hrest := hsmaller rest (sizeOf_lt_cons s rest)
      cases s with
      | cond test yes no =>
        simp only [liftStep, hrest,
          hsmaller _ (sizeOf_append_lt_cons (sizeOf_yes_lt test yes no) rest),
          hsmaller _ (sizeOf_append_lt_cons (sizeOf_no_lt test yes no) rest)]
      | block body =>
        simp only [liftStep, hrest, hsmaller _ (sizeOf_append_lt_cons (sizeOf_block_lt body) rest)]
      | _ => simp only [liftStep, hrest]

end Canonical

end Fluxion
