import Fluxion.Analysis.Usage
import Fluxion.Proofs.Paired.Evaluation
import Fluxion.Proofs.Runs.Expressions

/-!
Code that only adds to some variables. It never reads them, assigns to them by `+=` and `-=` only,
and passes them on at no other positions than those at which the callee only adds to them.
-/

namespace Fluxion

/-- None of the expressions reads a variable of `O`. -/
def unread (O : String → Bool) (parts : List Expr) : Bool :=
  parts.all fun e => (Analysis.readBy e).all fun x => !O x

/-- The positions of the parameters that a function of the name and arity only adds to. -/
abbrev Lends := String → Nat → Nat → Bool

/-- Each argument from position `k` on reads no variable of `O`, or is a place at a position that is
only added to. -/
def handsFrom (O : String → Bool) (L : Nat → Bool) (k : Nat) : List Expr → Bool
  | [] => true
  | e :: es =>
    (unread O e.parts || (L k && e.place?.any fun p => unread O p.parts)) && handsFrom O L (k + 1) es

/-- The expression calls a function, which only adds to what it gets of `O`. -/
def Expr.hands (lends : Lends) (O : String → Bool) : Expr → Bool
  | .call f args => (Intrinsic.ofName? f).isNone && handsFrom O (lends f args.length) 0 args
  | _ => false

/-- The assignment has nothing to do with the variables of `O`. -/
def Assignment.spares (O : String → Bool) (a : Assignment) : Bool :=
  !O a.place.name && unread O a.parts

/-- The first part of a loop header has nothing to do with the variables of `O`. -/
def LoopInit.spares (O : String → Bool) : LoopInit → Bool
  | .decl d => !O d.name && unread O d.parts
  | .assign a => a.spares O

mutual

/-- The statement only adds to the variables of `O`. -/
def Stmt.adds (lends : Lends) (O : String → Bool) : Stmt → Bool
  | .decl d => !O d.name && unread O d.parts
  | .arrayDecl x _ len => !O x && unread O len.parts
  | .assign a => (!O a.place.name || a.op == .add || a.op == .sub) && unread O a.parts
  | .cond test yes no => unread O test.parts && addsAll lends O yes && addsAll lends O no
  | .for_ init test step body =>
    init.all (LoopInit.spares O) && test.all (fun e => unread O e.parts)
      && step.all (Assignment.spares O) && addsAll lends O body
  | .while_ test body => unread O test.parts && addsAll lends O body
  | .ret value => value.all fun e => unread O e.parts
  | .expr e => unread O e.parts || e.hands lends O
  | .block body => addsAll lends O body

/-- The statements only add to the variables of `O`. -/
def addsAll (lends : Lends) (O : String → Bool) : List Stmt → Bool
  | [] => true
  | s :: rest => s.adds lends O && addsAll lends O rest

end

/-- The parameters that the function only adds to. -/
def Func.lent (lends : Lends) (g : Func) (x : String) : Bool :=
  g.params.zipIdx.any fun (p, i) => lends g.name g.params.length i && p.name == x

/-- The function only adds to the storage that it gets for the positions that say so. -/
def Func.adds (lends : Lends) (g : Func) : Bool :=
  (g.params.zipIdx.all fun (p, i) => !lends g.name g.params.length i || p.ty.isShared)
    && decide (g.params.map (·.name)).Nodup && g.body.any (addsAll lends (g.lent lends))

/-- Such a function shares what it is lent with its caller, names it once and has a body. -/
theorem Func.of_adds {lends : Lends} {g : Func} (h : g.adds lends = true) :
    (∀ i p, lends g.name g.params.length i = true → g.params[i]? = some p →
      p.ty.isShared = true) ∧ (g.params.map (·.name)).Nodup ∧
    ∃ body, g.body = some body ∧ addsAll lends (g.lent lends) body = true := by
  simp only [Func.adds, Bool.and_eq_true, List.all_eq_true, decide_eq_true_eq] at h
  obtain ⟨⟨hshared, hdistinct⟩, hbody⟩ := h
  refine ⟨fun i p hL hp => ?_, hdistinct, (Option.any_eq_true _ _).mp hbody⟩
  simpa [hL] using hshared (p, i) (List.mk_mem_zipIdx_iff_getElem?.mpr hp)

/-! ### Reading nothing of `O` -/

section

variable {O : String → Bool}

theorem unread_iff {parts : List Expr} :
    unread O parts = true ↔ ∀ part ∈ parts, (Rule.uses fun x => O x = false).part part := by
  rw [unread, List.all_eq_true]
  refine forall₂_congr fun part _ => ?_
  cases part <;> simp [Analysis.readBy, Rule.uses]

@[simp] theorem unread_nil : unread O [] = true := rfl

@[simp] theorem unread_append {ps qs : List Expr} :
    unread O (ps ++ qs) = (unread O ps && unread O qs) := List.all_append

@[simp] theorem unread_float (v : Float) : unread O (Expr.float v).parts = true := by
  simp [unread, Expr.parts, Analysis.readBy]

@[simp] theorem unread_int (v : Int64) : unread O (Expr.int v).parts = true := by
  simp [unread, Expr.parts, Analysis.readBy]

@[simp] theorem unread_bool (v : Bool) : unread O (Expr.bool v).parts = true := by
  simp [unread, Expr.parts, Analysis.readBy]

@[simp] theorem unread_funcRef (f : String) : unread O (Expr.funcRef f).parts = true := by
  simp [unread, Expr.parts, Analysis.readBy]

@[simp] theorem unread_var (x : String) : unread O (Expr.var x).parts = !O x := by
  simp [unread, Expr.parts, Analysis.readBy]

@[simp] theorem unread_index (x : String) (i : Expr) :
    unread O (Expr.index x i).parts = (!O x && unread O i.parts) := by
  simp [unread, Expr.parts, Analysis.readBy]

@[simp] theorem unread_unary (op : UnOp) (e : Expr) :
    unread O (Expr.unary op e).parts = unread O e.parts := by
  simp [unread, Expr.parts, Analysis.readBy]

@[simp] theorem unread_binary (op : BinOp) (l r : Expr) :
    unread O (Expr.binary op l r).parts = (unread O l.parts && unread O r.parts) := by
  simp [unread, Expr.parts, Analysis.readBy]

@[simp] theorem unread_call (f : String) (args : List Expr) :
    unread O (Expr.call f args).parts = args.all fun e => unread O e.parts := by
  have hargs : unread O (Expr.partsList args) = args.all fun e => unread O e.parts := by
    induction args with
    | nil => rfl
    | cons e es ih => rw [Expr.partsList, unread_append, ih, List.all_cons]
  rw [← hargs]
  simp [unread, Expr.parts, Analysis.readBy]

theorem unread_mono {O' : String → Bool} (hO : ∀ x, O' x = true → O x = true) {parts : List Expr}
    (h : unread O parts = true) : unread O' parts = true := by
  rw [unread_iff] at h ⊢
  intro part hpart
  have hfree : ∀ x, O x = false → O' x = false := fun x hx => by
    by_contra hx'
    rw [hO x (by simpa using hx')] at hx
    cases hx
  have := h part hpart
  cases part <;> first | exact hfree _ this | trivial

/-- What is read of a place is its name and its index. -/
theorem unread_place {e : Expr} {p : Place} (h : e.place? = some p) :
    unread O e.parts = (!O p.name && unread O p.parts) := by
  cases e <;> cases h <;> simp [Place.name, Place.parts]

end

/-! ### Code beside the variables of `O` -/

section

variable {K : Type} {O : String → Bool} {A : Guard} {W : Writable} {funcs : Program}

/-- Code that reads no name of `O` passes none on. -/
theorem Guard.part_of_unread (hpops : A.pops) {part : Expr} (h : unread O part.parts = true) :
    (A.rule W funcs fun x => O x = true).part part := by
  cases part with
  | call f args =>
    simp only [Guard.rule]
    split
    · exact hpops
    · exact hpops
    · trivial
    · intro g _ _ i e place _ he hplace
      rw [unread_call, List.all_eq_true] at h
      have hread := h e (List.mem_of_getElem? he)
      rw [unread_place hplace, Bool.and_eq_true] at hread
      simpa using hread.1
  | _ => trivial

end

end Fluxion
