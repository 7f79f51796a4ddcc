import Mathlib.Data.List.Basic
import Fluxion.Lang.Func

/-!
Rules that code keeps to. A rule says something about each expression, each place that is assigned
to and each local that is declared, wherever it stands in a statement.
-/

namespace Fluxion

/-- Induction on an expression; in a call it is on all arguments. -/
@[elab_as_elim]
theorem Expr.induct {P : Expr → Prop} (float : ∀ v, P (.float v)) (int : ∀ v, P (.int v))
    (bool : ∀ v, P (.bool v)) (var : ∀ x, P (.var x)) (index : ∀ x i, P i → P (.index x i))
    (unary : ∀ op e, P e → P (.unary op e)) (binary : ∀ op l r, P l → P r → P (.binary op l r))
    (call : ∀ f args, (∀ e ∈ args, P e) → P (.call f args)) (funcRef : ∀ f, P (.funcRef f))
    (e : Expr) : P e :=
  Expr.rec (motive_2 := fun es => ∀ e ∈ es, P e) float int bool var index unary binary call
    funcRef (by simp) (fun _ _ he hes => List.forall_mem_cons.mpr ⟨he, hes⟩) e

/-- The locals that the first part of a loop header declares. -/
def LoopInit.locals : LoopInit → List Local
  | .decl d => [d]
  | .assign _ => []

mutual

/-- The locals that a statement declares, at any depth. -/
def Stmt.locals : Stmt → List Local
  | .decl d => [d]
  | .arrayDecl x elem _ => [⟨x, .arrayOf elem, none⟩]
  | .cond _ yes no => localsIn yes ++ localsIn no
  | .for_ init _ _ body => (init.map LoopInit.locals).getD [] ++ localsIn body
  | .while_ _ body => localsIn body
  | .block body => localsIn body
  | .assign _ | .ret _ | .expr _ => []

/-- The locals that statements declare. -/
def localsIn : List Stmt → List Local
  | [] => []
  | s :: rest => s.locals ++ localsIn rest

end

/-- What is asked of code. An array is declared as a local without an initial value. -/
structure Rule where
  part : Expr → Prop
  target : Place → Prop
  declares : Local → Prop
  returns : Prop

namespace Rule

variable {R R' : Rule}

/-- Every part of the expression keeps to the rule. -/
def Expr (R : Rule) (e : Fluxion.Expr) : Prop := ∀ part ∈ e.parts, R.part part

def Exprs (R : Rule) (es : List Fluxion.Expr) : Prop := ∀ e ∈ es, R.Expr e

def Place (R : Rule) (p : Fluxion.Place) : Prop := ∀ part ∈ p.parts, R.part part

def Assignment (R : Rule) (a : Fluxion.Assignment) : Prop :=
  R.target a.place ∧ R.Place a.place ∧ R.Expr a.value

def Local (R : Rule) (d : Fluxion.Local) : Prop :=
  R.declares d ∧ ∀ e, d.init = some e → R.Expr e

def Array (R : Rule) (x : String) (elem : Ty) (len : Fluxion.Expr) : Prop :=
  R.declares ⟨x, .arrayOf elem, none⟩ ∧ R.Expr len

def Init (R : Rule) : LoopInit → Prop
  | .decl d => R.Local d
  | .assign a => R.Assignment a

mutual

/-- The statement keeps to the rule. -/
def Stmt (R : Rule) : Fluxion.Stmt → Prop
  | .decl d => R.Local d
  | .arrayDecl x elem len => R.Array x elem len
  | .assign a => R.Assignment a
  | .cond test yes no => R.Expr test ∧ R.Body yes ∧ R.Body no
  | .for_ init test step body =>
    (∀ i, init = some i → R.Init i) ∧ (∀ e, test = some e → R.Expr e) ∧
      (∀ a, step = some a → R.Assignment a) ∧ R.Body body
  | .while_ test body => R.Expr test ∧ R.Body body
  | .ret value => R.returns ∧ ∀ e, value = some e → R.Expr e
  | .expr e => R.Expr e
  | .block body => R.Body body

/-- The statements keep to the rule. -/
def Body (R : Rule) : List Fluxion.Stmt → Prop
  | [] => True
  | s :: rest => R.Stmt s ∧ R.Body rest

end

/-! ### Expressions -/

section

variable {x f : String} {e l r : Fluxion.Expr} {es : List Fluxion.Expr}

theorem expr_var : R.Expr (.var x) ↔ R.part (.var x) := by simp [Expr, Expr.parts]

theorem expr_index : R.Expr (.index x e) ↔ R.part (.index x e) ∧ R.Expr e := by
  simp [Expr, Expr.parts]

theorem expr_unary {op : UnOp} : R.Expr (.unary op e) ↔ R.part (.unary op e) ∧ R.Expr e := by
  simp [Expr, Expr.parts]

theorem expr_binary {op : BinOp} :
    R.Expr (.binary op l r) ↔ R.part (.binary op l r) ∧ R.Expr l ∧ R.Expr r := by
  simp only [Expr, Expr.parts, List.mem_cons, List.mem_append]
  constructor
  · intro h
    exact ⟨h _ (.inl rfl), fun p hp => h p (.inr (.inl hp)), fun p hp => h p (.inr (.inr hp))⟩
  · rintro ⟨h, hl, hr⟩ p (rfl | hp | hp)
    · exact h
    · exact hl p hp
    · exact hr p hp

theorem mem_partsList {part : Fluxion.Expr} :
    part ∈ Expr.partsList es ↔ ∃ e ∈ es, part ∈ e.parts := by
  induction es with
  | nil => simp [Expr.partsList]
  | cons e es ih => simp [Expr.partsList, ih]

theorem expr_call : R.Expr (.call f es) ↔ R.part (.call f es) ∧ R.Exprs es := by
  simp only [Expr, Exprs, Expr.parts, List.mem_cons, mem_partsList]
  constructor
  · intro h
    exact ⟨h _ (.inl rfl), fun e he p hp => h p (.inr ⟨e, he, hp⟩)⟩
  · rintro ⟨h, hes⟩ p (rfl | ⟨e, he, hp⟩)
    · exact h
    · exact hes e he p hp

theorem exprs_nil : R.Exprs [] := by simp [Exprs]

theorem exprs_cons : R.Exprs (e :: es) ↔ R.Expr e ∧ R.Exprs es := by simp [Exprs]

end

mutual

/-- Parts of a part are parts. -/
theorem expr_of_mem_parts : ∀ {e p : Fluxion.Expr}, R.Expr e → p ∈ e.parts → R.Expr p
  | .float _, p, h, hp | .int _, p, h, hp | .bool _, p, h, hp | .var _, p, h, hp
  | .funcRef _, p, h, hp => by
    obtain rfl := List.mem_singleton.mp hp
    exact h
  | .index x i, p, h, hp => by
    rcases List.mem_cons.mp hp with rfl | hp
    · exact h
    · exact expr_of_mem_parts (expr_index.mp h).2 hp
  | .unary op e, p, h, hp => by
    rcases List.mem_cons.mp hp with rfl | hp
    · exact h
    · exact expr_of_mem_parts (expr_unary.mp h).2 hp
  | .binary op l r, p, h, hp => by
    obtain ⟨_, hl, hr⟩ := expr_binary.mp h
    rcases List.mem_cons.mp hp with rfl | hp
    · exact h
    · rcases List.mem_append.mp hp with hp | hp
      · exact expr_of_mem_parts hl hp
      · exact expr_of_mem_parts hr hp
  | .call f args, p, h, hp => by
    rcases List.mem_cons.mp hp with rfl | hp
    · exact h
    · exact expr_of_mem_partsList (expr_call.mp h).2 hp

theorem expr_of_mem_partsList : ∀ {es : List Fluxion.Expr} {p : Fluxion.Expr},
    R.Exprs es → p ∈ Expr.partsList es → R.Expr p
  | [], _, _, hp => by cases hp
  | e :: es, p, h, hp => by
    obtain ⟨he, hes⟩ := exprs_cons.mp h
    rcases List.mem_append.mp hp with hp | hp
    · exact expr_of_mem_parts he hp
    · exact expr_of_mem_partsList hes hp

end

/-! ### Statements -/

theorem body_iff {p : List Fluxion.Stmt} : R.Body p ↔ ∀ s ∈ p, R.Stmt s := by
  induction p with
  | nil => simp [Body]
  | cons s rest ih => simp [Body, ih]

/-! ### Rules by lists -/

theorem assignment_of_mem {a : Fluxion.Assignment} (hp : ∀ part ∈ a.parts, R.part part)
    (ha : R.target a.place) : R.Assignment a := by
  simp only [Assignment.parts, List.mem_append] at hp
  exact ⟨ha, fun p hmem => hp p (.inl hmem), fun p hmem => hp p (.inr hmem)⟩

theorem local_of_mem {d : Fluxion.Local} (hp : ∀ part ∈ d.parts, R.part part)
    (hd : R.declares d) : R.Local d := by
  refine ⟨hd, fun e he p hmem => hp p ?_⟩
  simpa [Local.parts, he] using hmem

theorem init_of_mem {i : LoopInit} (hp : ∀ part ∈ i.parts, R.part part)
    (ha : ∀ a ∈ i.assignments, R.target a.place) (hd : ∀ d ∈ i.locals, R.declares d) :
    R.Init i := by
  cases i with
  | decl d => exact local_of_mem hp (hd d (List.mem_singleton_self d))
  | assign a => exact assignment_of_mem hp (ha a (List.mem_singleton_self a))

mutual

/-- A statement keeps to a rule when all that it consists of does. -/
theorem stmt_of_mem (hret : R.returns) : ∀ {s : Fluxion.Stmt}, (∀ part ∈ s.parts, R.part part) →
    (∀ a ∈ s.assignments, R.target a.place) → (∀ d ∈ s.locals, R.declares d) → R.Stmt s
  | .decl d, hp, _, hd => local_of_mem hp (hd d (List.mem_singleton_self d))
  | .arrayDecl x elem len, hp, _, hd => ⟨hd _ (List.mem_singleton_self _), hp⟩
  | .assign a, hp, ha, _ => assignment_of_mem hp (ha a (List.mem_singleton_self a))
  | .cond test yes no, hp, ha, hd => by
    simp only [Stmt.parts, Stmt.assignments, Stmt.locals, List.mem_append] at hp ha hd
    exact ⟨fun p h => hp p (.inl h),
      body_of_mem hret (fun p h => hp p (.inr (.inl h))) (fun a h => ha a (.inl h))
        fun d h => hd d (.inl h),
      body_of_mem hret (fun p h => hp p (.inr (.inr h))) (fun a h => ha a (.inr h))
        fun d h => hd d (.inr h)⟩
  | .for_ init test step body, hp, ha, hd => by
    simp only [Stmt.parts, Stmt.assignments, Stmt.locals, List.mem_append] at hp ha hd
    refine ⟨fun i hi => ?_, fun e he p h => ?_, fun a hstep => ?_,
      body_of_mem hret (fun p h => hp p (.inr h)) (fun a h => ha a (.inr h))
        fun d h => hd d (.inr h)⟩
    · subst hi
      exact init_of_mem (fun p h => hp p (.inl (.inl (.inl h)))) (fun a h => ha a (.inl (.inl h)))
        fun d h => hd d (.inl h)
    · subst he
      exact hp p (.inl (.inl (.inr h)))
    · subst hstep
      exact assignment_of_mem (fun p h => hp p (.inl (.inr h)))
        (ha a (.inl (.inr (by simp))))
  | .while_ test body, hp, ha, hd => by
    simp only [Stmt.parts, Stmt.assignments, Stmt.locals, List.mem_append] at hp ha hd
    exact ⟨fun p h => hp p (.inl h), body_of_mem hret (fun p h => hp p (.inr h)) ha hd⟩
  | .ret value, hp, _, _ => by
    refine ⟨hret, fun e he p h => ?_⟩
    subst he
    exact hp p h
  | .expr e, hp, _, _ => hp
  | .block body, hp, ha, hd => body_of_mem hret hp ha hd

theorem body_of_mem (hret : R.returns) : ∀ {body : List Fluxion.Stmt},
    (∀ part ∈ partsOf body, R.part part) → (∀ a ∈ assignmentsIn body, R.target a.place) →
    (∀ d ∈ localsIn body, R.declares d) → R.Body body
  | [], _, _, _ => trivial
  | s :: rest, hp, ha, hd => by
    simp only [partsOf, assignmentsIn, localsIn, List.mem_append] at hp ha hd
    exact ⟨stmt_of_mem hret (fun p h => hp p (.inl h)) (fun a h => ha a (.inl h))
        fun d h => hd d (.inl h),
      body_of_mem hret (fun p h => hp p (.inr h)) (fun a h => ha a (.inr h))
        fun d h => hd d (.inr h)⟩

end

theorem part_of_local {d : Fluxion.Local} (h : R.Local d) : ∀ part ∈ d.parts, R.part part := by
  obtain ⟨x, ty, init⟩ := d
  cases init with
  | none => simp [Local.parts]
  | some e => exact h.2 e rfl

/-! ### Weaker rules -/

/-- The first rule asks for all that the second asks for. -/
structure Implies (R R' : Rule) : Prop where
  part : ∀ e, R.part e → R'.part e
  target : ∀ p, R.target p → R'.target p
  declares : ∀ d, R.declares d → R'.declares d
  returns : R.returns → R'.returns

namespace Implies

theorem expr (h : R.Implies R') {e : Fluxion.Expr} (he : R.Expr e) : R'.Expr e :=
  fun p hp => h.part p (he p hp)

theorem assignment (h : R.Implies R') {a : Fluxion.Assignment} (ha : R.Assignment a) :
    R'.Assignment a :=
  ⟨h.target _ ha.1, fun p hp => h.part p (ha.2.1 p hp), h.expr ha.2.2⟩

theorem declared (h : R.Implies R') {d : Fluxion.Local} (hd : R.Local d) : R'.Local d :=
  ⟨h.declares d hd.1, fun e he => h.expr (hd.2 e he)⟩

theorem init (h : R.Implies R') {i : LoopInit} (hi : R.Init i) : R'.Init i := by
  cases i with
  | decl d => exact h.declared hi
  | assign a => exact h.assignment hi

mutual

theorem stmt (h : R.Implies R') : ∀ {s : Fluxion.Stmt}, R.Stmt s → R'.Stmt s
  | .decl _, hs => h.declared hs
  | .arrayDecl _ _ _, hs => ⟨h.declares _ hs.1, h.expr hs.2⟩
  | .assign _, hs => h.assignment hs
  | .cond _ _ _, hs => ⟨h.expr hs.1, h.body hs.2.1, h.body hs.2.2⟩
  | .for_ _ _ _ _, hs =>
    ⟨fun i hi => h.init (hs.1 i hi), fun e he => h.expr (hs.2.1 e he),
      fun a ha => h.assignment (hs.2.2.1 a ha), h.body hs.2.2.2⟩
  | .while_ _ _, hs => ⟨h.expr hs.1, h.body hs.2⟩
  | .ret _, hs => ⟨h.returns hs.1, fun e he => h.expr (hs.2 e he)⟩
  | .expr _, hs => h.expr hs
  | .block _, hs => h.body hs

theorem body (h : R.Implies R') : ∀ {p : List Fluxion.Stmt}, R.Body p → R'.Body p
  | [], _ => trivial
  | _ :: _, hp => ⟨h.stmt hp.1, h.body hp.2⟩

end

end Implies

/-! ### Two rules at once -/

/-- What both rules ask for. -/
def inter (R R' : Rule) : Rule where
  part e := R.part e ∧ R'.part e
  target p := R.target p ∧ R'.target p
  declares d := R.declares d ∧ R'.declares d
  returns := R.returns ∧ R'.returns

theorem expr_inter {e : Fluxion.Expr} (h : R.Expr e) (h' : R'.Expr e) : (R.inter R').Expr e :=
  fun p hp => ⟨h p hp, h' p hp⟩

theorem assignment_inter {a : Fluxion.Assignment} (h : R.Assignment a) (h' : R'.Assignment a) :
    (R.inter R').Assignment a :=
  ⟨⟨h.1, h'.1⟩, fun p hp => ⟨h.2.1 p hp, h'.2.1 p hp⟩, expr_inter h.2.2 h'.2.2⟩

theorem local_inter {d : Fluxion.Local} (h : R.Local d) (h' : R'.Local d) : (R.inter R').Local d :=
  ⟨⟨h.1, h'.1⟩, fun e he => expr_inter (h.2 e he) (h'.2 e he)⟩

theorem init_inter {i : LoopInit} (h : R.Init i) (h' : R'.Init i) : (R.inter R').Init i := by
  cases i with
  | decl d => exact local_inter h h'
  | assign a => exact assignment_inter h h'

mutual

theorem stmt_inter : ∀ {s : Fluxion.Stmt}, R.Stmt s → R'.Stmt s → (R.inter R').Stmt s
  | .decl _, h, h' => local_inter h h'
  | .arrayDecl _ _ _, h, h' => ⟨⟨h.1, h'.1⟩, expr_inter h.2 h'.2⟩
  | .assign _, h, h' => assignment_inter h h'
  | .cond _ _ _, h, h' =>
    ⟨expr_inter h.1 h'.1, body_inter h.2.1 h'.2.1, body_inter h.2.2 h'.2.2⟩
  | .for_ _ _ _ _, h, h' =>
    ⟨fun i hi => init_inter (h.1 i hi) (h'.1 i hi), fun e he => expr_inter (h.2.1 e he) (h'.2.1 e he),
      fun a ha => assignment_inter (h.2.2.1 a ha) (h'.2.2.1 a ha), body_inter h.2.2.2 h'.2.2.2⟩
  | .while_ _ _, h, h' => ⟨expr_inter h.1 h'.1, body_inter h.2 h'.2⟩
  | .ret _, h, h' => ⟨⟨h.1, h'.1⟩, fun e he => expr_inter (h.2 e he) (h'.2 e he)⟩
  | .expr _, h, h' => expr_inter h h'
  | .block _, h, h' => body_inter h h'

/-- Code that keeps to two rules keeps to both at once. -/
theorem body_inter : ∀ {b : List Fluxion.Stmt}, R.Body b → R'.Body b → (R.inter R').Body b
  | [], _, _ => trivial
  | _ :: _, h, h' => ⟨stmt_inter h.1 h'.1, body_inter h.2 h'.2⟩

end

end Rule

end Fluxion
