import Mathlib.Algebra.Order.Group.Multiset
import Mathlib.Data.Multiset.UnionInter
import Mathlib.Tactic.Abel
import Fluxion.Derive.Differentiate
import Fluxion.Proofs.Names

/-!
Variables with names from a supply. Each name that is given out is new, so that variables declared
with different ones of them can never be mixed up. Only counters of loops share names, and only
with each other.
-/

namespace Fluxion

/-- Variables with their types, each as many times as it is declared. -/
abbrev Vars := Multiset (String × Ty)

/-- What a statement declares. -/
def Stmt.vars (s : Stmt) : Vars := s.declared

/-- What statements declare. -/
def varsOf (body : List Stmt) : Vars := declaredIn body

/-- Parameters as variables. -/
def paramVars (ps : List Param) : Vars := ps.map fun p => (p.name, p.ty)

/-- The parameters and all locals of a function. -/
def Func.vars (f : Func) : Vars := paramVars f.params + varsOf f.stmts

section

@[simp] theorem varsOf_nil : varsOf [] = 0 := rfl

@[simp] theorem varsOf_cons (s : Stmt) (rest : List Stmt) :
    varsOf (s :: rest) = s.vars + varsOf rest := by
  simp [varsOf, Stmt.vars, declaredIn]

@[simp] theorem varsOf_append (xs ys : List Stmt) : varsOf (xs ++ ys) = varsOf xs + varsOf ys := by
  induction xs with
  | nil => simp
  | cons s xs ih => simp [ih, add_assoc]

@[simp] theorem paramVars_nil : paramVars [] = 0 := rfl

@[simp] theorem paramVars_cons (p : Param) (ps : List Param) :
    paramVars (p :: ps) = {(p.name, p.ty)} + paramVars ps := by
  simp [paramVars]

@[simp] theorem paramVars_append (ps qs : List Param) :
    paramVars (ps ++ qs) = paramVars ps + paramVars qs := by
  simp [paramVars]

namespace Stmt

@[simp] theorem vars_let (x : String) (ty : Ty) (init : Option Expr) :
    (Stmt.let_ x ty init).vars = {(x, ty)} := rfl

@[simp] theorem vars_decl (d : Local) : (Stmt.decl d).vars = {(d.name, d.ty)} := rfl

@[simp] theorem vars_arrayDecl (x : String) (elem : Ty) (len : Expr) :
    (Stmt.arrayDecl x elem len).vars = {(x, .arrayOf elem)} := rfl

@[simp] theorem vars_assign (a : Assignment) : (Stmt.assign a).vars = 0 := rfl

@[simp] theorem vars_update (p : Place) (op : AssignOp) (e : Expr) :
    (Stmt.update p op e).vars = 0 := rfl

@[simp] theorem vars_set (x : String) (e : Expr) : (Stmt.set x e).vars = 0 := rfl

@[simp] theorem vars_expr (e : Expr) : (Stmt.expr e).vars = 0 := rfl

@[simp] theorem vars_ret (value : Option Expr) : (Stmt.ret value).vars = 0 := rfl

@[simp] theorem vars_cond (test : Expr) (yes no : List Stmt) :
    (Stmt.cond test yes no).vars = varsOf yes + varsOf no := by
  simp [vars, varsOf, declared]

@[simp] theorem vars_while (test : Expr) (body : List Stmt) :
    (Stmt.while_ test body).vars = varsOf body := by
  simp [vars, varsOf, declared]

@[simp] theorem vars_block (body : List Stmt) : (Stmt.block body).vars = varsOf body := by
  simp [vars, varsOf, declared]

end Stmt

/-- What the first part of a loop header declares. -/
def initVars : Option LoopInit → Vars
  | some (.decl d) => {(d.name, d.ty)}
  | _ => 0

@[simp] theorem Stmt.vars_for (init : Option LoopInit) (test : Option Expr)
    (step : Option Assignment) (body : List Stmt) :
    (Stmt.for_ init test step body).vars = initVars init + varsOf body := by
  rcases init with _ | d | a <;> simp [Stmt.vars, varsOf, Stmt.declared, initVars]

@[simp] theorem Derive.vars_countedLoop (i : String) (count : Expr) (body : List Stmt) :
    (Derive.countedLoop i count body).vars = {(i, .int)} + varsOf body := by
  simp [Derive.countedLoop, initVars]

@[simp] theorem Derive.vars_copyLoop (i target source : String) :
    (Derive.copyLoop i target source).vars = {(i, .int)} := by
  simp [Derive.copyLoop]

end

/-! ### Names from a supply -/

namespace NameSupply

theorem nodup_reserve {s : NameSupply} (h : s.used.Nodup) (x : String) :
    (s.reserve x).used.Nodup := by
  unfold reserve isUsed
  split
  · exact h
  · rename_i hx
    exact List.nodup_cons.mpr ⟨by simpa using hx, h⟩

theorem nodup_reserveAll {s : NameSupply} (h : s.used.Nodup) (names : List String) :
    (s.reserveAll names).used.Nodup := by
  induction names generalizing s with
  | nil => exact h
  | cons x rest ih => exact ih (nodup_reserve h x)

theorem nodup_ofFunc (f : Func) : (ofFunc f).used.Nodup :=
  nodup_reserveAll List.nodup_nil _

theorem mem_ofFunc_iff {f : Func} {x : String} :
    x ∈ (ofFunc f).used ↔ x ∈ f.vars.map Prod.fst := by
  simp [Func.vars, paramVars, varsOf]

end NameSupply

/-- The names that a supply gives out from one state to another. -/
structure Drawn (a b : NameSupply) (drawn : Multiset String) : Prop where
  used : (b.used : Multiset String) = drawn + a.used
  nodup : a.used.Nodup → b.used.Nodup

namespace Drawn

variable {a b c : NameSupply} {xs ys : Multiset String}

theorem refl (a : NameSupply) : Drawn a a 0 := ⟨by simp, id⟩

theorem trans (hab : Drawn a b xs) (hbc : Drawn b c ys) : Drawn a c (xs + ys) := by
  refine ⟨?_, fun h => hbc.nodup (hab.nodup h)⟩
  rw [hbc.used, hab.used]
  abel

theorem take {series : Nat → String} (hseries : Function.Injective series) :
    Drawn a (a.take series).2 {(a.take series).1} :=
  ⟨by simp, fun h => List.nodup_cons.mpr ⟨a.take_fresh hseries, h⟩⟩

theorem fresh (base : String) : Drawn a (a.fresh base).2 {(a.fresh base).1} :=
  take (NameSupply.variant_injective base)

theorem numbered (stem : String) : Drawn a (a.numbered stem).2 {(a.numbered stem).1} :=
  take (NameSupply.numbered_injective stem)

/-- Names that are given out differ from each other and from those that were in use. -/
theorem apart (h : Drawn a b xs) (ha : a.used.Nodup) : xs.Nodup ∧ ∀ x ∈ xs, x ∉ a.used := by
  have hall : (xs + a.used).Nodup := h.used ▸ Multiset.coe_nodup.mpr (h.nodup ha)
  obtain ⟨hxs, _, hdisjoint⟩ := Multiset.nodup_add.mp hall
  exact ⟨hxs, fun x hx hused => Multiset.disjoint_left.mp hdisjoint hx (by simpa using hused)⟩

end Drawn

/-- The variables `new` have names that were given out from one state of a supply to another. Each
has a name of its own but for counters of loops. These may also have the name of `lane`. -/
def Supplied (lane : Option String) (a b : NameSupply) (new : Vars) : Prop :=
  ∃ (single counters : Vars) (drawn shared : Multiset String), Drawn a b drawn ∧
    new = single + counters ∧ single.map Prod.fst + shared ≤ drawn ∧
    ∀ c ∈ counters, c.2 = .int ∧ (c.1 ∈ shared ∨ some c.1 = lane)

namespace Supplied

variable {lane : Option String} {a b c : NameSupply} {new new' : Vars}

theorem refl (a : NameSupply) : Supplied lane a a 0 :=
  ⟨0, 0, 0, 0, .refl a, by simp⟩

theorem trans (hab : Supplied lane a b new) (hbc : Supplied lane b c new') :
    Supplied lane a c (new + new') := by
  obtain ⟨single, counters, drawn, shared, hdrawn, rfl, hle, hcounters⟩ := hab
  obtain ⟨single', counters', drawn', shared', hdrawn', rfl, hle', hcounters'⟩ := hbc
  refine ⟨single + single', counters + counters', _, shared + shared', hdrawn.trans hdrawn',
    by abel, ?_, ?_⟩
  · calc (single + single').map Prod.fst + (shared + shared') =
          (single.map Prod.fst + shared) + (single'.map Prod.fst + shared') := by
            rw [Multiset.map_add]
            abel
      _ ≤ drawn + drawn' := by gcongr
  · intro v hv
    rcases Multiset.mem_add.mp hv with hv | hv
    · obtain ⟨hty, hname⟩ := hcounters v hv
      exact ⟨hty, hname.imp_left fun h => Multiset.mem_add.mpr (.inl h)⟩
    · obtain ⟨hty, hname⟩ := hcounters' v hv
      exact ⟨hty, hname.imp_left fun h => Multiset.mem_add.mpr (.inr h)⟩

/-- A name that is given out may be left unused. -/
theorem unused {x : String} (h : Drawn a b {x}) : Supplied lane a b 0 :=
  ⟨0, 0, _, 0, h, by simp⟩

/-- A name that is given out may be that of one variable. -/
theorem single {x : String} (h : Drawn a b {x}) (ty : Ty) : Supplied lane a b {(x, ty)} :=
  ⟨{(x, ty)}, 0, _, 0, h, by simp⟩

theorem fresh (base : String) (ty : Ty) :
    Supplied lane a (a.fresh base).2 {((a.fresh base).1, ty)} :=
  single (.fresh base) ty

theorem numbered (stem : String) (ty : Ty) :
    Supplied lane a (a.numbered stem).2 {((a.numbered stem).1, ty)} :=
  single (.numbered stem) ty

/-- A name that is given out may be that of any number of counters. -/
theorem counters (stem : String) (n : Nat) : Supplied lane a (a.numbered stem).2
    (Multiset.replicate n ((a.numbered stem).1, .int)) := by
  refine ⟨0, Multiset.replicate n ((a.numbered stem).1, .int), _, {(a.numbered stem).1},
    .numbered stem, by simp, by simp, fun v hv => ?_⟩
  obtain rfl := Multiset.eq_of_mem_replicate hv
  exact ⟨rfl, .inl (Multiset.mem_singleton_self _)⟩

/-- Counters of lanes all have one name. -/
theorem ofLane {k : String} (hk : lane = some k) (a : NameSupply) :
    Supplied lane a a {(k, .int)} := by
  refine ⟨0, {(k, .int)}, 0, 0, .refl a, by simp, by simp, fun v hv => ?_⟩
  obtain rfl := Multiset.mem_singleton.mp hv
  exact ⟨rfl, .inr hk.symm⟩

/-- The name of the lanes was given out for them. -/
theorem withLane {k : String} (hk : Drawn a b {k}) (h : Supplied (some k) b c new) :
    Supplied none a c new := by
  obtain ⟨single, counters, drawn, shared, hdrawn, rfl, hle, hcounters⟩ := h
  refine ⟨single, counters, _, {k} + shared, hk.trans hdrawn, rfl, ?_, ?_⟩
  · calc single.map Prod.fst + ({k} + shared) = {k} + (single.map Prod.fst + shared) := by abel
      _ ≤ {k} + drawn := by gcongr
  · intro v hv
    obtain ⟨hty, hname⟩ := hcounters v hv
    refine ⟨hty, .inl (Multiset.mem_add.mpr ?_)⟩
    exact hname.symm.imp (fun h => by simpa using h) id

/-- What the names that were given out have in common. -/
theorem apart (h : Supplied none a b new) (ha : a.used.Nodup) :
    (∀ v ∈ new, v.1 ∉ a.used) ∧ ∃ single counters, new = single + counters ∧
      (single.map Prod.fst).Nodup ∧ ∀ c ∈ counters, c.2 = .int ∧ c.1 ∉ single.map Prod.fst := by
  obtain ⟨single, counters, drawn, shared, hdrawn, rfl, hle, hcounters⟩ := h
  obtain ⟨hnodup, hfree⟩ := hdrawn.apart ha
  obtain ⟨hsingle, _, hshared⟩ := Multiset.nodup_add.mp (Multiset.nodup_of_le hle hnodup)
  have hnone : ∀ c ∈ counters, c.2 = .int ∧ c.1 ∈ shared := fun c hc =>
    ⟨(hcounters c hc).1, (hcounters c hc).2.resolve_right (by simp)⟩
  refine ⟨fun v hv => hfree v.1 (Multiset.mem_of_le hle ?_), single, counters, rfl, hsingle,
    fun c hc => ?_⟩
  · rcases Multiset.mem_add.mp hv with hv | hv
    · exact Multiset.mem_add.mpr (.inl (Multiset.mem_map_of_mem _ hv))
    · exact Multiset.mem_add.mpr (.inr (hnone v hv).2)
  · exact ⟨(hnone c hc).1, fun hmem => Multiset.disjoint_left.mp hshared hmem (hnone c hc).2⟩

end Supplied

/-! ### Functions -/

/-- The variables of `g` are those of `kept` and others, with names from a supply that began with
the variables of `src`. -/
def BuiltOn (kept : Vars) (src g : Func) : Prop :=
  ∃ names new, Supplied none (.ofFunc src) names new ∧ g.vars = kept + new

/-- The variables that `g` has beside those of `kept` differ from all variables of `src`. Their
names differ from each other, but for counters of loops, whose names differ from all others. -/
def Apart (kept : Vars) (src g : Func) : Prop :=
  ∃ single counters : Vars, g.vars = kept + (single + counters) ∧
    (∀ v ∈ single + counters, v.1 ∉ src.vars.map Prod.fst) ∧
    (single.map Prod.fst).Nodup ∧ ∀ c ∈ counters, c.2 = .int ∧ c.1 ∉ single.map Prod.fst

theorem BuiltOn.apart {kept : Vars} {src g : Func} (h : BuiltOn kept src g) :
    Apart kept src g := by
  obtain ⟨names, new, hnew, hvars⟩ := h
  obtain ⟨hfree, single, counters, rfl, hsingle, hcounters⟩ :=
    hnew.apart (NameSupply.nodup_ofFunc src)
  refine ⟨single, counters, hvars, fun v hv hmem => ?_, hsingle, hcounters⟩
  exact hfree v hv (NameSupply.mem_ofFunc_iff.mpr hmem)

end Fluxion
