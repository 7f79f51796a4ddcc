import Fluxion.Derive.Plan
import Fluxion.Proofs.Results

/-!
Paths of control through statements: a branch takes either side, a loop goes round any number of
times, and a return ends the path. The search for a way out of a recursion finds exactly the paths
that leave no loop by a return.
-/

namespace Fluxion

/-! ### Paths -/

/-- How a path through statements ends: control goes on after them, or the function returns, maybe
from inside a loop. -/
inductive Exit where
  | falls
  | returns (inLoop : Bool)
deriving DecidableEq, Repr

/-- Paths through a loop, where `Round` are those through its body and `test` and `step` are what
its header evaluates before and after each round. -/
inductive LoopPath (Round : List Expr → Exit → Prop) (test step : List Expr) :
    List Expr → Exit → Prop
  | done : LoopPath Round test step test .falls
  | stop {t : List Expr} {inLoop : Bool} (h : Round t (.returns inLoop)) :
      LoopPath Round test step (test ++ t) (.returns true)
  | again {t t' : List Expr} {e : Exit} (h : Round t .falls)
      (hrest : LoopPath Round test step t' e) :
      LoopPath Round test step (test ++ t ++ step ++ t') e

/-- The expressions that an assignment evaluates. -/
def Assignment.evaluated (a : Assignment) : List Expr :=
  match a.place with
  | .var _ => [a.value]
  | .index _ i => [i, a.value]

/-- The expressions that the first part of a loop header evaluates. -/
def LoopInit.evaluated : LoopInit → List Expr
  | .decl d => d.init.toList
  | .assign a => a.evaluated

mutual

/-- Paths through a statement: the expressions that are evaluated, in order, and the end. -/
def Stmt.Path : Stmt → List Expr → Exit → Prop
  | .decl d => fun t e => t = d.init.toList ∧ e = .falls
  | .arrayDecl _ _ len => fun t e => t = [len] ∧ e = .falls
  | .assign a => fun t e => t = a.evaluated ∧ e = .falls
  | .cond test yes no => fun t e => ∃ t', t = test :: t' ∧ (BodyPath yes t' e ∨ BodyPath no t' e)
  | .for_ init test step body => fun t e => ∃ t',
    t = (init.map LoopInit.evaluated).getD [] ++ t' ∧
      LoopPath (BodyPath body) test.toList ((step.map Assignment.evaluated).getD []) t' e
  | .while_ test body => LoopPath (BodyPath body) [test] []
  | .ret value => fun t e => t = value.toList ∧ e = .returns false
  | .expr x => fun t e => t = [x] ∧ e = .falls
  | .block body => BodyPath body

/-- Paths through statements one after the other. -/
def BodyPath : List Stmt → List Expr → Exit → Prop
  | [] => fun t e => t = [] ∧ e = .falls
  | s :: rest => fun t e =>
    (∃ inLoop, e = .returns inLoop ∧ s.Path t e) ∨
      ∃ first after, t = first ++ after ∧ s.Path first .falls ∧ BodyPath rest after e

end

/-- No expression of a path calls or references a function that `recursive` holds of. -/
def Clean (recursive : String → Bool) (t : List Expr) : Prop :=
  ∀ x ∈ t, x.mentions recursive = false

/-- Some path through the body calls and references none of the functions. -/
def HasCleanPath (recursive : String → Bool) (body : List Stmt) : Prop :=
  ∃ t e, BodyPath body t e ∧ Clean recursive t

namespace Analysis

variable {recursive : String → Bool} {after : Bool} {body : List Stmt}

/-- What the search asks of a path: it ends where the rest has such a path, or returns outside of
all loops. -/
def Leads (after : Bool) : Exit → Prop
  | .falls => after = true
  | .returns inLoop => inLoop = false

theorem clean_append {t t' : List Expr} :
    Clean recursive (t ++ t') ↔ Clean recursive t ∧ Clean recursive t' := by
  simp [Clean, or_imp, forall_and]

theorem clean_cons {x : Expr} {t : List Expr} :
    Clean recursive (x :: t) ↔ x.mentions recursive = false ∧ Clean recursive t := by
  simp [Clean]

theorem clean_toList {x : Option Expr} :
    Clean recursive x.toList ↔ x.any (·.mentions recursive) = false := by
  cases x <;> simp [Clean]

/-- A clean path through a loop that returns from no loop passes the test, and going round no time
is such a path. -/
theorem exists_loopPath (Round : List Expr → Exit → Prop) {test : List Expr} (step : List Expr) :
    (∃ t e, LoopPath Round test step t e ∧ Clean recursive t ∧ Leads after e) ↔
      Clean recursive test ∧ after = true := by
  constructor
  · rintro ⟨t, e, hpath, hclean, hleads⟩
    induction hpath with
    | done => exact ⟨hclean, hleads⟩
    | stop h => cases hleads
    | again h hrest ih => exact ih (clean_append.mp hclean).2 hleads
  · rintro ⟨hclean, rfl⟩
    exact ⟨test, .falls, .done, hclean, rfl⟩

/-- A statement that only evaluates expressions. -/
theorem exists_path_of_evaluated {t₀ : List Expr} :
    (∃ t e, (t = t₀ ∧ e = Exit.falls) ∧ Clean recursive t ∧ Leads after e) ↔
      Clean recursive t₀ ∧ after = true := by
  constructor
  · rintro ⟨t, e, ⟨rfl, rfl⟩, hclean, hleads⟩
    exact ⟨hclean, hleads⟩
  · rintro ⟨hclean, rfl⟩
    exact ⟨t₀, .falls, ⟨rfl, rfl⟩, hclean, rfl⟩

theorem mentions_parts (a : Assignment) :
    (a.parts.any fun part => part.callee?.any recursive) = false ↔
      Clean recursive a.evaluated := by
  obtain ⟨place, op, value⟩ := a
  cases place <;>
    simp [Assignment.parts, Assignment.evaluated, Place.parts, Clean, Expr.mentions]

theorem mentions_init (d : Local) :
    (d.parts.any fun part => part.callee?.any recursive) = false ↔
      Clean recursive d.init.toList := by
  obtain ⟨name, ty, init⟩ := d
  cases init <;> simp [Local.parts, Clean, Expr.mentions]

theorem initMentions_eq_false (i : Option LoopInit) :
    i.any (initMentions recursive) = false ↔
      Clean recursive ((i.map LoopInit.evaluated).getD []) := by
  cases i with
  | none => simp [Clean]
  | some i =>
    cases i with
    | decl d => exact mentions_init d
    | assign a => exact mentions_parts a

mutual

theorem exitsStmt_iff (s : Stmt) (after : Bool) :
    exitsStmt recursive s after = true ↔
      ∃ t e, s.Path t e ∧ Clean recursive t ∧ Leads after e := by
  cases s with
  | decl d =>
    rw [Stmt.Path, exists_path_of_evaluated, ← mentions_init]
    simp [exitsStmt, stmtMentions, Stmt.parts]
  | arrayDecl x elem len =>
    rw [Stmt.Path, exists_path_of_evaluated]
    simp [exitsStmt, stmtMentions, Stmt.parts, Clean, Expr.mentions]
  | assign a =>
    rw [Stmt.Path, exists_path_of_evaluated, ← mentions_parts]
    simp [exitsStmt, stmtMentions, Stmt.parts]
  | cond test yes no =>
    rw [exitsStmt, Bool.and_eq_true, Bool.or_eq_true, exitsOnto_iff yes, exitsOnto_iff no,
      Bool.not_eq_true', Stmt.Path]
    constructor
    · rintro ⟨htest, ⟨t, e, hpath, hclean, hleads⟩ | ⟨t, e, hpath, hclean, hleads⟩⟩
      · exact ⟨test :: t, e, ⟨t, rfl, .inl hpath⟩, clean_cons.mpr ⟨htest, hclean⟩, hleads⟩
      · exact ⟨test :: t, e, ⟨t, rfl, .inr hpath⟩, clean_cons.mpr ⟨htest, hclean⟩, hleads⟩
    · rintro ⟨_, e, ⟨t, rfl, hpath⟩, hclean, hleads⟩
      obtain ⟨htest, hclean⟩ := clean_cons.mp hclean
      exact ⟨htest, hpath.imp (⟨t, e, ·, hclean, hleads⟩) (⟨t, e, ·, hclean, hleads⟩)⟩
  | for_ init test step body =>
    have hheader : exitsStmt recursive (.for_ init test step body) after = true ↔
        Clean recursive ((init.map LoopInit.evaluated).getD []) ∧
          Clean recursive test.toList ∧ after = true := by
      rw [exitsStmt, ← initMentions_eq_false, clean_toList]
      simp [and_assoc]
    rw [hheader, ← exists_loopPath (BodyPath body) ((step.map Assignment.evaluated).getD []),
      Stmt.Path]
    constructor
    · rintro ⟨hinit, t, e, hpath, hclean, hleads⟩
      exact ⟨_, e, ⟨t, rfl, hpath⟩, clean_append.mpr ⟨hinit, hclean⟩, hleads⟩
    · rintro ⟨_, e, ⟨t, rfl, hpath⟩, hclean, hleads⟩
      obtain ⟨hinit, hclean⟩ := clean_append.mp hclean
      exact ⟨hinit, t, e, hpath, hclean, hleads⟩
  | while_ test body =>
    rw [Stmt.Path, exists_loopPath]
    simp [exitsStmt, Clean]
  | ret value =>
    rw [exitsStmt, Bool.not_eq_true', ← clean_toList, Stmt.Path]
    constructor
    · intro hclean
      exact ⟨_, _, ⟨rfl, rfl⟩, hclean, rfl⟩
    · rintro ⟨_, _, ⟨rfl, rfl⟩, hclean, _⟩
      exact hclean
  | expr x =>
    rw [Stmt.Path, exists_path_of_evaluated]
    simp [exitsStmt, stmtMentions, Stmt.parts, Clean, Expr.mentions]
  | block body =>
    rw [exitsStmt, Stmt.Path]
    exact exitsOnto_iff body after

theorem exitsOnto_iff (body : List Stmt) (after : Bool) :
    exitsOnto recursive body after = true ↔
      ∃ t e, BodyPath body t e ∧ Clean recursive t ∧ Leads after e := by
  cases body with
  | nil =>
    rw [exitsOnto, BodyPath, exists_path_of_evaluated]
    simp [Clean]
  | cons s rest =>
    rw [exitsOnto, exitsStmt_iff s, BodyPath]
    constructor
    · rintro ⟨t, e, hs, hclean, hleads⟩
      cases e with
      | falls =>
        obtain ⟨t', e', hrest, hclean', hleads'⟩ := (exitsOnto_iff rest after).mp hleads
        exact ⟨t ++ t', e', .inr ⟨t, t', rfl, hs, hrest⟩, clean_append.mpr ⟨hclean, hclean'⟩,
          hleads'⟩
      | returns inLoop => exact ⟨t, _, .inl ⟨inLoop, rfl, hs⟩, hclean, hleads⟩
    · rintro ⟨t, e, ⟨inLoop, rfl, hs⟩ | ⟨first, t', rfl, hs, hrest⟩, hclean, hleads⟩
      · exact ⟨t, _, hs, hclean, hleads⟩
      · obtain ⟨hfirst, hclean'⟩ := clean_append.mp hclean
        exact ⟨first, .falls, hs, hfirst,
          (exitsOnto_iff rest after).mpr ⟨t', e, hrest, hclean', hleads⟩⟩

end

/-- The search finds exactly the clean paths that leave no loop by a return. -/
theorem exitsCleanly_iff : exitsCleanly recursive body = true ↔
    ∃ t e, BodyPath body t e ∧ Clean recursive t ∧ e ≠ .returns true := by
  have hleads : ∀ e, Leads true e ↔ e ≠ .returns true := by
    rintro (_ | _ | _) <;> simp [Leads]
  simp only [exitsCleanly, exitsOnto_iff, hleads]

end Analysis

/-! ### Returns inside loops -/

mutual

/-- A return occurs inside a loop of the statement. -/
def Stmt.returnsInLoop : Stmt → Bool
  | .cond _ yes no => returnsInLoopIn yes || returnsInLoopIn no
  | .for_ _ _ _ body => hasReturnIn body
  | .while_ _ body => hasReturnIn body
  | .block body => returnsInLoopIn body
  | _ => false

/-- A return occurs inside a loop of the statements. -/
def returnsInLoopIn : List Stmt → Bool
  | [] => false
  | s :: rest => s.returnsInLoop || returnsInLoopIn rest

end

/-- A path through a loop that returns does so in some round. -/
theorem LoopPath.exists_round {Round : List Expr → Exit → Prop} {test step t : List Expr}
    {e : Exit} (h : LoopPath Round test step t e) (he : e ≠ .falls) :
    ∃ t' inLoop, Round t' (.returns inLoop) := by
  induction h with
  | done => exact absurd rfl he
  | stop h => exact ⟨_, _, h⟩
  | again _ _ ih => exact ih he

mutual

theorem Stmt.Path.hasReturn (s : Stmt) {t : List Expr} {inLoop : Bool}
    (h : s.Path t (.returns inLoop)) : s.hasReturn = true := by
  cases s with
  | decl d => cases h.2
  | arrayDecl x elem len => cases h.2
  | assign a => cases h.2
  | expr x => cases h.2
  | ret value => rfl
  | cond test yes no =>
    obtain ⟨t', _, hpath⟩ := h
    rw [Stmt.hasReturn, Bool.or_eq_true]
    exact hpath.imp (BodyPath.hasReturn yes) (BodyPath.hasReturn no)
  | for_ init test step body =>
    obtain ⟨t', _, hpath⟩ := h
    obtain ⟨_, _, hround⟩ := hpath.exists_round (by simp)
    exact BodyPath.hasReturn body hround
  | while_ test body =>
    obtain ⟨_, _, hround⟩ := LoopPath.exists_round h (by simp)
    exact BodyPath.hasReturn body hround
  | block body => exact BodyPath.hasReturn body h

theorem BodyPath.hasReturn (body : List Stmt) {t : List Expr} {inLoop : Bool}
    (h : BodyPath body t (.returns inLoop)) : hasReturnIn body = true := by
  cases body with
  | nil => cases h.2
  | cons s rest =>
    rw [hasReturnIn, Bool.or_eq_true]
    rcases h with ⟨_, _, hs⟩ | ⟨_, _, _, _, hrest⟩
    · exact .inl (Stmt.Path.hasReturn s hs)
    · exact .inr (BodyPath.hasReturn rest hrest)

end

mutual

theorem Stmt.Path.returnsInLoop (s : Stmt) {t : List Expr} (h : s.Path t (.returns true)) :
    s.returnsInLoop = true := by
  cases s with
  | decl d => cases h.2
  | arrayDecl x elem len => cases h.2
  | assign a => cases h.2
  | expr x => cases h.2
  | ret value => cases h.2
  | cond test yes no =>
    obtain ⟨t', _, hpath⟩ := h
    rw [Stmt.returnsInLoop, Bool.or_eq_true]
    exact hpath.imp (BodyPath.returnsInLoop yes) (BodyPath.returnsInLoop no)
  | for_ init test step body => exact Stmt.Path.hasReturn (.for_ init test step body) h
  | while_ test body => exact Stmt.Path.hasReturn (.while_ test body) h
  | block body => exact BodyPath.returnsInLoop body h

theorem BodyPath.returnsInLoop (body : List Stmt) {t : List Expr}
    (h : BodyPath body t (.returns true)) : returnsInLoopIn body = true := by
  cases body with
  | nil => cases h.2
  | cons s rest =>
    rw [returnsInLoopIn, Bool.or_eq_true]
    rcases h with ⟨_, _, hs⟩ | ⟨_, _, _, _, hrest⟩
    · exact .inl (Stmt.Path.returnsInLoop s hs)
    · exact .inr (BodyPath.returnsInLoop rest hrest)

end

/-- Where no loop holds a return, the search finds a path exactly if there is one. -/
theorem Analysis.exitsCleanly_iff_hasCleanPath {body : List Stmt}
    (hloops : returnsInLoopIn body = false) (recursive : String → Bool) :
    Analysis.exitsCleanly recursive body = true ↔ HasCleanPath recursive body := by
  rw [Analysis.exitsCleanly_iff]
  constructor
  · rintro ⟨t, e, hpath, hclean, _⟩
    exact ⟨t, e, hpath, hclean⟩
  · rintro ⟨t, e, hpath, hclean⟩
    refine ⟨t, e, hpath, hclean, ?_⟩
    rintro rfl
    have hreturns := BodyPath.returnsInLoop body hpath
    rw [hloops] at hreturns
    cases hreturns

/-! ### Recursion while deriving -/

namespace Derive

theorem closeCycle_apply (cycle : Chain) (name : String) (callee : Func) (st : Progress) :
    closeCycle cycle name callee st =
      if callee.body.any (Analysis.exitsCleanly cycle.functions.contains) then .ok name st
      else .error (.unboundedRecursion callee.name (cycle.functions ++ [callee.name])) st := by
  unfold closeCycle
  by_cases hends : callee.body.any (Analysis.exitsCleanly cycle.functions.contains)
  · simp only [hends, if_true]
    rfl
  · simp only [hends]
    rfl

/-- A derivative that is asked for while it is under way closes a cycle. -/
theorem deriveAt_of_underWay {s : Setting} {depth : Nat} {chain rest : Chain} {u : UnderWay}
    {kind : Library.DerivativeKind} {callee : Func} {st : Progress}
    (hmemo : st.memo.lookup ⟨kind, callee.signature⟩ = none)
    (hchain : chain.dropWhile (·.key != ⟨kind, callee.signature⟩) = u :: rest) :
    deriveAt s depth chain kind callee st = closeCycle (u :: rest) u.name callee st := by
  have hknown : known? chain ⟨kind, callee.signature⟩ callee st =
      match closeCycle (u :: rest) u.name callee st with
      | .ok name st => .ok (some name) st
      | .error e st => .error e st := by
    simp only [known?, bind, EStateM.bind, state_get, hmemo, hchain]
    cases closeCycle (u :: rest) u.name callee st <;> rfl
  rw [closeCycle_apply] at hknown ⊢
  cases depth <;> split at hknown <;> simp_all [deriveAt, bind, EStateM.bind, pure, EStateM.pure]

/-- Base cases are found exactly, where no loop of the body holds a return: the search succeeds if
and only if some path through the body avoids the functions, and a derivative that is asked for
while it is under way is refused as unbounded recursion if and only if no path through its function
avoids all functions of the cycle. -/
theorem base_case_iff_path {body : List Stmt} (hloops : returnsInLoopIn body = false) :
    (∀ recursive, Analysis.exitsCleanly recursive body = true ↔ HasCleanPath recursive body) ∧
    ∀ (s : Setting) (depth : Nat) (chain rest : Chain) (u : UnderWay)
      (kind : Library.DerivativeKind) (callee : Func) (st : Progress), callee.body = some body →
      st.memo.lookup ⟨kind, callee.signature⟩ = none →
      chain.dropWhile (·.key != ⟨kind, callee.signature⟩) = u :: rest →
      let cycle := Chain.functions (u :: rest)
      (deriveAt s depth chain kind callee st = .ok u.name st ↔ HasCleanPath cycle.contains body) ∧
      (deriveAt s depth chain kind callee st =
          .error (.unboundedRecursion callee.name (cycle ++ [callee.name])) st ↔
        ¬HasCleanPath cycle.contains body) := by
  have hexits := Analysis.exitsCleanly_iff_hasCleanPath hloops
  refine ⟨hexits, ?_⟩
  intro s depth chain rest u kind callee st hbody hmemo hchain cycle
  rw [deriveAt_of_underWay hmemo hchain, closeCycle_apply, hbody, Option.any_some, ← hexits]
  split <;> simp_all [cycle]

/-- A power with a base case: the path that ends at exponent zero makes no call. -/
theorem base_case_iff_path_power :
    let body : List Stmt := [
      .cond (.binary .le (.var "n") (.int 0)) [.ret (some (.float 1.0))] [],
      .ret (some (.binary .mul (.var "x")
        (.call "power" [.var "x", .binary .sub (.var "n") (.int 1)])))]
    let power : Func := ⟨"power", [⟨"x", .float⟩, ⟨"n", .int⟩], .float, some body, default⟩
    let under : UnderWay := ⟨⟨.pushforward, power.signature⟩, "power_pushforward"⟩
    let s : Setting := ⟨[power], .empty, .standard, none⟩
    returnsInLoopIn body = false ∧ HasCleanPath (· == "power") body ∧
      deriveAt s 0 [under] .pushforward power (.start [power]) =
        .ok "power_pushforward" (.start [power]) := by
  intro body power under s
  have hloops : returnsInLoopIn body = false := rfl
  have hexits : ∀ recursive : String → Bool, Analysis.exitsCleanly recursive body = true :=
    fun _ => rfl
  have hall := base_case_iff_path hloops
  refine ⟨hloops, (hall.1 _).mp (hexits _), ?_⟩
  have hchain : [under].dropWhile (·.key != ⟨.pushforward, power.signature⟩) = [under] := by
    simp [under]
  exact (hall.2 s 0 [under] [] under .pushforward power (.start [power]) rfl rfl hchain).1.mpr
    ((hall.1 _).mp (hexits _))

/-- The way out of the recursion is a return inside a loop, and the search misses it. -/
theorem path_through_loop_missed :
    let body : List Stmt := [
      .while_ (.binary .le (.var "n") (.int 0)) [.ret (some (.float 1.0))],
      .ret (some (.binary .mul (.var "x")
        (.call "power" [.var "x", .binary .sub (.var "n") (.int 1)])))]
    HasCleanPath (· == "power") body ∧ Analysis.exitsCleanly (· == "power") body = false := by
  intro body
  refine ⟨?_, by decide +kernel⟩
  have hround : BodyPath [.ret (some (.float 1.0))] [.float 1.0] (.returns false) := by
    simp [BodyPath, Stmt.Path]
  refine ⟨[.binary .le (.var "n") (.int 0), .float 1.0], .returns true, ?_, ?_⟩
  · exact .inl ⟨true, rfl, .stop hround⟩
  · simp [Clean, Expr.mentions, Expr.parts, Expr.callee?]

end Derive

end Fluxion
