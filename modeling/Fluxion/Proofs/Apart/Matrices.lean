import Fluxion.Proofs.Apart.Functions

/-!
Jacobians are built on the code that they take over, with counters of lanes that share one name.
Hessians take nothing over but the parameters, and each of their columns declares the same scratch
variables in a block of its own.
-/

namespace Fluxion.Derive

/-! ### Jacobians -/

section

variable {lane : Option String} {σ : Storage} {own : Vars}

theorem declares_laneAdjoints (lanes : Lanes) (ps : List Param) (σ : Storage) :
    Declares lane σ 0 (laneAdjoints lanes ps) varsOf := by
  induction ps generalizing σ with
  | nil => exact .pure (by simp)
  | cons p ps ih =>
    unfold laneAdjoints
    split
    · refine (Sweep.declares_adjoint _ (some lanes)
        (if p.ty.isArray then some (lenOf p.name) else none)).step fun d σ₁ => ?_
      refine (Declares.bindAdjoint p.name d).after fun _ σ₂ => ?_
      exact (ih σ₂).step fun rest σ₃ => .pure (by simp)
    · exact ih σ

theorem declares_matrixParams (outputs : List String) (σ : Storage) :
    Declares lane σ 0 (matrixParams outputs)
      fun ms => paramVars (ms.map fun m => (⟨m, .arrayOf .float⟩ : Param)) := by
  induction outputs generalizing σ with
  | nil => exact .pure (by simp)
  | cons o os ih =>
    refine (Declares.fresh _ (.arrayOf .float)).step fun m σ₁ => ?_
    exact (ih σ₁).step fun rest σ₂ => .pure (by simp)

theorem declares_rowEntries (target : Func) (lanes : Lanes) (index : Expr)
    (vs : List Request.Independent) (σ : Storage) :
    Declares lane σ 0 (rowEntries target lanes index vs) fun _ => 0 := by
  induction vs generalizing σ with
  | nil => exact .pure rfl
  | cons v vs ih =>
    unfold rowEntries
    refine .get_bind ?_
    dsimp only
    split
    · intro st r st' hrun
      cases hrun
    · exact (ih σ).after fun rest σ₁ => .pure rfl

theorem varsOf_updates {α : Type} (place : α → Place) (op : AssignOp) (value : α → Expr)
    (xs : List α) : varsOf (xs.map fun x => .update (place x) op (value x)) = 0 := by
  induction xs with
  | nil => rfl
  | cons x xs ih => simp [ih]

theorem declares_jacobianEnds (target : Func) (lanes : Lanes) (vars : List Request.Independent)
    (width : Nat) (outputs : List (String × String)) (offset : Expr) (σ : Storage) :
    Declares lane σ 0 (jacobianEnds target lanes vars width offset outputs)
      fun ends => varsOf ends.seeds + varsOf ends.writes := by
  induction outputs generalizing offset σ with
  | nil => exact .pure (by simp)
  | cons output rest ih =>
    unfold jacobianEnds
    refine .get_bind ?_
    dsimp only
    split
    · intro st r st' hrun
      cases hrun
    · refine (Declares.numbered "_i" .int).step fun i σ₁ => ?_
      refine (Declares.numbered "_r" .int).step fun row σ₂ => ?_
      refine (declares_rowEntries target lanes _ vars σ₂).after fun entries σ₃ => ?_
      refine (ih _ σ₃).step fun more σ₄ => .pure ?_
      simp only [varsOf_cons, varsOf_nil, vars_countedLoop, Stmt.vars_update, varsOf_updates]
      abel

theorem adds_jacobianSteps (s : Setting) {source : Func} {r : Request}
    (hparams : source.params = r.target.params) (outputs : List String) (width : Nat)
    (name : String) :
    Adds none (.ofFunc source) source.vars (jacobianSteps s source r outputs width name)
      fun g _ => g.vars := by
  unfold jacobianSteps
  refine (Declares.fresh "_lanes" .int).step fun count σ₁ => .withLane fun index σ₂ => ?_
  refine (declares_laneAdjoints ⟨count, index⟩ r.target.params σ₂).step fun adjoints σ₃ => ?_
  refine (declares_matrixParams outputs σ₃).step fun matrices σ₄ => ?_
  rw [Func.vars, hparams]
  have hown : paramVars r.target.params + varsOf source.stmts + {(count, .int)} + varsOf adjoints +
      paramVars (matrices.map fun m => (⟨m, .arrayOf .float⟩ : Param)) =
      paramVars (r.target.params ++ matrices.map fun m => (⟨m, .arrayOf .float⟩ : Param)) +
        {(count, .int)} + varsOf adjoints + varsOf source.stmts := by
    simp only [paramVars_append]
    abel
  rw [hown]
  refine (Sweep.declares_run (by rfl) source.stmts σ₄).bind fun sweeps σ₅ => ?_
  refine (declares_jacobianEnds _ _ _ _ _ _ σ₅).step fun ends σ₆ => ?_
  refine .get_bind (.func ?_)
  simp only [Func.vars, Func.stmts, Option.getD_some, paramVars_append, varsOf_cons, varsOf_append,
    Stmt.vars_let, Sweeps.vars]
  abel

theorem builtOn_jacobian (s : Setting) (r : Request) :
    Returns (jacobian s r) fun g =>
      ∃ src, Canonical.canonicalize r.target = .ok src ∧ BuiltOn src.vars src g := by
  unfold jacobian
  dsimp only
  split
  · intro st g st' hrun
    cases hrun
  · exact .unsupported _ _
  · refine .after fun host => ?_
    split
    · exact .unsupported _ _
    · split
      · exact .unsupported _ _
      · refine (returns_prepare r.target).bind fun src hsrc => .after fun name => ?_
        refine Returns.mono (Adds.builtOn ?_) fun g hg => ⟨src, hsrc, hg⟩
        exact adds_jacobianSteps s (params_canonicalize hsrc) _ _ _

end

/-! ### Hessians -/

/-- Scratch variables of a function in blocks: the parameters are those of `f` and one more, and
what the blocks declare are variables of one list, whose names differ from each other and from all
variables of `f`, and counters of one name, which differs from all others. -/
structure ColumnsApart (f g : Func) : Prop where
  exists_scratch : ∃ (matrix : Param) (scratch : Vars) (counter : String),
    g.params = f.params ++ [matrix] ∧
    (∀ stmt ∈ g.stmts, ∃ body n, stmt = .block body ∧
      varsOf body ≤ scratch + Multiset.replicate n (counter, .int)) ∧
    (counter ::ₘ matrix.name ::ₘ scratch.map Prod.fst).Nodup ∧
    ∀ x ∈ counter ::ₘ matrix.name ::ₘ scratch.map Prod.fst, x ∉ f.vars.map Prod.fst

theorem drawn_freshAll (bases : List String) (names : NameSupply) :
    Drawn names (freshAll names bases).2 (freshAll names bases).1 := by
  induction bases generalizing names with
  | nil => exact .refl names
  | cons base rest ih =>
    have h := (Drawn.fresh base).trans (ih (names.fresh base).2)
    rwa [Multiset.singleton_add, Multiset.cons_coe] at h

theorem length_freshAll (bases : List String) (names : NameSupply) :
    (freshAll names bases).1.length = bases.length := by
  induction bases generalizing names with
  | nil => rfl
  | cons base rest ih => simp [freshAll, ih]

/-- The two names of each pair. -/
def pairNames (pairs : List (String × String)) : List String := pairs.flatMap fun p => [p.1, p.2]

theorem drawn_freshPairs (n j : Nat) (names : NameSupply) :
    Drawn names (freshPairs names j n).2 (pairNames (freshPairs names j n).1) := by
  induction n generalizing j names with
  | zero => exact .refl names
  | succ n ih =>
    have hd : Drawn names (names.fresh ("_h_d" ++ toString j)).2 _ := .fresh _
    have h := (hd.trans (.fresh ("_h_dd" ++ toString j))).trans (ih (j + 1) _)
    rwa [add_assoc, Multiset.singleton_add, Multiset.singleton_add, Multiset.cons_coe,
      Multiset.cons_coe] at h

/-- Variables of the given names and types, as far as there are both. -/
def zipVars (xs : List String) (tys : List Ty) : Vars := xs.zip tys

@[simp] theorem zipVars_nil (xs : List String) : zipVars xs [] = 0 := by simp [zipVars]

@[simp] theorem zipVars_cons (x : String) (xs : List String) (ty : Ty) (tys : List Ty) :
    zipVars (x :: xs) (ty :: tys) = {(x, ty)} + zipVars xs tys := by
  simp [zipVars]

theorem map_zipVars_le (xs : List String) (tys : List Ty) :
    (zipVars xs tys).map Prod.fst ≤ xs := by
  induction xs generalizing tys with
  | nil => simp [zipVars]
  | cons x xs ih =>
    cases tys with
    | nil =>
      rw [zipVars_nil]
      exact Multiset.zero_le _
    | cons ty tys =>
      have h := ih tys
      simpa [Multiset.cons_le_cons_iff, ← Multiset.cons_coe] using h

/-- The type of the copy of a parameter. -/
def copyTy (p : Param) : Ty :=
  match p.ty with
  | .ref inner => inner
  | .array elem _ => .arrayOf elem
  | ty => ty

/-- The type of the tangent of a parameter. -/
def seedTy (p : Param) : Ty :=
  match p.ty with
  | .ref _ => .float
  | _ => .arrayOf .float

/-- The type of an output of the gradient. -/
def outputTy : Option Nat → Ty
  | none => .float
  | some _ => .arrayOf .float

/-- The variables that the columns declare, counters apart. -/
def HessianNames.scratch (names : HessianNames) (params : List Param)
    (shapes : List (Option Nat)) : Vars :=
  zipVars names.copies (params.map copyTy) + zipVars names.seeds (params.map seedTy) +
    zipVars (pairNames names.gradients) (shapes.flatMap fun s => [outputTy s, outputTy s])

theorem vars_primalArg_le (p : Param) (copy counter : String) (written : Bool) :
    varsOf (primalArg p copy counter written).1 ≤ {(copy, copyTy p)} + {(counter, .int)} := by
  unfold primalArg copyTy
  cases p.ty with
  | ref inner => simp
  | array elem len =>
    dsimp only
    split
    · simp
    · exact Multiset.zero_le _
  | _ => exact Multiset.zero_le _

theorem vars_tangentArg_le (p : Param) (seed : String) (here : Bool) (element : Option Nat) :
    varsOf (tangentArg p seed here element).1 ≤ {(seed, seedTy p)} := by
  unfold tangentArg seedTy
  split
  · exact Multiset.zero_le _
  · dsimp only
    split
    · exact Multiset.zero_le _
    · rename_i href
      simp [href]
    · cases here <;> cases element <;> simp

/-- What any column declares for the parameters from position `i` on. -/
theorem vars_hessianArgs_le (names : HessianNames) (written : List Nat) (along : Direction)
    (ps : List Param) (i : Nat) (hcopies : names.copies.length = i + ps.length)
    (hseeds : names.seeds.length = i + ps.length) :
    varsOf ((hessianArgs names written along i ps).flatMap (·.before)) ≤
      zipVars (names.copies.drop i) (ps.map copyTy) + zipVars (names.seeds.drop i) (ps.map seedTy) +
        Multiset.replicate ps.length (names.counter, .int) := by
  induction ps generalizing i with
  | nil => simp [hessianArgs]
  | cons p ps ih =>
    rw [List.length_cons] at hcopies hseeds
    have hrest := ih (i + 1) (by omega) (by omega)
    have hi : i < names.copies.length := by omega
    have hi' : i < names.seeds.length := by omega
    rw [List.drop_eq_getElem_cons hi, List.drop_eq_getElem_cons hi']
    have hcopy := vars_primalArg_le p names.copies[i] names.counter (written.contains i)
    have hseed := vars_tangentArg_le p names.seeds[i] (along.param == i) along.element
    simp only [hessianArgs, List.flatMap_cons, varsOf_append, List.getElem?_eq_getElem hi,
      List.getElem?_eq_getElem hi', Option.getD_some, List.map_cons, zipVars_cons,
      List.length_cons, Multiset.replicate_succ, ← Multiset.singleton_add]
    refine le_trans (add_le_add (add_le_add hcopy hseed) hrest) (le_of_eq ?_)
    abel

theorem vars_outputs (pairs : List (String × String)) (shapes : List (Option Nat)) :
    varsOf ((pairs.zip shapes).flatMap fun ((d, dd), shape) =>
      [outputDecl shape d, outputDecl shape dd]) =
      zipVars (pairNames pairs) (shapes.flatMap fun s => [outputTy s, outputTy s]) := by
  have hdecl : ∀ shape x, (outputDecl shape x).vars = {(x, outputTy shape)} := by
    intro shape x
    cases shape <;> rfl
  induction pairs generalizing shapes with
  | nil => rfl
  | cons p pairs ih =>
    cases shapes with
    | nil => simp
    | cons shape shapes =>
      have hnames : pairNames (p :: pairs) = p.1 :: p.2 :: pairNames pairs := rfl
      simp only [List.zip_cons_cons, List.flatMap_cons, varsOf_cons, hdecl, ih, hnames,
        List.cons_append, List.nil_append, zipVars_cons]

theorem vars_hessianColumn_le (target : Func) (shapes : List (Option Nat)) (written : List Nat)
    (names : HessianNames) (pushed matrix : String) (n c : Nat) (along : Direction)
    (hcopies : names.copies.length = target.params.length)
    (hseeds : names.seeds.length = target.params.length) :
    ∃ body, hessianColumn target shapes written names pushed matrix n c along = .block body ∧
      varsOf body ≤ names.scratch target.params shapes +
        Multiset.replicate target.params.length (names.counter, .int) := by
  refine ⟨_, rfl, ?_⟩
  have hargs := vars_hessianArgs_le names written along target.params 0 (by omega) (by omega)
  simp only [varsOf_append, varsOf_cons, varsOf_nil, Stmt.vars_expr, varsOf_updates,
    vars_outputs, add_zero, HessianNames.scratch, List.drop_zero] at hargs ⊢
  refine le_trans (add_le_add_left hargs _) (le_of_eq ?_)
  abel

theorem HessianNames.length_take (supply : NameSupply) (params : List Param) (count : Nat) :
    (take supply params count).copies.length = params.length ∧
      (take supply params count).seeds.length = params.length := by
  simp [take, length_freshAll]

/-- The names of a hessian differ from each other and from all variables of the function. -/
theorem names_hessian (target : Func) (count : Nat) (shapes : List (Option Nat)) :
    let matrix := (NameSupply.ofFunc target).fresh "hessian"
    let names := HessianNames.take matrix.2 target.params count
    let all := names.counter ::ₘ matrix.1 ::ₘ (names.scratch target.params shapes).map Prod.fst
    all.Nodup ∧ ∀ x ∈ all, x ∉ target.vars.map Prod.fst := by
  intro matrix names all
  have hdrawn : ∃ supply, Drawn (.ofFunc target) supply
      ({matrix.1} + names.copies + names.seeds + pairNames names.gradients + {names.counter}) :=
    ⟨_, ((((Drawn.fresh "hessian").trans (drawn_freshAll _ _)).trans (drawn_freshAll _ _)).trans
      (drawn_freshPairs _ _ _)).trans (.fresh "_h_i")⟩
  have hle : all ≤ {matrix.1} + names.copies + names.seeds + pairNames names.gradients +
      {names.counter} := by
    calc all = {names.counter} + ({matrix.1} + (names.scratch target.params shapes).map Prod.fst) :=
          rfl
      _ ≤ {names.counter} + ({matrix.1} +
          (names.copies + names.seeds + pairNames names.gradients : Multiset String)) := by
        rw [HessianNames.scratch, Multiset.map_add, Multiset.map_add]
        gcongr <;> exact map_zipVars_le _ _
      _ = _ := by abel
  obtain ⟨supply, hdrawn⟩ := hdrawn
  obtain ⟨hnodup, hfree⟩ := hdrawn.apart (NameSupply.nodup_ofFunc target)
  refine ⟨Multiset.nodup_of_le hle hnodup, fun x hx hmem => ?_⟩
  exact hfree x (Multiset.mem_of_le hle hx) (NameSupply.mem_ofFunc_iff.mpr hmem)

theorem columnsApart_hessian (s : Setting) (r : Request) :
    Returns (hessian s r) (ColumnsApart r.target) := by
  unfold hessian
  dsimp only
  split
  · intro st g st' hrun
    cases hrun
  · exact .unsupported _ _
  · refine .after fun grad => .after fun _ => .after fun pushed => .after fun host =>
      .after fun name => .pure ?_
    obtain ⟨hnodup, hfree⟩ := names_hessian r.target r.independents.length
      (r.independents.map (·.count?))
    obtain ⟨hcopies, hseeds⟩ := HessianNames.length_take
      ((NameSupply.ofFunc r.target).fresh "hessian").2 r.target.params r.independents.length
    refine ⟨⟨_, _, _, rfl, fun stmt hstmt => ?_, hnodup, hfree⟩⟩
    obtain ⟨⟨along, c⟩, _, rfl⟩ := List.mem_map.mp hstmt
    obtain ⟨body, hbody, hle⟩ :=
      vars_hessianColumn_le r.target _ _ _ _ _ _ _ along hcopies hseeds
    exact ⟨body, _, hbody, hle⟩

end Fluxion.Derive
