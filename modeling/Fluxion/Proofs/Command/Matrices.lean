import Fluxion.Proofs.Command.Arguments
import Fluxion.Proofs.Request.Meaningful
import Fluxion.Proofs.Session.Loaded

/-!
Matrices of derivatives. A hessian is filled column by column, a jacobian row by row, and what the
command line allocates has a cell for each entry.
-/

namespace Fluxion.Derive

open Request (Independent)

/-- Assignments to entries of a matrix, one for each value. -/
def fill (matrix : String) (index : Nat → Expr) (values : List Expr) : List Stmt :=
  values.zipIdx.map fun (e, k) => .update (.index matrix (index k)) .set e

/-! ### How many scalars -/

/-- Where every array comes with a range, the independent scalars are as many as the elements. -/
theorem sum_counts {h : Host} {f : Func} {mode : Request.Mode} {order : Nat} {r : Request}
    (hr : Request.Accepted h f mode order r) (hmode : mode = .hessian ∨ mode = .jacobian) {n : Nat}
    (hn : r.scalarCount = .ok (some n)) :
    (r.independents.map fun v => v.count?.getD 1).sum = n ∧
      (r.independents.map fun v => (elementsOf v).length).sum = n := by
  obtain ⟨specs, hspecs⟩ := hr.vars
  obtain ⟨vars, rfl, hvars, -⟩ := Request.validateAll_eq_ok.mp hspecs
  have hranged : Request.Ranged f r.independents := by
    have hsuits := (Request.checkMode_eq_ok hvars).mp hr.checked
    rcases hmode with rfl | rfl
    · exact hsuits
    · exact hsuits.1
  have hcount : ∀ v ∈ r.independents, (if Request.isArrayAt r.target v.param then v.count? else
      some 1) = some (v.count?.getD 1) ∧ (elementsOf v).length = v.count?.getD 1 := by
    intro v hv
    obtain ⟨spec, _, hspec⟩ := Request.exists_describes hvars v hv
    unfold elementsOf Independent.count?
    rw [hr.target]
    cases hrange : v.range with
    | none =>
      have harray : ¬ Request.isArrayAt f v.param = true := fun h => hranged v hv h hrange
      simp [harray]
    | some range =>
      obtain ⟨harray, hle⟩ := hspec.of_range hrange
      simp [harray]
      omega
  have hsum : (r.independents.map fun v => v.count?.getD 1).sum =
      Request.scalarsOf r.independents := by
    induction r.independents with
    | nil => rfl
    | cons v vs ih => rw [List.map_cons, List.sum_cons, ih, Request.scalarsOf_cons]
  rw [Request.scalarCount, List.map_congr_left fun v hv => (hcount v hv).1,
    Request.addCounts_scalarsOf] at hn
  split at hn
  · cases hn
    exact ⟨hsum, by rw [List.map_congr_left fun v hv => (hcount v hv).2, hsum]⟩
  · cases hn

/-! ### Hessians -/

/-- The statement fills column `c` of a square matrix. -/
def FillsColumn (matrix : String) (n : Nat) (st : Stmt) (c : Nat) : Prop :=
  ∃ front values, values.length = n ∧
    st = .block (front ++ fill matrix (fun row => .ofNat (row * n + c)) values)

/-- The function fills a square matrix, which is its last parameter, column by column. -/
def FillsSquare (target g : Func) (n : Nat) : Prop :=
  ∃ matrix, g.params = target.params ++ [⟨matrix, .arrayOf .float⟩] ∧
    List.Forall₂ (FillsColumn matrix n) g.stmts (List.range n)

theorem length_columnEntries {gradients : List (String × String)} {shapes : List (Option Nat)}
    (h : gradients.length = shapes.length) :
    ((gradients.zip shapes).flatMap fun o => columnEntries o.2 o.1.2).length =
      (shapes.map (·.getD 1)).sum := by
  induction gradients generalizing shapes with
  | nil =>
    obtain rfl := List.length_eq_zero_iff.mp h.symm
    rfl
  | cons pair gradients ih =>
    obtain _ | ⟨shape, shapes⟩ := shapes
    · simp at h
    · have hshape : (columnEntries shape pair.2).length = shape.getD 1 := by
        cases shape <;> simp [columnEntries]
      simp [hshape, ih (show gradients.length = shapes.length by simpa using h)]

theorem length_freshPairs (n j : Nat) (names : NameSupply) :
    (freshPairs names j n).1.length = n := by
  induction n generalizing j names with
  | zero => rfl
  | succ n ih => simp [freshPairs, ih]

theorem returns_hessian {h : Host} {f : Func} {order : Nat} {r : Request}
    (hr : Request.Accepted h f .hessian order r) (s : Setting) :
    Returns (hessian s r) fun g =>
      ∃ n, r.scalarCount = .ok (some n) ∧ FillsSquare r.target g n := by
  unfold hessian
  dsimp only
  split
  · intro st g st' hrun
    cases hrun
  · exact .unsupported _ _
  · rename_i n hn
    obtain ⟨hcounts, helements⟩ := sum_counts hr (.inl rfl) hn
    refine .after fun grad => .after fun _ => .after fun pushed => .after fun host =>
      .after fun name => .pure ⟨n, hn, _, rfl, ?_⟩
    have hlength : (scalarsOf r).length = n := by
      rw [← helements, scalarsOf, List.length_flatMap]
      refine congrArg List.sum (List.map_congr_left fun v _ => ?_)
      unfold elementsOf
      cases v.range <;> simp
    rw [List.range_eq_range', ← hlength, ← List.zipIdx_map_snd 0 (scalarsOf r)]
    refine List.forall₂_map_left_iff.mpr (List.forall₂_map_right_iff.mpr
      (List.forall₂_same.mpr fun along _ => ⟨_, _, ?_, rfl⟩))
    rw [length_columnEntries (by simp [HessianNames.take, length_freshPairs]), hlength, ← hcounts,
      List.map_map]
    rfl

/-! ### Jacobians -/

/-- The statement fills a matrix of that many columns with a row for each element of an array. -/
def FillsRows (width : Nat) (array matrix : String) (st : Stmt) : Prop :=
  ∃ row values, values.length = width ∧ st = countedLoop row (lenOf array) (fill matrix
    (fun column => ((Expr.var row).indexProduct (.ofNat width)).indexSum (.ofNat column)) values)

/-- In the end, the function fills a matrix for each of the parameters at the given positions. The
matrices are its last parameters. -/
def FillsMatrices (target g : Func) (width : Nat) (outputs : List Nat) : Prop :=
  ∃ matrices front rows, g.params = target.params ++ matrices.map (fun m => ⟨m, .arrayOf .float⟩) ∧
    g.stmts = front ++ rows ∧ matrices.length = outputs.length ∧
    List.Forall₂ (fun o st => FillsRows width (target.params[o.1]?.getD default).name o.2 st)
      (outputs.zip matrices) rows

theorem gives_rowEntries (target : Func) (lanes : Lanes) (lane : Expr) (vs : List Independent) :
    Gives (rowEntries target lanes lane vs) fun entries =>
      entries.length = (vs.map fun v => (elementsOf v).length).sum := by
  induction vs with
  | nil => exact .pure rfl
  | cons v vs ih =>
    unfold rowEntries
    refine .after fun σ => ?_
    dsimp only
    split
    · intro σ st r st' hrun
      cases hrun
    · exact ih.bind fun rest hrest => .pure (by simp [hrest])

theorem gives_jacobianEnds {target : Func} {lanes : Lanes} {vars : List Independent} {width : Nat}
    (hwidth : (vars.map fun v => (elementsOf v).length).sum = width)
    (outputs : List (String × String)) (offset : Expr) :
    Gives (jacobianEnds target lanes vars width offset outputs) fun ends =>
      List.Forall₂ (fun o st => FillsRows width o.1 o.2 st) outputs ends.writes := by
  induction outputs generalizing offset with
  | nil => exact .pure .nil
  | cons output rest ih =>
    unfold jacobianEnds
    refine .after fun σ => ?_
    dsimp only
    split
    · intro σ st r st' hrun
      cases hrun
    · refine .after fun i => .after fun row => (gives_rowEntries _ _ _ _).bind fun entries hlen => ?_
      exact (ih _).bind fun more hmore => .pure (.cons ⟨row, entries, hlen.trans hwidth, rfl⟩ hmore)

theorem returns_jacobianSteps {s : Setting} {source : Func} {r : Request} {width : Nat}
    {outputs : List Nat} (houtputs : ∀ o ∈ outputs, o < r.target.params.length) (name : String)
    (hwidth : (r.independents.map fun v => (elementsOf v).length).sum = width) :
    Returns ((jacobianSteps s source r
      (outputs.filterMap fun o => r.target.params[o]?.map (·.name)) width name).run'
      (.ofFunc source)) fun g => FillsMatrices r.target g width outputs := by
  have hmatrices : ∀ outputs, Gives (matrixParams outputs) fun ms => ms.length = outputs.length := by
    intro outputs
    induction outputs with
    | nil => exact .pure rfl
    | cons o os ih => exact .after fun m => ih.bind fun ms hms => .pure (by simp [hms])
  have hnames : (outputs.filterMap fun o => r.target.params[o]?.map (·.name)) =
      outputs.map fun o => (r.target.params[o]?.getD default).name := by
    rw [← List.filterMap_eq_map]
    refine List.filterMap_congr fun o ho => ?_
    simp [List.getElem?_eq_getElem (houtputs o ho)]
  rw [hnames]
  unfold jacobianSteps
  refine Gives.run (.after fun count => .after fun index => .after fun adjoints => ?_) _
  refine (hmatrices _).bind fun matrices hlen => .after fun sweeps => ?_
  refine (gives_jacobianEnds hwidth _ _).bind fun ends hends => .after fun σ => .pure ?_
  refine ⟨matrices, _, ends.writes, rfl, List.cons_append.symm, by simpa using hlen, ?_⟩
  rw [List.zip_map_left, List.forall₂_map_left_iff] at hends
  exact hends

/-- The outputs are those that are found before anything is derived. -/
theorem of_jacobian {p : Program} {registry : Library.Registry} {options : Options} {f : Func}
    {order : Nat} {r : Request} (hr : Request.Accepted (.ofProgram p) f .jacobian order r) {g : Func}
    {st : Progress} (h : jacobian (.make p registry options .jacobian) r (.start p) = .ok g st) :
    ∃ width, r.scalarCount = .ok (some width) ∧ FillsMatrices r.target g width
      ((Request.outputArrays (.ofProgram p) r.target).filter fun o =>
        r.independents.all (·.param != o)) := by
  unfold jacobian at h
  dsimp only at h
  rcases hwidth : r.scalarCount with e | _ | width <;> rw [hwidth] at h
  · cases h
  · cases h
  · obtain ⟨host, st₁, hhost, h⟩ := state_bind_eq_ok.mp h
    cases hhost
    split at h
    · cases h
    split at h
    · cases h
    obtain ⟨source, st₂, _, h⟩ := state_bind_eq_ok.mp h
    obtain ⟨name, st₃, _, h⟩ := state_bind_eq_ok.mp h
    refine ⟨width, rfl, returns_jacobianSteps (fun o ho => ?_) name
      (sum_counts hr (.inr rfl) hwidth).2 _ _ _ h⟩
    obtain ⟨q, hq, _⟩ := (Option.any_eq_true _ _).mp
      (List.mem_filter.mp (List.mem_filter.mp ho).1).2
    exact (List.getElem?_eq_some_iff.mp hq).1

end Fluxion.Derive

namespace Fluxion.Command

open Derive
open Library (Registry)
open Listing (Literal)

/-- The arguments for derivatives have a cell for each entry of the matrices that the function fills.
The rows of a jacobian are counted by the name of the output, the cells by its position. -/
def Holds (target g : Func) (given outputs : List (Arg Float)) : Request.Mode → Prop
  | .hessian => ∃ n, outputs = [.zeros (n * n)] ∧ FillsSquare target g n
  | .jacobian => ∃ width positions, outputs = positions.map (fun o =>
      .zeros (lengthAt given o * width)) ∧ FillsMatrices target g width positions
  | _ => True

/-- The parameters that a derived function has beside those of its source take the arguments for
derivatives. -/
theorem exists_outputParams {p : Program} {registry : Registry} {options : Options} {order : Nat}
    {r : Request} (hr : Request.Accepted (.ofProgram p) r.target r.mode order r) {g : Func}
    {st : Progress} (hg : derivedFunc (.make p registry options r.mode) r (.start p) = .ok g st)
    (given : List (Arg Float)) :
    ∃ new, g.params = r.target.params ++ new ∧
      List.Forall₂ (fun q a => q.ty.Takes a) new (outputsFor (.ofProgram p) r given) ∧
      Holds r.target g given (outputsFor (.ofProgram p) r given) r.mode := by
  have hadjoints : List.Forall₂ Ty.Takes (r.independents.map (adjointTy r.target))
      (r.independents.map (adjointFor r.target given)) :=
    List.forall₂_map_left_iff.mpr (List.forall₂_map_right_iff.mpr
      (List.forall₂_same.mpr fun v _ => takes_adjoint r.target given v))
  unfold outputsFor
  unfold derivedFunc at hg
  generalize hmode : r.mode = mode at hg hr ⊢
  cases mode with
  | forward => exact ⟨[], by simp [returns_directional _ _ _ _ _ hg], .nil, trivial⟩
  | reverse =>
    obtain ⟨new, hparams, hnew⟩ := returns_gradientWith _ _ _ _ _ _ hg
    have hnew : new.map (·.ty) = r.independents.map (adjointTy r.target) :=
      hnew.trans (List.append_nil _)
    exact ⟨new, hparams, List.forall₂_map_left_iff.mp (hnew ▸ hadjoints), trivial⟩
  | errorEstimate =>
    obtain ⟨new, hparams, hnew⟩ := returns_gradientWith _ _ _ _ _ _ hg
    refine ⟨new, hparams, List.forall₂_map_left_iff.mp (hnew ▸ ?_), trivial⟩
    exact List.rel_append hadjoints (.cons (.ref _ _) .nil)
  | hessian =>
    obtain ⟨n, hn, hfills⟩ := returns_hessian hr _ _ _ _ hg
    obtain ⟨matrix, hparams, _⟩ := id hfills
    rw [hn]
    exact ⟨_, hparams, .cons (.array _ _ _) .nil, n, rfl, hfills⟩
  | jacobian =>
    obtain ⟨width, hwidth, hfills⟩ := of_jacobian hr hg
    obtain ⟨matrices, _, _, hparams, _, hlen, _⟩ := id hfills
    rw [hwidth]
    refine ⟨_, hparams, ?_, width, _, rfl, hfills⟩
    refine List.forall₂_iff_zip.mpr ⟨by simpa using hlen, fun hmem => ?_⟩
    obtain ⟨hq, ha⟩ := List.of_mem_zip hmem
    obtain ⟨_, _, rfl⟩ := List.mem_map.mp hq
    obtain ⟨_, _, rfl⟩ := List.mem_map.mp ha
    exact .array _ _ _

/-- The literals are bound, and the test holds of the function and its arguments. -/
def binds (ls : List Literal) (test : Program → Derived → List (Arg Float) → Bool) (p : Program)
    (registry : Registry) (r : Request) : Bool :=
  match differentiate p registry .standard r, bindLiterals (.ofProgram p) r ls with
  | .ok d, .ok args => test p d args
  | _, _ => false

theorem binds_loads {ls : List Literal} {test : Program → Derived → List (Arg Float) → Bool}
    (x : Session.Sample ⟨"f", .jacobian, some "x", 1, .standard⟩ (binds ls test)) :
    ∃ p registry target r d args, Session.load x.source = .ok p ∧
      Request.make (.ofProgram p) target .jacobian (some "x") 1 = .ok r ∧
      differentiate p registry .standard r = .ok d ∧
      bindLiterals (.ofProgram p) r ls = .ok args ∧ test p d args = true := by
  obtain ⟨p, registry, f, r, hload, _, _, hr, htest⟩ := x.loads
  unfold binds at htest
  split at htest
  · rename_i d args hd hargs
    exact ⟨p, registry, f, r, d, args, hload, hr, hd, hargs, htest⟩
  · cases htest

/-- A function with two outputs, one of them written by a function that it calls. -/
def twoOutputs : Session.Sample ⟨"f", .jacobian, some "x", 1, .standard⟩
    (binds [.float 2.0, .array [0.0, 0.0], .array [0.0]] fun _ d _ => d.func.params.length == 5) where
  source :=
    "fn put(x: f64, v: [f64]) \x7b v[0] = x * x; \x7d " ++
    "fn f(x: f64, u: [f64], v: [f64]) \x7b u[1] = x; put(x, v); \x7d"
  admitted := by decide +kernel

/-- A function with two outputs of one name. -/
def sameName : Session.Sample ⟨"f", .jacobian, some "x", 1, .standard⟩
    (binds [.float 2.0, .array [0.0], .array [0.0, 0.0]] fun p d args =>
      match (Session.machine p d []).execute d.func args with
      | .error (.fault (.indexOutOfBounds x i n)) => x == "out_jac" && i == 1 && n == 1
      | _ => false) where
  source := "fn f(x: f64, out: [f64], out: [f64]) \x7b out[0] = x; \x7d"
  admitted := by decide +kernel

end Fluxion.Command
