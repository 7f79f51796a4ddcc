import Mathlib.Data.List.Forall2
import Mathlib.Algebra.BigOperators.Group.List.Basic
import Fluxion.Proofs.Request.Validated

/-!
Which lists of independent variables make sense. The checks of a request go through its entries one
by one, then over pairs of them, and last count what the mode asks for; together they accept exactly
the lists described here.
-/

namespace Fluxion.Request

/-! ### Entries -/

/-- The position that an entry refers to: that of the first parameter of the name, or the position
itself. -/
def ParamRef.Means (f : Func) : ParamRef → Nat → Prop
  | .name x, i => (∃ p, f.params[i]? = some p ∧ p.name = x) ∧
      ∀ j < i, ∀ p, f.params[j]? = some p → p.name ≠ x
  | .position k, i => i = k

/-- Ranges are of arrays, are not empty, and end before the length if it is known. -/
def Within (t : Ty) : Option (Nat × Nat) → Prop
  | none => True
  | some (lo, hi) => ∃ elem len, t = .array elem len ∧ lo ≤ hi ∧ ∀ n, len = some n → hi < n

/-- The entry stands for the independent variable: a parameter that is there and differentiable,
with a range that it has. -/
def Describes (f : Func) (spec : Spec) (v : Independent) : Prop :=
  ∃ p, f.params[v.param]? = some p ∧ spec.param.Means f v.param ∧ p.ty.isDifferentiable = true ∧
    Within p.ty spec.range ∧ v.name = p.name ∧ v.range = spec.range

/-! ### Modes -/

/-- The independent variable is one scalar: a parameter that is no array, or one element. -/
def Independent.IsScalar (f : Func) (v : Independent) : Prop :=
  (isArrayAt f v.param = false ∧ v.range = none) ∨
    (isArrayAt f v.param = true ∧ ∃ e, v.range = some (e, e))

/-- Every array comes with a range. -/
def Ranged (f : Func) (vars : List Independent) : Prop :=
  ∀ v ∈ vars, isArrayAt f v.param = true → v.range ≠ none

/-- What a mode asks of the independent variables. -/
def Suits (h : Host) (f : Func) (vars : List Independent) : Mode → Prop
  | .forward => ∃ v, vars = [v] ∧ v.IsScalar f
  | .hessian => Ranged f vars
  | .jacobian => Ranged f vars ∧ outputArrays h f ≠ [] ∧ ∀ v ∈ vars, v.param ∉ outputArrays h f
  | .reverse | .errorEstimate => True

/-- The entries make sense, and stand for the independent variables in their order. -/
structure Meaningful (h : Host) (f : Func) (mode : Mode) (specs : List Spec) (order : Nat)
    (vars : List Independent) : Prop where
  order : order = 1 ∨ (1 < order ∧ mode = .forward)
  nonempty : specs ≠ []
  entries : List.Forall₂ (Describes f) specs vars
  distinct : (vars.map (·.param)).Nodup
  suits : Suits h f vars mode

variable {h : Host} {f : Func} {mode : Mode}

/-! ### Checks of entries -/

theorem param?_eq_some {x : String} {i : Nat} {p : Param} :
    f.param? x = some (i, p) ↔ f.params[i]? = some p ∧ (ParamRef.name x).Means f i := by
  rw [Func.param?, Option.map_eq_some_iff]
  simp only [Prod.exists, Prod.mk.injEq, List.find?_eq_some_iff_getElem, List.getElem_zipIdx,
    List.length_zipIdx, Nat.zero_add, beq_iff_eq, Bool.not_eq_eq_eq_not, Bool.not_true,
    beq_eq_false_iff_ne, ParamRef.Means]
  constructor
  · rintro ⟨q, j, ⟨hname, k, hk, ⟨rfl, rfl⟩, hfirst⟩, rfl, rfl⟩
    have hq := List.getElem?_eq_getElem hk
    refine ⟨hq, ⟨_, hq, hname⟩, fun j hj q hq => ?_⟩
    obtain ⟨hlen, rfl⟩ := List.getElem?_eq_some_iff.mp hq
    exact hfirst j hj
  · rintro ⟨hp, ⟨q, hq, hname⟩, hfirst⟩
    obtain rfl := Option.some.inj (hp.symm.trans hq)
    obtain ⟨hlen, rfl⟩ := List.getElem?_eq_some_iff.mp hp
    exact ⟨_, i, ⟨hname, i, hlen, ⟨rfl, rfl⟩, fun j hj =>
      hfirst j hj _ (List.getElem?_eq_getElem (by omega))⟩, rfl, rfl⟩

theorem findParam_eq_ok {ref : ParamRef} {i : Nat} {p : Param} :
    findParam f ref = .ok (i, p) ↔ f.params[i]? = some p ∧ ref.Means f i := by
  cases ref with
  | name x =>
    rw [← param?_eq_some, findParam]
    cases f.param? x <;> simp
  | position k =>
    rw [findParam]
    cases hk : f.params[k]? with
    | none =>
      simp only [reduceCtorEq, ParamRef.Means, false_iff, not_and]
      rintro hi rfl
      simp [hk] at hi
    | some q =>
      simp only [Except.ok.injEq, Prod.mk.injEq, ParamRef.Means]
      constructor
      · rintro ⟨rfl, rfl⟩
        exact ⟨hk, rfl⟩
      · rintro ⟨hi, rfl⟩
        exact ⟨rfl, Option.some.inj (hk.symm.trans hi)⟩

theorem checkRange_eq_ok {p : Param} {range : Option (Nat × Nat)} :
    checkRange p range = .ok () ↔ Within p.ty range := by
  obtain _ | ⟨lo, hi⟩ := range
  · simp [checkRange, Within]
  · rw [checkRange, Within]
    split
    · rename_i elem len hty
      by_cases hle : hi < lo
      · simp [hle, Nat.not_le.mpr hle, hty]
      · have hlo : lo ≤ hi := Nat.not_lt.mp hle
        cases len with
        | none => simp [hle, hlo, hty]
        | some n =>
          by_cases hn : n ≤ hi
          · simp [hle, hn, hty]
          · simp [hle, hlo, hn, Nat.not_le.mp hn, hty]
    · rename_i hty
      simp only [reduceCtorEq, false_iff, not_exists, not_and]
      intro elem len heq
      exact absurd heq (hty elem len)

theorem validate_eq_ok {spec : Spec} {v : Independent} :
    validate f spec = .ok v ↔ Describes f spec v := by
  obtain ⟨ref, range⟩ := spec
  obtain ⟨i, x, range'⟩ := v
  simp only [validate, except_bind_eq_ok, Prod.exists, findParam_eq_ok, Describes]
  constructor
  · rintro ⟨j, p, ⟨hp, hmeans⟩, hv⟩
    split at hv
    · cases hv
    · rename_i hdiff
      obtain ⟨_, hrange, hv⟩ := except_bind_eq_ok.mp hv
      cases hv
      exact ⟨p, hp, hmeans, by simpa using hdiff, checkRange_eq_ok.mp hrange, rfl, rfl⟩
  · rintro ⟨p, hp, hmeans, hdiff, hrange, rfl, rfl⟩
    refine ⟨i, p, ⟨hp, hmeans⟩, ?_⟩
    simp [hdiff, checkRange_eq_ok.mpr hrange]

theorem validateAll_cons_eq_ok {before vars : List Independent} {spec : Spec} {rest : List Spec} :
    validateAll f before (spec :: rest) = .ok vars ↔
      ∃ v, Describes f spec v ∧ (∀ w ∈ before, w.param ≠ v.param) ∧
        validateAll f (before ++ [v]) rest = .ok vars := by
  simp only [validateAll, except_bind_eq_ok, validate_eq_ok]
  refine exists_congr fun v => and_congr_right fun _ => ?_
  split
  · rename_i hany
    simp only [List.any_eq_true, beq_iff_eq] at hany
    obtain ⟨w, hw, heq⟩ := hany
    exact iff_of_false (fun h => by cases h) fun h => h.1 w hw heq
  · rename_i hany
    simp only [List.any_eq_true, beq_iff_eq, not_exists, not_and] at hany
    exact ⟨fun h => ⟨hany, h⟩, And.right⟩

/-- The checks of entries accept those that stand for independent variables, all of different
parameters. -/
theorem validateAll_eq_ok {before vars : List Independent} {specs : List Spec} :
    validateAll f before specs = .ok vars ↔
      ∃ new, vars = before ++ new ∧ List.Forall₂ (Describes f) specs new ∧
        (new.map (·.param)).Nodup ∧ ∀ v ∈ new, ∀ w ∈ before, w.param ≠ v.param := by
  induction specs generalizing before with
  | nil => simp [validateAll, eq_comm]
  | cons spec rest ih =>
    simp only [validateAll_cons_eq_ok, ih]
    constructor
    · rintro ⟨v, hv, hbefore, new, rfl, hnew, hdistinct, happart⟩
      refine ⟨v :: new, by simp, .cons hv hnew, List.nodup_cons.mpr ⟨?_, hdistinct⟩, ?_⟩
      · rintro hmem
        obtain ⟨w, hw, heq⟩ := List.mem_map.mp hmem
        exact happart w hw v (by simp) heq.symm
      · rintro w hw u hu
        rcases List.mem_cons.mp hw with rfl | hw
        · exact hbefore u hu
        · exact happart w hw u (by simp [hu])
    · rintro ⟨_, rfl, ⟨⟩ | ⟨hv, hnew⟩, hdistinct, happart⟩
      rename_i v new
      obtain ⟨hfirst, hdistinct⟩ := List.nodup_cons.mp hdistinct
      refine ⟨v, hv, happart v (by simp), new, by simp, hnew, hdistinct, fun w hw u hu => ?_⟩
      rcases List.mem_append.mp hu with hu | hu
      · exact happart w (by simp [hw]) u hu
      · rintro heq
        rw [List.mem_singleton.mp hu] at heq
        exact hfirst (List.mem_map.mpr ⟨w, hw, heq.symm⟩)

/-! ### Counts -/

/-- The sum of counts up to the first that is not known. -/
def knownSum : List (Option Nat) → Nat
  | some n :: rest => n + knownSum rest
  | _ => 0

/-- Counts are added exactly, unless the sum does not fit. -/
theorem addCounts_eq {total : Nat} (ht : total < countLimit) (counts : List (Option Nat)) :
    addCounts total counts =
      if total + knownSum counts < countLimit then
        .ok (if counts.all Option.isSome then some (total + knownSum counts) else none)
      else .error .countOverflow := by
  induction counts generalizing total with
  | nil => simp [addCounts, knownSum, ht]
  | cons count rest ih =>
    cases count with
    | none => simp [addCounts, knownSum, ht]
    | some n =>
      rw [addCounts, knownSum]
      split
      · rename_i hn
        simp [ih hn, Nat.add_assoc]
      · rw [if_neg (by omega)]

/-- The number of scalars that entries amount to, a parameter without a range being one. -/
def scalarsOf (vars : List Independent) : Nat :=
  knownSum (vars.map fun v => some (v.count?.getD 1))

theorem addCounts_scalarsOf (vars : List Independent) :
    addCounts 0 (vars.map fun v => some (v.count?.getD 1)) =
      if scalarsOf vars < countLimit then .ok (some (scalarsOf vars)) else .error .countOverflow := by
  have hall : (vars.map fun v => some (v.count?.getD 1)).all Option.isSome = true := by simp
  rw [addCounts_eq (by decide), hall, scalarsOf, Nat.zero_add, if_pos rfl]

theorem scalarsOf_cons (v : Independent) (vars : List Independent) :
    scalarsOf (v :: vars) = v.count?.getD 1 + scalarsOf vars := rfl

theorem one_le_count (v : Independent) : 1 ≤ v.count?.getD 1 := by
  cases hrange : v.range <;> simp [Independent.count?, hrange]

/-! ### Checks of modes -/

/-- What a range says about its parameter. -/
theorem Describes.of_range {spec : Spec} {v : Independent} {lo hi : Nat}
    (hv : Describes f spec v) (hrange : v.range = some (lo, hi)) :
    isArrayAt f v.param = true ∧ lo ≤ hi := by
  obtain ⟨p, hp, _, _, hwithin, _, heq⟩ := hv
  rw [← heq, hrange] at hwithin
  obtain ⟨elem, len, hty, hle, _⟩ := hwithin
  exact ⟨by simp [isArrayAt, hp, hty, Ty.isArray], hle⟩

theorem exists_describes {specs : List Spec} {vars : List Independent}
    (hvars : List.Forall₂ (Describes f) specs vars) :
    ∀ v ∈ vars, ∃ spec ∈ specs, Describes f spec v := by
  induction hvars with
  | nil => simp
  | cons hv _ ih =>
    intro w hw
    rcases List.mem_cons.mp hw with rfl | hw
    · exact ⟨_, by simp, hv⟩
    · obtain ⟨spec, hspec, hw⟩ := ih w hw
      exact ⟨spec, by simp [hspec], hw⟩

theorem Describes.count_eq_one_iff {spec : Spec} {v : Independent} (hv : Describes f spec v) :
    (v.count?.getD 1 = 1 ∧ ¬ (isArrayAt f v.param = true ∧ v.range = none)) ↔ v.IsScalar f := by
  cases hrange : v.range with
  | none => simp [Independent.count?, Independent.IsScalar, hrange]
  | some bounds =>
    obtain ⟨harray, hle⟩ := hv.of_range hrange
    simp only [Independent.count?, Independent.IsScalar, hrange, harray, Option.map_some,
      Option.getD_some, reduceCtorEq, and_false, not_false_eq_true, and_true, Option.some.injEq,
      Prod.ext_iff, true_and, false_or, Bool.true_eq_false]
    constructor
    · intro h
      exact ⟨bounds.1, rfl, by omega⟩
    · rintro ⟨e, he, he'⟩
      omega

/-- As every entry is at least one scalar, a sum of one means one entry that is one scalar. -/
theorem checkForward_eq_ok {specs : List Spec} {vars : List Independent}
    (hvars : List.Forall₂ (Describes f) specs vars) :
    checkForward f vars = .ok () ↔ ∃ v, vars = [v] ∧ v.IsScalar f := by
  rw [checkForward, addCounts_scalarsOf]
  cases hvars with
  | nil => simp [scalarsOf, knownSum, countLimit]
  | cons hv hrest =>
    rename_i spec v specs' rest
    cases hrest with
    | nil =>
      have hcount := hv.count_eq_one_iff
      have hsum : scalarsOf [v] = v.count?.getD 1 := rfl
      simp only [List.cons.injEq, and_true, exists_eq_left', ← hcount, hsum]
      by_cases hfits : v.count?.getD 1 < countLimit
      · by_cases hmissing : isArrayAt f v.param = true ∧ v.range = none
        · simp [hfits, hmissing]
        · by_cases hone : v.count?.getD 1 = 1
          · have hlimit : 1 < countLimit := by decide
            simp [hmissing, hone, hlimit]
          · simp [hfits, hmissing, hone]
      · have hone : v.count?.getD 1 ≠ 1 := fun hone => hfits (by rw [hone]; decide)
        simp [hfits, hone]
    | cons hw hmore =>
      rename_i w specs'' more
      have hv := one_le_count v
      have hw := one_le_count w
      have hsum : scalarsOf (v :: w :: more) ≠ 1 := by
        simp only [scalarsOf_cons]
        omega
      split <;> simp [hsum]

theorem checkRanges_eq_ok {vars : List Independent} :
    checkRanges f mode vars = .ok () ↔ Ranged f vars := by
  rw [checkRanges]
  cases hfind : vars.find? fun v => v.range.isNone && isArrayAt f v.param with
  | none =>
    simp only [List.find?_eq_none, Bool.and_eq_true, Option.isNone_iff_eq_none, not_and] at hfind
    simp only [Ranged, true_iff]
    intro v hv harray hnone
    exact hfind v hv hnone harray
  | some v =>
    have hv := List.find?_some hfind
    simp only [Bool.and_eq_true, Option.isNone_iff_eq_none] at hv
    refine iff_of_false (by simp) fun hranged => ?_
    exact hranged v (List.mem_of_find?_eq_some hfind) hv.2 hv.1

theorem checkOutputs_eq_ok {vars : List Independent} :
    checkOutputs h f vars = .ok () ↔
      outputArrays h f ≠ [] ∧ ∀ v ∈ vars, v.param ∉ outputArrays h f := by
  rw [checkOutputs]
  cases hfind : vars.find? fun v => (outputArrays h f).contains v.param with
  | none =>
    simp only [List.find?_eq_none, List.contains_iff_mem] at hfind
    simp +contextual [hfind]
  | some v =>
    have hv := List.find?_some hfind
    refine iff_of_false (by split <;> simp) fun houtputs => ?_
    exact houtputs.2 v (List.mem_of_find?_eq_some hfind) (by simpa using hv)

/-- The check of a mode accepts what suits it. -/
theorem checkMode_eq_ok {specs : List Spec} {vars : List Independent}
    (hvars : List.Forall₂ (Describes f) specs vars) :
    checkMode h f mode vars = .ok () ↔ Suits h f vars mode := by
  cases mode with
  | forward => exact checkForward_eq_ok hvars
  | hessian => exact checkRanges_eq_ok
  | jacobian =>
    rw [Suits, checkMode, except_bind_eq_ok, ← checkRanges_eq_ok, ← checkOutputs_eq_ok]
    constructor
    · rintro ⟨_, hranges, houtputs⟩
      exact ⟨hranges, houtputs⟩
    · rintro ⟨hranges, houtputs⟩
      exact ⟨(), hranges, houtputs⟩
  | reverse => simp [checkMode, Suits]
  | errorEstimate => simp [checkMode, Suits]

/-- A request is accepted if and only if it makes sense, and it then has an independent variable for
each entry, in their order. -/
theorem ofSpecs_ok_iff_meaningful (h : Host) (f : Func) (mode : Mode) (specs : List Spec)
    (order : Nat) (r : Request) :
    ofSpecs h f mode specs order = .ok r ↔
      ∃ vars, Meaningful h f mode specs order vars ∧ r = ⟨f, vars, mode, order⟩ := by
  rw [ofSpecs]
  by_cases horder : order = 0 ∨ (1 < order ∧ mode ≠ .forward)
  · refine iff_of_false (by simp [horder]) ?_
    rintro ⟨vars, hvars, rfl⟩
    rcases horder, hvars.order with ⟨hzero | ⟨hlt, hmode⟩, hone | ⟨_, hforward⟩⟩ <;> simp_all
  by_cases hempty : specs = []
  · refine iff_of_false (by simp [horder, hempty]) ?_
    rintro ⟨vars, hvars, rfl⟩
    exact hvars.nonempty hempty
  simp only [horder, List.isEmpty_iff, hempty, ↓reduceIte, except_bind_eq_ok, except_pure_eq_ok,
    validateAll_eq_ok]
  constructor
  · rintro ⟨vars, ⟨_, rfl, hentries, hdistinct, _⟩, ⟨⟩, hmode, rfl⟩
    exact ⟨_, ⟨by grind, hempty, hentries, hdistinct, (checkMode_eq_ok hentries).mp hmode⟩, rfl⟩
  · rintro ⟨vars, hvars, rfl⟩
    exact ⟨vars, ⟨vars, rfl, hvars.entries, hvars.distinct, by simp⟩, (),
      (checkMode_eq_ok hvars.entries).mpr hvars.suits, rfl⟩

end Fluxion.Request
