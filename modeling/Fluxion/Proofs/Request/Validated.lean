import Fluxion.Proofs.Results
import Fluxion.Request.Request

/-!
What holds of the requests that are accepted.
-/

namespace Fluxion.Request

variable {h : Host} {f : Func} {mode : Mode}

/-- What a request was checked for. -/
structure Accepted (h : Host) (f : Func) (mode : Mode) (order : Nat) (r : Request) : Prop where
  target : r.target = f
  mode_eq : r.mode = mode
  order_eq : r.order = order
  order_pos : order ≠ 0
  vars : ∃ specs, validateAll f [] specs = .ok r.independents
  checked : checkMode h f mode r.independents = .ok ()

theorem accepted_of_ofSpecs {specs : List Spec} {order : Nat} {r : Request}
    (hr : ofSpecs h f mode specs order = .ok r) : Accepted h f mode order r := by
  unfold ofSpecs at hr
  by_cases horder : order = 0 ∨ (1 < order ∧ mode ≠ .forward)
  · simp [horder] at hr
  by_cases hempty : specs.isEmpty = true
  · simp [horder, hempty] at hr
  simp only [horder, hempty, ↓reduceIte, Bool.false_eq_true, except_bind_eq_ok,
    except_pure_eq_ok] at hr
  obtain ⟨vars, hvars, _, hmode, rfl⟩ := hr
  exact ⟨rfl, rfl, rfl, fun hzero => horder (.inl hzero), ⟨specs, hvars⟩, hmode⟩

theorem accepted_of_make {wrt : Option String} {order : Nat} {r : Request}
    (hr : make h f mode wrt order = .ok r) : Accepted h f mode order r := by
  unfold make at hr
  cases wrt with
  | none => exact accepted_of_ofSpecs hr
  | some text =>
    simp only [except_bind_eq_ok] at hr
    obtain ⟨specs, _, hspecs⟩ := hr
    exact accepted_of_ofSpecs hspecs

theorem param_lt_of_findParam {ref : ParamRef} {found : Nat × Param}
    (h : findParam f ref = .ok found) : found.1 < f.params.length := by
  unfold findParam at h
  split at h
  · split at h
    · rename_i found' hfound
      cases h
      obtain ⟨⟨p, i⟩, hfind, rfl⟩ := Option.map_eq_some_iff.mp hfound
      have hp := List.mk_mem_zipIdx_iff_getElem?.mp (List.mem_of_find?_eq_some hfind)
      exact (List.getElem?_eq_some_iff.mp hp).1
    · cases h
  · split at h
    · rename_i i p hp
      cases h
      exact (List.getElem?_eq_some_iff.mp hp).1
    · cases h

/-- Independent variables are parameters of the function. -/
theorem param_lt_of_validateAll {before vars : List Independent} {specs : List Spec}
    (h : validateAll f before specs = .ok vars) (hbefore : ∀ v ∈ before, v.param < f.params.length) :
    ∀ v ∈ vars, v.param < f.params.length := by
  induction specs generalizing before with
  | nil =>
    cases h
    exact hbefore
  | cons spec rest ih =>
    simp only [validateAll, validate, except_bind_eq_ok] at h
    obtain ⟨v, ⟨found, hfound, hv⟩, hrest⟩ := h
    have hparam : v.param = found.1 := by
      split at hv
      · cases hv
      · obtain ⟨_, _, hv⟩ := except_bind_eq_ok.mp hv
        cases hv
        rfl
    split at hrest
    · cases hrest
    · refine ih hrest fun w hw => ?_
      rcases List.mem_append.mp hw with hw | hw
      · exact hbefore w hw
      · rw [List.mem_singleton.mp hw, hparam]
        exact param_lt_of_findParam hfound

end Fluxion.Request
