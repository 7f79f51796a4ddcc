import Fluxion.Proofs.Request.Meaningful

/-!
Counts of independent scalars that do not fit a machine word. The ends of a range that is read from
a text are integers of the language, so that no range is too long by itself; but two ranges are
enough for a sum that goes over.
-/

namespace Fluxion

theorem except_bind_eq_error {ε α β : Type} {x : Except ε α} {f : α → Except ε β} {e : ε} :
    (x >>= f) = .error e ↔ x = .error e ∨ ∃ a, x = .ok a ∧ f a = .error e := by
  cases x <;> simp [bind, Except.bind]

namespace Request

open Listing (Token)

/-! ### Ranges that are read -/

/-- One more than the largest integer of the language. -/
def indexLimit : Nat := 2 ^ 63

theorem toNat_lt_indexLimit (i : Int64) : i.toInt.toNat < indexLimit := by
  have := i.toInt_lt
  unfold indexLimit
  omega

theorem takeIndex_lt {ts : List Token} {n : Nat} {rest : Shorter ts}
    (h : takeIndex ts = .ok (n, rest)) : n < indexLimit := by
  unfold takeIndex at h
  split at h
  · cases h
  · split at h
    · cases h
    · cases h
      exact toNat_lt_indexLimit _
  · cases h

theorem takeUpper_lt {lo n : Nat} {ts : List Token} {rest : Shorter ts} (hlo : lo < indexLimit)
    (h : takeUpper lo ts = .ok (n, rest)) : n < indexLimit := by
  unfold takeUpper at h
  split at h
  · obtain ⟨⟨hi, after⟩, hhi, heq⟩ := except_bind_eq_ok.mp h
    cases heq
    exact takeIndex_lt hhi
  · cases h
    exact hlo

theorem takeRange_lt {ts : List Token} {lo hi : Nat} {rest : Shorter ts}
    (h : takeRange ts = .ok (some (lo, hi), rest)) : hi < indexLimit := by
  unfold takeRange at h
  split at h
  · obtain ⟨⟨lo', afterLo⟩, hlo, h⟩ := except_bind_eq_ok.mp h
    obtain ⟨⟨hi', afterHi⟩, hhi, h⟩ := except_bind_eq_ok.mp h
    obtain ⟨rest, _, h⟩ := except_bind_eq_ok.mp h
    cases h
    exact takeUpper_lt (takeIndex_lt hlo) hhi
  · cases h

/-- The ranges of entries end at integers of the language. -/
theorem ofTokens_lt {ts : List Token} {specs : List Spec} (h : Spec.ofTokens ts = .ok specs) :
    ∀ spec ∈ specs, ∀ lo hi, spec.range = some (lo, hi) → hi < indexLimit := by
  fun_induction Spec.ofTokens ts generalizing specs with
  | case1 =>
    cases h
    simp
  | case2 t ts ih =>
    obtain ⟨param, _, h⟩ := except_bind_eq_ok.mp h
    obtain ⟨⟨range, after⟩, hafter, h⟩ := except_bind_eq_ok.mp h
    have hfirst : ∀ lo hi, range = some (lo, hi) → hi < indexLimit := by
      rintro lo hi rfl
      exact takeRange_lt hafter
    dsimp only at h
    split at h
    · cases h
      simpa using hfirst
    · rename_i rest hrest
      obtain ⟨more, hmore, h⟩ := except_bind_eq_ok.mp h
      cases h
      have hmore := ih after rest hrest hmore
      simpa using And.intro hfirst hmore
    · cases h

theorem parseSpecs_lt {text : String} {specs : List Spec} (h : parseSpecs text = .ok specs) :
    ∀ spec ∈ specs, ∀ lo hi, spec.range = some (lo, hi) → hi < indexLimit := by
  rw [parseSpecs, Spec.list] at h
  split at h
  · cases h
  · rename_i ts _
    cases hts : Spec.ofTokens (ts.map (·.1)) with
    | error e => simp [hts, Except.mapError] at h
    | ok specs' =>
      rw [hts] at h
      cases h
      exact ofTokens_lt hts

/-! ### Sums that go over -/

variable {h : Host} {f : Func} {mode : Mode}

theorem validate_ne_overflow (spec : Spec) : validate f spec ≠ .error .countOverflow := by
  intro hfail
  unfold validate at hfail
  rcases except_bind_eq_error.mp hfail with hfind | ⟨⟨i, p⟩, _, hfail⟩
  · unfold findParam at hfind
    split at hfind <;> split at hfind <;> cases hfind
  dsimp only at hfail
  split at hfail
  · cases hfail
  rcases except_bind_eq_error.mp hfail with hrange | ⟨_, _, hfail⟩
  · unfold checkRange at hrange
    repeat' split at hrange
    all_goals cases hrange
  · cases hfail

theorem validateAll_ne_overflow (before : List Independent) (specs : List Spec) :
    validateAll f before specs ≠ .error .countOverflow := by
  induction specs generalizing before with
  | nil => simp [validateAll]
  | cons spec rest ih =>
    intro hfail
    rcases except_bind_eq_error.mp hfail with hspec | ⟨v, _, hfail⟩
    · exact validate_ne_overflow spec hspec
    dsimp only at hfail
    split at hfail
    · cases hfail
    · exact ih _ hfail

/-- Only forward mode counts while a request is checked. -/
theorem checkMode_eq_overflow {vars : List Independent} :
    checkMode h f mode vars = .error .countOverflow ↔
      mode = .forward ∧ countLimit ≤ scalarsOf vars := by
  have hranges (mode : Mode) : checkRanges f mode vars ≠ .error .countOverflow := by
    unfold checkRanges
    split <;> simp
  cases mode with
  | forward =>
    rw [checkMode, checkForward, addCounts_scalarsOf, except_bind_eq_error, ← Nat.not_lt]
    split
    · rename_i hfits
      refine iff_of_false ?_ fun hover => hover.2 hfits
      rintro (⟨⟨⟩⟩ | ⟨count, _, hfail⟩)
      repeat' split at hfail
      all_goals cases hfail
    · rename_i hover
      simp [hover]
  | hessian => exact iff_of_false (hranges _) (by simp)
  | jacobian =>
    refine iff_of_false (fun hfail => ?_) (by simp)
    rcases except_bind_eq_error.mp hfail with hfail | ⟨_, _, hfail⟩
    · exact hranges _ hfail
    · unfold checkOutputs at hfail
      dsimp only at hfail
      repeat' split at hfail
      all_goals cases hfail
  | reverse => simp [checkMode]
  | errorEstimate => simp [checkMode]

/-- The entries up to the first array without a range. -/
def countable (f : Func) (vars : List Independent) : List Independent :=
  vars.takeWhile fun v => !(isArrayAt f v.param && v.range.isNone)

theorem knownSum_countable {specs : List Spec} {vars : List Independent}
    (hvars : List.Forall₂ (Describes f) specs vars) :
    knownSum (vars.map fun v => if isArrayAt f v.param then v.count? else some 1) =
      scalarsOf (countable f vars) := by
  induction hvars with
  | nil => rfl
  | cons hv hrest ih =>
    rename_i spec v specs vars
    cases hrange : v.range with
    | none =>
      cases harray : isArrayAt f v.param with
      | true => simp [countable, scalarsOf, knownSum, harray, hrange, Independent.count?]
      | false =>
        simp only [List.map_cons, harray, Bool.false_eq_true, ↓reduceIte, knownSum, ih]
        simp [countable, scalarsOf, knownSum, harray, hrange, Independent.count?]
    | some bounds =>
      obtain ⟨harray, _⟩ := hv.of_range hrange
      obtain ⟨n, hcount⟩ : ∃ n, v.count? = some n := by simp [Independent.count?, hrange]
      simp only [List.map_cons, harray, ↓reduceIte, hcount, knownSum, ih]
      simp [countable, scalarsOf, knownSum, harray, hrange, hcount]

theorem count_le_indexLimit {v : Independent}
    (hv : ∀ lo hi, v.range = some (lo, hi) → hi < indexLimit) :
    v.count?.getD 1 ≤ if v.range.isSome then indexLimit else 1 := by
  cases hrange : v.range with
  | none => simp [Independent.count?, hrange]
  | some bounds =>
    have := hv bounds.1 bounds.2 hrange
    simp only [Independent.count?, hrange, Option.map_some, Option.getD_some, Option.isSome_some,
      ↓reduceIte]
    omega

/-- Each range counts at most as many scalars as there are indices. -/
theorem scalarsOf_le {vars : List Independent}
    (hvars : ∀ v ∈ vars, ∀ lo hi, v.range = some (lo, hi) → hi < indexLimit) :
    scalarsOf vars ≤ vars.length + vars.countP (·.range.isSome) * indexLimit := by
  induction vars with
  | nil => simp [scalarsOf, knownSum]
  | cons v vars ih =>
    have hv := count_le_indexLimit (hvars v (by simp))
    have hrest := ih fun w hw => hvars w (by simp [hw])
    rw [scalarsOf_cons, List.countP_cons, List.length_cons, Nat.add_mul]
    cases hsome : v.range.isSome <;> simp only [hsome, Bool.false_eq_true, ↓reduceIte] at hv ⊢ <;>
      omega

theorem describes_lt {text : String} {specs : List Spec} {vars : List Independent}
    (hspecs : parseSpecs text = .ok specs) (hvars : List.Forall₂ (Describes f) specs vars) :
    ∀ v ∈ vars, ∀ lo hi, v.range = some (lo, hi) → lo ≤ hi ∧ hi < indexLimit := by
  intro v hv lo hi hrange
  obtain ⟨spec, hspec, hdescribes⟩ := exists_describes hvars v hv
  obtain ⟨_, hle⟩ := hdescribes.of_range hrange
  obtain ⟨p, _, _, _, _, _, heq⟩ := hdescribes
  exact ⟨hle, parseSpecs_lt hspecs spec hspec lo hi (heq ▸ hrange)⟩

theorem ofSpecs_eq_overflow {specs : List Spec} {order : Nat} :
    ofSpecs h f mode specs order = .error .countOverflow ↔
      mode = .forward ∧ order ≠ 0 ∧ ∃ vars, List.Forall₂ (Describes f) specs vars ∧
        (vars.map (·.param)).Nodup ∧ countLimit ≤ scalarsOf vars := by
  rw [ofSpecs]
  split
  · rename_i horder
    refine iff_of_false (fun h => by cases h) ?_
    rintro ⟨rfl, hpos, _⟩
    exact horder.elim hpos fun h => h.2 rfl
  · rename_i horder
    split
    · rename_i hempty
      refine iff_of_false (fun h => by cases h) ?_
      rintro ⟨_, _, vars, hvars, _, hover⟩
      obtain rfl := List.isEmpty_iff.mp hempty
      cases hvars
      exact absurd hover (by decide)
    · simp only [except_bind_eq_error, validateAll_ne_overflow, false_or, checkMode_eq_overflow,
        validateAll_eq_ok]
      constructor
      · rintro ⟨_, ⟨vars, rfl, hvars, hdistinct, _⟩, ⟨hmode, hover⟩ | ⟨_, _, ⟨⟩⟩⟩
        exact ⟨hmode, fun hzero => horder (.inl hzero), _, hvars, hdistinct, hover⟩
      · rintro ⟨hmode, _, vars, hvars, hdistinct, hover⟩
        exact ⟨vars, ⟨vars, rfl, hvars, hdistinct, by simp⟩, .inl ⟨hmode, hover⟩⟩

/-- What is counted and when the count goes over. -/
theorem counts_overflow_iff (h : Host) (f : Func) (mode : Mode) (text : String) (order : Nat) :
    (∀ specs vars, parseSpecs text = .ok specs → List.Forall₂ (Describes f) specs vars →
      (∀ v ∈ vars, ∀ lo hi, v.range = some (lo, hi) → lo ≤ hi ∧ hi - lo + 1 ≤ indexLimit) ∧
      (vars.countP (·.range.isSome) ≤ 1 → vars.length < indexLimit →
        scalarsOf vars < countLimit)) ∧
    (make h f mode (some text) order = .error .countOverflow ↔
      mode = .forward ∧ order ≠ 0 ∧ ∃ specs vars, parseSpecs text = .ok specs ∧
        List.Forall₂ (Describes f) specs vars ∧ (vars.map (·.param)).Nodup ∧
        countLimit ≤ scalarsOf vars) ∧
    ∀ r, make h f mode (some text) order = .ok r →
      (r.scalarCount = .error .countOverflow ↔
        countLimit ≤ scalarsOf (countable f r.independents)) := by
  refine ⟨fun specs vars hspecs hvars => ⟨fun v hv lo hi hrange => ?_, fun hone hlength => ?_⟩, ?_,
    fun r hr => ?_⟩
  · obtain ⟨hle, hlt⟩ := describes_lt hspecs hvars v hv lo hi hrange
    exact ⟨hle, by omega⟩
  · have hle := scalarsOf_le fun v hv lo hi hrange =>
      (describes_lt hspecs hvars v hv lo hi hrange).2
    have hlimit : countLimit = 2 * indexLimit := rfl
    have : vars.countP (·.range.isSome) * indexLimit ≤ 1 * indexLimit :=
      Nat.mul_le_mul_right _ hone
    omega
  · rw [make, except_bind_eq_error]
    have hread : parseSpecs text ≠ .error .countOverflow := by
      unfold parseSpecs
      cases Spec.list text <;> simp [Except.mapError]
    simp only [hread, false_or, ofSpecs_eq_overflow]
    constructor
    · rintro ⟨specs, hspecs, hmode, horder, vars, hvars⟩
      exact ⟨hmode, horder, specs, vars, hspecs, hvars⟩
    · rintro ⟨hmode, horder, specs, vars, hspecs, hvars⟩
      exact ⟨specs, hspecs, hmode, horder, vars, hvars⟩
  · obtain ⟨specs, _, hspecs⟩ := except_bind_eq_ok.mp hr
    obtain ⟨vars, hvars, rfl⟩ := (ofSpecs_ok_iff_meaningful h f mode specs order r).mp hspecs
    rw [scalarCount, addCounts_eq (by decide), Nat.zero_add, knownSum_countable hvars.entries,
      ← Nat.not_lt]
    split <;> simp [*]

/-- A function of two arrays. -/
def firstProducts : Func where
  name := "f"
  params := [⟨"a", .arrayOf .float⟩, ⟨"b", .arrayOf .float⟩]
  ret := .float
  body := some [.ret (some (.binary .mul (.index "a" (.int 0)) (.index "b" (.int 0))))]
  span := default

theorem make_of_toOption {text : String} {specs : List Spec} {order : Nat}
    (hread : (parseSpecs text).toOption = some specs) :
    make h f mode (some text) order = ofSpecs h f mode specs order := by
  cases hparse : parseSpecs text with
  | error e => simp [hparse, Except.toOption] at hread
  | ok specs' =>
    simp only [hparse, Except.toOption, Option.some.injEq] at hread
    simp [make, hparse, hread, bind, Except.bind]

/-- Two ranges that begin at the first element, by where they end. -/
def twoRanges (a b : Nat) : List Spec := [⟨.name "a", some (0, a)⟩, ⟨.name "b", some (0, b)⟩]

/-- Two ranges that together have one scalar less than would go over. -/
theorem counts_overflow_iff_longest :
    ∃ r, make (.ofProgram [firstProducts]) firstProducts .reverse
        (some "a[0:9223372036854775807], b[0:9223372036854775806]") 1 = .ok r ∧
      r.scalarCount ≠ .error .countOverflow := by
  have hr : make (.ofProgram [firstProducts]) firstProducts .reverse
      (some "a[0:9223372036854775807], b[0:9223372036854775806]") 1 =
        ofSpecs (.ofProgram [firstProducts]) firstProducts .reverse
          (twoRanges 9223372036854775807 9223372036854775806) 1 :=
    make_of_toOption (by decide +kernel)
  refine ⟨_, hr.trans rfl, fun hover => ?_⟩
  have hle := ((counts_overflow_iff _ _ _ _ _).2.2 _ (hr.trans rfl)).mp hover
  exact absurd hle (by decide)

/-- With one scalar more, forward mode does not come to refuse the request. -/
theorem forward_count_goes_over :
    make (.ofProgram [firstProducts]) firstProducts .forward
      (some "a[0:9223372036854775807], b[0:9223372036854775807]") 1 = .error .countOverflow := by
  have hread : (parseSpecs "a[0:9223372036854775807], b[0:9223372036854775807]").toOption =
      some (twoRanges 9223372036854775807 9223372036854775807) := by decide +kernel
  rw [make_of_toOption hread]
  rfl

end Request

end Fluxion
