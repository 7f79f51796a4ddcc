import Mathlib.Data.List.Nodup
import Mathlib.Data.List.Perm.Subperm
import Fluxion.Names

namespace Fluxion

/-- Different numbers are written differently. -/
theorem toString_nat_injective : Function.Injective (toString : Nat → String) := by
  intro m n h
  have hd : Nat.toDigits 10 m = Nat.toDigits 10 n := by
    apply String.ofList_injective
    change Nat.repr m = Nat.repr n at h
    rwa [Nat.repr_eq_ofList_toDigits, Nat.repr_eq_ofList_toDigits] at h
  rw [← Nat.ofDigitChars_toDigits (b := 10) (n := m) (by decide) (by decide), hd,
    Nat.ofDigitChars_toDigits (by decide) (by decide)]

namespace NameSupply

theorem variant_injective (base : String) : Function.Injective (variant base) := by
  intro m n h
  cases m with
  | zero =>
    cases n with
    | zero => rfl
    | succ n =>
      have hl := congrArg String.length h
      simp only [variant, String.length_append] at hl
      have : "_".length = 1 := rfl
      omega
  | succ m =>
    cases n with
    | zero =>
      have hl := congrArg String.length h
      simp only [variant, String.length_append] at hl
      have : "_".length = 1 := rfl
      omega
    | succ n => exact toString_nat_injective ((String.append_right_inj _).mp h)

theorem numbered_injective (stem : String) :
    Function.Injective fun n : Nat => stem ++ toString n := by
  intro m n h
  exact toString_nat_injective ((String.append_right_inj _).mp h)

/-- The search stops at the first free name of the series, or when it has skipped `limit` names. -/
theorem firstFree_first (s : NameSupply) (series : Nat → String) (n limit : Nat) :
    ∃ k ≤ limit, s.firstFree series n limit = series (n + k) ∧
      (∀ j < k, series (n + j) ∈ s.used) ∧ (series (n + k) ∈ s.used → k = limit) := by
  induction limit generalizing n with
  | zero => exact ⟨0, Nat.le_refl 0, rfl, by simp, fun _ => rfl⟩
  | succ limit ih =>
    by_cases h : series n ∈ s.used
    · have hu : s.isUsed (series n) = true := by simpa [isUsed] using h
      obtain ⟨k, hk, hfound, hbefore, hend⟩ := ih (n + 1)
      rw [Nat.add_right_comm] at hfound hend
      rw [firstFree, if_pos hu]
      refine ⟨k + 1, Nat.succ_le_succ hk, hfound, fun j hj => ?_,
        fun hused => congrArg (· + 1) (hend hused)⟩
      cases j with
      | zero => exact h
      | succ j =>
        have := hbefore j (Nat.lt_of_succ_lt_succ hj)
        rwa [Nat.add_right_comm] at this
    · have hu : s.isUsed (series n) = false := by simpa [isUsed] using h
      exact ⟨0, Nat.zero_le _, by simp [firstFree, hu], by simp, fun hused => absurd hused h⟩

theorem firstFree_mem (s : NameSupply) (series : Nat → String) (n limit : Nat) :
    ∃ k, s.firstFree series n limit = series k := by
  obtain ⟨k, _, hfound, _⟩ := s.firstFree_first series n limit
  exact ⟨n + k, hfound⟩

/-- The name is the first of the series that is not among those taken, and no more names of the
series come before it than are taken. -/
def FirstFree (taken : List String) (series : Nat → String) (name : String) : Prop :=
  ∃ n ≤ taken.length, name = series n ∧ series n ∉ taken ∧ ∀ k < n, series k ∈ taken

/-- More names of a series are tried than are taken, so a free one is found. -/
theorem take_first (s : NameSupply) {series : Nat → String} (h : Function.Injective series) :
    FirstFree s.used series (s.take series).1 := by
  obtain ⟨n, hn, hfound, hbefore, hend⟩ := s.firstFree_first series 0 s.used.length
  simp only [Nat.zero_add] at hfound hbefore hend
  refine ⟨n, hn, hfound, fun hused => ?_, hbefore⟩
  have hlast := hend hused
  have hsub : (List.range (n + 1)).map series ⊆ s.used := by
    intro x hx
    obtain ⟨k, hk, rfl⟩ := List.mem_map.mp hx
    rcases Nat.lt_succ_iff_lt_or_eq.mp (List.mem_range.mp hk) with hlt | rfl
    · exact hbefore k hlt
    · exact hused
  have hle := ((List.Nodup.map h List.nodup_range).subperm hsub).length_le
  simp only [List.length_map, List.length_range] at hle
  omega

theorem take_fresh (s : NameSupply) {series : Nat → String} (h : Function.Injective series) :
    (s.take series).1 ∉ s.used := by
  obtain ⟨n, _, heq, hfree, _⟩ := s.take_first h
  exact heq ▸ hfree

@[simp] theorem take_used (s : NameSupply) (series : Nat → String) :
    (s.take series).2.used = (s.take series).1 :: s.used := rfl

theorem fresh_fresh (s : NameSupply) (base : String) : (s.fresh base).1 ∉ s.used :=
  s.take_fresh (variant_injective base)

@[simp] theorem fresh_used (s : NameSupply) (base : String) :
    (s.fresh base).2.used = (s.fresh base).1 :: s.used := rfl

theorem numbered_fresh (s : NameSupply) (stem : String) : (s.numbered stem).1 ∉ s.used :=
  s.take_fresh (numbered_injective stem)

@[simp] theorem numbered_used (s : NameSupply) (stem : String) :
    (s.numbered stem).2.used = (s.numbered stem).1 :: s.used := rfl

@[simp] theorem mem_reserve (s : NameSupply) (x y : String) :
    y ∈ (s.reserve x).used ↔ y = x ∨ y ∈ s.used := by
  unfold reserve isUsed
  split
  · rename_i h
    have hx : x ∈ s.used := by simpa using h
    constructor
    · exact .inr
    · rintro (rfl | h)
      · exact hx
      · exact h
  · simp

@[simp] theorem mem_reserveAll (s : NameSupply) (names : List String) (y : String) :
    y ∈ (s.reserveAll names).used ↔ y ∈ names ∨ y ∈ s.used := by
  induction names generalizing s with
  | nil => simp [reserveAll]
  | cons x rest ih =>
    have := ih (s.reserve x)
    simp only [reserveAll, List.foldl_cons] at this ⊢
    rw [this, mem_reserve, List.mem_cons]
    tauto

@[simp] theorem mem_ofFunc (f : Func) (y : String) :
    y ∈ (ofFunc f).used ↔
      y ∈ f.params.map (·.name) ∨ y ∈ (declaredIn f.stmts).map (·.1) := by
  simp [ofFunc, empty]

theorem isDigit_of_mem_toString {n : Nat} {c : Char} (h : c ∈ (toString n).toList) :
    c.isDigit = true := by
  have heq : (toString n).toList = Nat.toDigits 10 n := by
    change (Nat.repr n).toList = _
    rw [Nat.repr_eq_ofList_toDigits, String.toList_ofList]
  rw [heq] at h
  exact Nat.isDigit_of_mem_toDigits (by decide) (by decide) h

/-! ### Supplies in use -/

/-- What a supply is asked for. -/
inductive Demand
  | reserve (name : String)
  | fresh (base : String)
  | numbered (stem : String)

/-- The name that is taken by a demand, and the supply after it. -/
def meet (s : NameSupply) : Demand → String × NameSupply
  | .reserve name => (name, s.reserve name)
  | .fresh base => s.fresh base
  | .numbered stem => s.numbered stem

/-- The names that demands took one after the other, from a supply where nothing is taken, and the
supply after them. -/
def history (demands : List Demand) : List String × NameSupply :=
  demands.foldl (fun past d => ((past.2.meet d).1 :: past.1, (past.2.meet d).2)) ([], empty)

/-- The supply knows exactly the names taken. -/
structure Records (taken : List String) (s : NameSupply) : Prop where
  mem : ∀ x, x ∈ s.used ↔ x ∈ taken
  length : s.used.length ≤ taken.length

theorem Records.meet {taken : List String} {s : NameSupply} (h : Records taken s) (d : Demand) :
    Records ((s.meet d).1 :: taken) (s.meet d).2 := by
  cases d with
  | reserve name =>
    refine ⟨fun x => by simp [NameSupply.meet, h.mem], ?_⟩
    have hlength : (s.reserve name).used.length ≤ s.used.length + 1 := by
      unfold reserve
      split <;> simp
    exact Nat.le_trans hlength (Nat.succ_le_succ h.length)
  | fresh _ | numbered _ =>
    exact ⟨fun x => by simp [NameSupply.meet, h.mem], Nat.succ_le_succ h.length⟩

theorem records_history (demands : List Demand) :
    Records (history demands).1 (history demands).2 :=
  List.foldlRecOn (motive := fun (past : List String × NameSupply) => Records past.1 past.2) demands _
    ⟨fun _ => Iff.rfl, Nat.le_refl 0⟩ fun _ h d _ => h.meet d

theorem Records.firstFree {taken : List String} {s : NameSupply} (h : Records taken s)
    {series : Nat → String} {name : String} (hname : FirstFree s.used series name) :
    FirstFree taken series name := by
  obtain ⟨n, hn, heq, hfree, hbefore⟩ := hname
  exact ⟨n, Nat.le_trans hn h.length, heq, fun hmem => hfree ((h.mem _).mpr hmem),
    fun k hk => (h.mem _).mp (hbefore k hk)⟩

/-- After any demands, a further name is found: the first of its series that was neither reserved
nor given out. -/
theorem first_free_after_history (past : List Demand) :
    (∀ base, FirstFree (history past).1 (variant base) ((history past).2.fresh base).1) ∧
    ∀ stem, FirstFree (history past).1 (fun n => stem ++ toString n)
      ((history past).2.numbered stem).1 :=
  ⟨fun base => (records_history past).firstFree (take_first _ (variant_injective base)),
    fun stem => (records_history past).firstFree (take_first _ (numbered_injective stem))⟩

end NameSupply

end Fluxion
