import Mathlib.Data.List.Nodup
import Fluxion.Proofs.Library.Lookup

/-!
What a refused derivative leaves behind. The derivative is recorded for the functions that it fits
one after the other, and a function that has one already is found only when its turn comes: nothing
changes if that is the first function, and otherwise the functions before it keep what they got.
-/

namespace Fluxion.Library.Registry

/-- No lookup tells the registries apart, and they have the same size. -/
structure Alike (r r' : Registry) : Prop where
  entry : ∀ sig, r.entry? sig = r'.entry? sig
  get : ∀ kind sig, r.get? kind sig = r'.get? kind sig
  size : r.size = r'.size

theorem Alike.refl (r : Registry) : Alike r r := ⟨fun _ => rfl, fun _ _ => rfl, rfl⟩

/-- The first function that the derivative fits, if there is any, has a derivative of its kind
already. -/
def FirstTaken (r : Registry) (p : Program) (f : Func) : Prop :=
  ∀ primal kind, splitName f.name = some (primal, kind) →
    ∀ sig ∈ (matching p f primal kind).head?, (r.get? kind sig).isSome

/-- Setting the entries under a name to what they are changes nothing. -/
theorem WellKept.setSlot_slot {r : Registry} (h : r.WellKept) {name : String}
    (hne : r.slot name ≠ []) : r.setSlot name (r.slot name) = r := by
  have hsome : r.slots.lookup name ≠ none := fun hnone => hne (by simp [Registry.slot, hnone])
  obtain ⟨entries, hentries⟩ := Option.ne_none_iff_exists'.mp hsome
  have hslot : r.slot name = entries := by simp [Registry.slot, hentries]
  have hmem := mem_of_lookup hentries
  have hany : r.slots.any (·.1 == name) = true := List.any_eq_true.mpr ⟨_, hmem, by simp⟩
  have hsame : ∀ x ∈ r.slots, (x.1, if x.1 == name then entries else x.2) = x := by
    rintro ⟨key, old⟩ hx
    by_cases hkey : key = name
    · subst hkey
      -- the names are distinct, so this is the slot that the lookup finds
      have heq := List.inj_on_of_nodup_map h.keys hx hmem rfl
      simp [(Prod.mk.inj heq).2]
    · simp [hkey]
  unfold Registry.setSlot
  rw [if_pos hany, hslot]
  exact congrArg Registry.mk ((List.map_congr_left hsame).trans (List.map_id _))

/-- Recording goes on after the first function unless that has a derivative already. -/
theorem record_first (f : Func) (kind : DerivativeKind) (entries : List Entry) (sig : Signature)
    (rest : List Signature) :
    ((derivativeIn entries kind sig).isSome ∧
        record f kind entries (sig :: rest) = (entries, some sig)) ∨
      (derivativeIn entries kind sig = none ∧
        derivativeIn (record f kind entries (sig :: rest)).1 kind sig = some f) := by
  rcases record_cons f kind entries sig rest with
    ⟨hnew, heq⟩ | ⟨e, hfind, ⟨htaken, heq⟩ | ⟨hfree, heq⟩⟩
  · have hnone : entries.find? (·.primal == sig) = none := by simpa using hnew
    refine .inr ⟨by simp [derivativeIn, hnone], ?_⟩
    rw [heq]
    exact derivativeIn_record (by simp [derivativeIn, List.find?_append, hnone])
  · exact .inl ⟨by simpa [derivativeIn, hfind] using htaken, heq⟩
  · have hsig : e.primal = sig := by simpa using List.find?_some hfind
    refine .inr ⟨by simp [derivativeIn, hfind, hfree], ?_⟩
    rw [heq]
    exact derivativeIn_record (by simp [derivativeIn, find?_setOf, hfind, hsig])

/-- A derivative that fits some function is refused without a change exactly if the first one has
a derivative already. -/
theorem alike_setSlot_iff {r : Registry} (h : r.WellKept) {f : Func} {kind : DerivativeKind}
    {sig : Signature} {rest : List Signature} :
    Alike (r.setSlot sig.name (record f kind (r.slot sig.name) (sig :: rest)).1) r ↔
      (r.get? kind sig).isSome := by
  rcases record_first f kind (r.slot sig.name) sig rest with ⟨htaken, heq⟩ | ⟨hnone, hsome⟩
  · refine iff_of_true ?_ htaken
    have hne : r.slot sig.name ≠ [] := by
      intro hnil
      simp [derivativeIn, hnil] at htaken
    rw [heq, h.setSlot_slot hne]
    exact Alike.refl r
  · refine iff_of_false (fun halike => ?_) (by simp [get?_eq, hnone])
    have hget := halike.get kind sig
    rw [get?_eq, get?_eq, slot_setSlot, if_pos rfl, hsome, hnone] at hget
    cases hget

/-- Registering changes nothing exactly if the first function that the derivative fits has a
derivative of its kind already, or there is no such function. -/
theorem WellKept.alike_register_iff {r : Registry} (h : r.WellKept) (p : Program) (f : Func) :
    Alike (r.register p f).1 r ↔ FirstTaken r p f := by
  cases hsplit : splitName f.name with
  | none =>
    have hsame : (r.register p f).1 = r := by simp [Registry.register, hsplit]
    rw [hsame]
    exact iff_of_true (Alike.refl r) (by simp [FirstTaken, hsplit])
  | some split =>
    obtain ⟨primal, kind⟩ := split
    have hfirst : FirstTaken r p f ↔
        ∀ sig ∈ (matching p f primal kind).head?, (r.get? kind sig).isSome := by
      simp [FirstTaken, hsplit]
    rw [hfirst]
    cases hfits : matching p f primal kind with
    | nil =>
      have hsame : (r.register p f).1 = r := by simp [Registry.register, hsplit, hfits]
      rw [hsame]
      exact iff_of_true (Alike.refl r) (by simp)
    | cons sig rest =>
      obtain ⟨rfl, -⟩ := belongs_of_matching hsplit (hfits ▸ List.mem_cons_self)
      have hrecorded : (r.register p f).1 =
          r.setSlot sig.name (record f kind (r.slot sig.name) (sig :: rest)).1 := by
        simp only [Registry.register, hsplit, hfits]
        split <;> rfl
      rw [hrecorded, alike_setSlot_iff h]
      simp

/-- Whatever was registered before: an accepted derivative is recorded for all functions that it
fits, and a refused one for none, so that no lookup and not the size has changed, exactly if the
first function that it fits has a derivative of its kind already or there is no such function. -/
theorem refused_unchanged_iff (calls : List (Program × Func)) (p : Program) (f : Func) :
    let r := empty.registerEach calls
    ((r.register p f).2 = .ok () → ∀ primal kind, splitName f.name = some (primal, kind) →
      ∀ sig ∈ matching p f primal kind, (r.register p f).1.get? kind sig = some f) ∧
    ∀ e, (r.register p f).2 = .error e → (Alike (r.register p f).1 r ↔ FirstTaken r p f) := by
  intro r
  have hempty : empty.WellKept := ⟨List.nodup_nil, by simp [empty]⟩
  refine ⟨?_, fun e _ => (hempty.registerEach calls).alike_register_iff p f⟩
  intro hok primal kind hsplit sig hsig
  exact get?_of_register hsplit hok hsig

/-- A derivative that is registered twice: the second time it is refused, and all stays. -/
theorem refused_unchanged_iff_twice :
    let square : Func := ⟨"square", [⟨"x", .float⟩], .float, none, default⟩
    let given : Func := ⟨"custom_derivatives::square_pushforward",
      [⟨"x", .float⟩, ⟨"d_x", .float⟩], .float, none, default⟩
    let p : Program := [square, given]
    let r := empty.registerEach [(p, given)]
    (r.register p given).2 = .error (.duplicate given.name square.signature .pushforward) ∧
      Alike (r.register p given).1 r ∧ r.get? .pushforward square.signature = some given := by
  intro square given p r
  have hsplit : splitName given.name = some ("square", .pushforward) := by decide +kernel
  have hfits : matching p given "square" .pushforward = [square.signature] := by decide +kernel
  have hslot : r.slot "square" = [⟨square.signature, some given, none⟩] := by
    simp only [r, registerEach, List.foldl, register, hsplit, hfits]
    rfl
  have hrefused : (r.register p given).2 =
      .error (.duplicate given.name square.signature .pushforward) := by
    simp only [register, hsplit, hfits, hslot]
    rfl
  have hget : r.get? .pushforward square.signature = some given := by
    rw [get?_eq, show square.signature.name = "square" from rfl, hslot]
    rfl
  have hfirst : FirstTaken r p given := by simp [FirstTaken, hsplit, hfits, hget]
  exact ⟨hrefused, ((refused_unchanged_iff [(p, given)] p given).2 _ hrefused).mpr hfirst, hget⟩

/-- Two functions that differ in the lengths of arrays only have one signature. A derivative of
both is recorded for the first, and then refused because of the second. -/
theorem refused_after_first_recorded :
    let two : Func := ⟨"norm", [⟨"a", .array .float (some 2)⟩], .float, none, default⟩
    let three : Func := ⟨"norm", [⟨"a", .array .float (some 3)⟩], .float, none, default⟩
    let given : Func := ⟨"custom_derivatives::norm_pullback",
      [⟨"a", .arrayOf .float⟩, ⟨"d_y", .float⟩, ⟨"d_a", .arrayOf .float⟩], .void, none, default⟩
    let p : Program := [two, three, given]
    (empty.register p given).2 = .error (.duplicate given.name two.signature .pullback) ∧
      empty.size = 0 ∧ (empty.register p given).1.size = 1 ∧
      empty.get? .pullback two.signature = none ∧
      (empty.register p given).1.get? .pullback two.signature = some given := by
  intro two three given p
  have hsplit : splitName given.name = some ("norm", .pullback) := by decide +kernel
  have hfits : matching p given "norm" .pullback = [two.signature, three.signature] := by
    decide +kernel
  have hsame : three.signature = two.signature := rfl
  have hregister : empty.register p given =
      (⟨[("norm", [⟨two.signature, none, some given⟩])]⟩,
        .error (.duplicate given.name two.signature .pullback)) := by
    simp only [register, hsplit, hfits, hsame]
    rfl
  rw [hregister]
  exact ⟨rfl, rfl, rfl, rfl, rfl⟩

end Fluxion.Library.Registry
