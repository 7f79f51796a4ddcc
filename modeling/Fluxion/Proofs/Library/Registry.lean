import Fluxion.Library.Registry
import Fluxion.Proofs.Results

/-!
A registry holds derivatives of the program it was made from, each under the functions that it
fits.
-/

namespace Fluxion.Library.Registry

/-- The derivative `f` of a kind belongs to a function of the program, by its name and by its
parameters. -/
structure Fits (p : Program) (f : Func) (kind : DerivativeKind) (primal : Signature) : Prop where
  mem : f ∈ p
  split : splitName f.name = some (primal.name, kind)
  matching : primal ∈ matching p f primal.name kind

/-- Entries under a name that hold derivatives which fit. -/
def Sound (p : Program) (name : String) (entries : List Entry) : Prop :=
  ∀ e ∈ entries, e.primal.name = name ∧ ∀ kind f, e.get? kind = some f → Fits p f kind e.primal

theorem sound_record {p : Program} {name : String} {f : Func} {kind : DerivativeKind}
    {sigs : List Signature} (hfits : ∀ sig ∈ sigs, sig.name = name ∧ Fits p f kind sig)
    {entries : List Entry} (hs : Sound p name entries) :
    Sound p name (record f kind entries sigs).1 := by
  induction sigs generalizing entries with
  | nil => exact hs
  | cons sig rest ih =>
    have hsig := hfits sig (by simp)
    have hrest := @ih fun sig' h => hfits sig' (List.mem_cons_of_mem _ h)
    have hset : ∀ e : Entry, e.primal = sig → (∀ k g, e.get? k = some g → Fits p g k e.primal) →
        ∀ k g, (e.set kind f).get? k = some g → Fits p g k sig := by
      intro e he hold k g hg
      cases kind <;> cases k <;> simp only [Entry.set, Entry.get?, Option.some.injEq] at hg
      · exact hg ▸ hsig.2
      · exact he ▸ hold .pullback g hg
      · exact he ▸ hold .pushforward g hg
      · exact hg ▸ hsig.2
    have hprimal : ∀ e : Entry, (e.set kind f).primal = e.primal := by
      intro e
      cases kind <;> rfl
    unfold record
    split
    · refine hrest fun e he => ?_
      rcases List.mem_append.mp he with he | he
      · exact hs e he
      · obtain rfl : e = Entry.set ⟨sig, none, none⟩ kind f := by simpa using he
        rw [hprimal]
        refine ⟨hsig.1, hset ⟨sig, none, none⟩ rfl ?_⟩
        intro k g hg
        cases k <;> cases hg
    · rename_i found _
      split
      · exact hs
      · refine hrest fun e he => ?_
        obtain ⟨old, hold, rfl⟩ := List.mem_map.mp he
        obtain ⟨hname, hget⟩ := hs old hold
        split
        · rename_i heq
          have heq : old.primal = sig := by simpa using heq
          rw [hprimal, heq]
          exact ⟨hsig.1, hset old heq hget⟩
        · exact ⟨hname, hget⟩

theorem mem_of_lookup {α β : Type} [BEq α] [LawfulBEq α] {l : List (α × β)} {a : α} {b : β}
    (h : l.lookup a = some b) : (a, b) ∈ l := by
  obtain ⟨before, after, rfl, _⟩ := List.lookup_eq_some_iff.mp h
  simp

theorem slot_of_mem {r : Registry} {name : String} {e : Entry} (h : e ∈ r.slot name) :
    ∃ entries, (name, entries) ∈ r.slots ∧ e ∈ entries := by
  unfold slot at h
  cases hl : r.slots.lookup name with
  | none => simp [hl] at h
  | some entries => exact ⟨entries, mem_of_lookup hl, by simpa [hl] using h⟩

/-- All entries of a registry are sound. -/
def SoundAll (p : Program) (r : Registry) : Prop :=
  ∀ name entries, (name, entries) ∈ r.slots → Sound p name entries

theorem SoundAll.slot {p : Program} {r : Registry} (h : SoundAll p r) (name : String) :
    Sound p name (r.slot name) := by
  intro e he
  obtain ⟨entries, hmem, he⟩ := slot_of_mem he
  exact h name entries hmem e he

/-- What is under a name after entries are put under some name. -/
theorem mem_slots_setSlot {r : Registry} {name key : String} {entries old : List Entry}
    (h : (key, old) ∈ (r.setSlot name entries).slots) :
    (key = name ∧ old = entries) ∨ (key, old) ∈ r.slots := by
  unfold Registry.setSlot at h
  split at h
  · obtain ⟨⟨key', old'⟩, hin, heq⟩ := List.mem_map.mp h
    simp only [Prod.mk.injEq] at heq
    obtain ⟨rfl, rfl⟩ := heq
    split
    · rename_i hk
      exact .inl ⟨by simpa using hk, rfl⟩
    · exact .inr hin
  · rcases List.mem_append.mp h with h | h
    · exact .inr h
    · exact .inl (by simpa using h)

theorem SoundAll.setSlot {p : Program} {r : Registry} (h : SoundAll p r) {name : String}
    {entries : List Entry} (he : Sound p name entries) : SoundAll p (r.setSlot name entries) := by
  intro key old hmem
  rcases mem_slots_setSlot hmem with ⟨rfl, rfl⟩ | hmem
  · exact he
  · exact h key old hmem

theorem SoundAll.register {p : Program} {r : Registry} (h : SoundAll p r) {f : Func}
    (hf : f ∈ p) : SoundAll p (r.register p f).1 := by
  unfold Registry.register
  split
  · exact h
  · rename_i primal kind hsplit
    split
    · exact h
    · rename_i sigs
      have hfits : ∀ sig ∈ Registry.matching p f primal kind,
          sig.name = primal ∧ Fits p f kind sig := by
        intro sig hsig
        have hname : sig.name = primal := by
          simp only [Registry.matching, List.mem_filter, List.mem_map, Program.overloads] at hsig
          obtain ⟨⟨g, hg, rfl⟩, _⟩ := hsig
          exact beq_iff_eq.mp hg.2
        exact ⟨hname, hf, hname ▸ hsplit, hname ▸ hsig⟩
      have hrecord := sound_record hfits (h.slot primal)
      dsimp only
      split <;> exact h.setSlot hrecord

theorem SoundAll.registerAll {p : Program} {fs : List Func} (hfs : ∀ f ∈ fs, f ∈ p)
    {r r' : Registry} (h : SoundAll p r) (hr : registerAll p r fs = .ok r') : SoundAll p r' := by
  induction fs generalizing r with
  | nil =>
    cases hr
    exact h
  | cons f rest ih =>
    have hrest := fun g hg => hfs g (List.mem_cons_of_mem _ hg)
    unfold Registry.registerAll at hr
    split at hr
    · have hreg := h.register (hfs f (by simp))
      split at hr
      · rename_i r₁ heq
        rw [heq] at hreg
        exact ih hrest hreg hr
      · cases hr
    · exact ih hrest h hr

/-- A derivative that the registry of a program gives is one of the program, and fits. -/
theorem fits_of_get? {p : Program} {r : Registry} (hr : ofProgram p = .ok r)
    {kind : DerivativeKind} {primal : Signature} {f : Func}
    (h : r.get? kind primal = some f) : Fits p f kind primal := by
  have hempty : SoundAll p empty := by
    intro name entries hmem
    cases hmem
  have hall := hempty.registerAll (fun f hf => hf) hr
  obtain ⟨e, he, hget⟩ := Option.bind_eq_some_iff.mp h
  have hmem := List.mem_of_find?_eq_some he
  have hprimal : e.primal = primal := by simpa using List.find?_some he
  exact hprimal ▸ ((hall.slot primal.name) e hmem).2 kind f hget

end Fluxion.Library.Registry
