import Fluxion.Proofs.Library.Registry

/-!
What every registry keeps to, whichever derivatives were registered and whether or not they were
refused: entries under a name are of functions with that name, hold derivatives that fit, and what
a lookup has given it gives from then on.
-/

namespace Fluxion.Library.Registry

variable {name : String} {entries : List Entry} {sig : Signature} {sigs : List Signature}
  {kind : DerivativeKind} {f d : Func} {r : Registry}

/-! ### Names of derivatives -/

theorem eq_append_of_dropStart? {start name rest : List Char}
    (h : dropStart? start name = some rest) : name = start ++ rest := by
  unfold dropStart? at h
  split at h
  · rename_i hstart
    obtain ⟨after, rfl⟩ := List.isPrefixOf_iff_prefix.mp hstart
    simpa using h
  · cases h

theorem eq_append_of_dropEnd? {ending name rest : List Char}
    (h : dropEnd? ending name = some rest) : name = rest ++ ending := by
  obtain ⟨back, hback, rfl⟩ := Option.map_eq_some_iff.mp h
  have hname := congrArg List.reverse (eq_append_of_dropStart? hback)
  simpa using hname

/-- The name of a derivative tells the function and the kind. -/
theorem name_of_splitName {name primal : String} (h : splitName name = some (primal, kind)) :
    name = derivativeSpace ++ "::" ++ primal ++ kind.ending := by
  obtain ⟨localName, hlocal, hnamed⟩ := Option.bind_eq_some_iff.mp h
  have hstart := eq_append_of_dropStart? hlocal
  have hend : localName = primal.toList ++ kind.ending.toList := by
    rcases Option.or_eq_some_iff.mp hnamed with hnamed | ⟨_, hnamed⟩ <;>
    · obtain ⟨f, hf, heq⟩ := Option.map_eq_some_iff.mp hnamed
      simp only [Prod.mk.injEq] at heq
      obtain ⟨rfl, rfl⟩ := heq
      simpa using eq_append_of_dropEnd? hf
  apply String.toList_injective
  simp [hstart, hend]

/-! ### Entries under a name -/

@[simp] theorem primal_set (e : Entry) (kind : DerivativeKind) (f : Func) :
    (e.set kind f).primal = e.primal := by
  cases kind <;> rfl

@[simp] theorem get?_set_self (e : Entry) (kind : DerivativeKind) (f : Func) :
    (e.set kind f).get? kind = some f := by
  cases kind <;> rfl

theorem get?_set_of_ne (e : Entry) {kind other : DerivativeKind} (f : Func) (h : other ≠ kind) :
    (e.set kind f).get? other = e.get? other := by
  cases kind <;> cases other <;> first | rfl | exact absurd rfl h

/-- A derivative under the name of the function `primal.name` that is its derivative by its own
name and by the types of its parameters. -/
structure Belongs (f : Func) (kind : DerivativeKind) (primal : Signature) : Prop where
  name : f.name = derivativeSpace ++ "::" ++ primal.name ++ kind.ending
  params : f.params.map (·.ty.erased) = kind.params primal

/-- What the entries under a name keep to. -/
structure Kept (name : String) (entries : List Entry) : Prop where
  named : ∀ e ∈ entries, e.primal.name = name
  distinct : (entries.map (·.primal)).Nodup
  derivative : ∀ e ∈ entries, ∃ kind f, e.get? kind = some f
  belongs : ∀ e ∈ entries, ∀ kind f, e.get? kind = some f → Belongs f kind e.primal

theorem belongs_set {e : Entry} (hf : Belongs f kind e.primal)
    (he : ∀ k g, e.get? k = some g → Belongs g k e.primal) :
    ∀ k g, (e.set kind f).get? k = some g → Belongs g k (e.set kind f).primal := by
  intro k g hg
  rw [primal_set]
  by_cases hk : k = kind
  · subst hk
    rw [get?_set_self, Option.some.injEq] at hg
    exact hg ▸ hf
  · rw [get?_set_of_ne e f hk] at hg
    exact he k g hg

theorem Kept.append (h : Kept name entries) (hname : sig.name = name) (hf : Belongs f kind sig)
    (hnew : ∀ e ∈ entries, e.primal ≠ sig) :
    Kept name (entries ++ [Entry.set ⟨sig, none, none⟩ kind f]) := by
  have hempty : ∀ k g, (⟨sig, none, none⟩ : Entry).get? k = some g → Belongs g k sig := by
    intro k g hg
    cases k <;> cases hg
  constructor
  · simpa [or_imp, forall_and, hname] using h.named
  · simpa [List.nodup_append, h.distinct] using hnew
  · intro e he
    rcases List.mem_append.mp he with he | he
    · exact h.derivative e he
    · rw [List.mem_singleton.mp he]
      exact ⟨kind, f, get?_set_self _ _ _⟩
  · intro e he
    rcases List.mem_append.mp he with he | he
    · exact h.belongs e he
    · rw [List.mem_singleton.mp he]
      exact belongs_set hf hempty

/-- Gives the entry of a function a derivative. -/
def setOf (f : Func) (kind : DerivativeKind) (sig : Signature) (entries : List Entry) :
    List Entry :=
  entries.map fun e => if e.primal == sig then e.set kind f else e

theorem map_primal_setOf (f : Func) (kind : DerivativeKind) (sig : Signature)
    (entries : List Entry) :
    (setOf f kind sig entries).map (·.primal) = entries.map (·.primal) := by
  simp only [setOf, List.map_map]
  refine List.map_congr_left fun e _ => ?_
  dsimp only [Function.comp_apply]
  split <;> simp

theorem Kept.setOf (h : Kept name entries) (hf : Belongs f kind sig) :
    Kept name (setOf f kind sig entries) := by
  have hone : ∀ e ∈ entries, let e' := if e.primal == sig then e.set kind f else e
      e'.primal.name = name ∧ (∃ k g, e'.get? k = some g) ∧
        ∀ k g, e'.get? k = some g → Belongs g k e'.primal := by
    intro e he
    dsimp only
    split
    · rename_i hsig
      obtain rfl : e.primal = sig := by simpa using hsig
      exact ⟨by simpa using h.named e he, ⟨kind, f, get?_set_self e kind f⟩,
        belongs_set hf (h.belongs e he)⟩
    · exact ⟨h.named e he, h.derivative e he, h.belongs e he⟩
  constructor
  · intro e he
    obtain ⟨old, hold, rfl⟩ := List.mem_map.mp he
    exact (hone old hold).1
  · rw [map_primal_setOf]
    exact h.distinct
  · intro e he
    obtain ⟨old, hold, rfl⟩ := List.mem_map.mp he
    exact (hone old hold).2.1
  · intro e he
    obtain ⟨old, hold, rfl⟩ := List.mem_map.mp he
    exact (hone old hold).2.2

/-- One function after the other gets the derivative, until one has one already. -/
theorem record_cons (f : Func) (kind : DerivativeKind) (entries : List Entry) (sig : Signature)
    (rest : List Signature) :
    ((∀ e ∈ entries, e.primal ≠ sig) ∧ record f kind entries (sig :: rest) =
        record f kind (entries ++ [Entry.set ⟨sig, none, none⟩ kind f]) rest) ∨
    ∃ e, entries.find? (·.primal == sig) = some e ∧
      (((e.get? kind).isSome ∧ record f kind entries (sig :: rest) = (entries, some sig)) ∨
        (e.get? kind = none ∧ record f kind entries (sig :: rest) =
          record f kind (setOf f kind sig entries) rest)) := by
  rw [record]
  cases hfind : entries.find? (·.primal == sig) with
  | none => exact .inl ⟨by simpa using hfind, rfl⟩
  | some e =>
    refine .inr ⟨e, rfl, ?_⟩
    cases hget : e.get? kind with
    | none => exact .inr ⟨rfl, by simp [hget, setOf]⟩
    | some g => exact .inl ⟨rfl, by simp [hget]⟩

theorem Kept.record (hfits : ∀ sig ∈ sigs, sig.name = name ∧ Belongs f kind sig)
    {entries : List Entry} (h : Kept name entries) :
    Kept name (record f kind entries sigs).1 := by
  induction sigs generalizing entries with
  | nil => exact h
  | cons sig rest ih =>
    have hsig := hfits sig (by simp)
    have hrest := @ih fun sig' hmem => hfits sig' (List.mem_cons_of_mem _ hmem)
    rcases record_cons f kind entries sig rest with ⟨hnew, heq⟩ | ⟨e, _, ⟨_, heq⟩ | ⟨_, heq⟩⟩
    · rw [heq]
      exact hrest (h.append hsig.1 hsig.2 hnew)
    · rw [heq]
      exact h
    · rw [heq]
      exact hrest (h.setOf hsig.2)

/-! ### Lookups among entries -/

/-- The derivative that entries give for a function. -/
def derivativeIn (entries : List Entry) (kind : DerivativeKind) (sig : Signature) : Option Func :=
  (entries.find? (·.primal == sig)).bind (·.get? kind)

theorem find?_setOf (f : Func) (kind : DerivativeKind) (sig other : Signature)
    (entries : List Entry) : (setOf f kind sig entries).find? (·.primal == other) =
      (entries.find? (·.primal == other)).map
        fun e => if e.primal == sig then e.set kind f else e := by
  rw [setOf, List.find?_map]
  congr 2
  funext e
  dsimp only [Function.comp_apply]
  split <;> simp

theorem derivativeIn_append {more : List Entry} (h : derivativeIn entries kind sig = some d) :
    derivativeIn (entries ++ more) kind sig = some d := by
  obtain ⟨e, he, hd⟩ := Option.bind_eq_some_iff.mp h
  simp [derivativeIn, List.find?_append, he, hd]

/-- An entry that has no derivative of a kind gets one, and all others stay. -/
theorem derivativeIn_setOf {e : Entry} (hfind : entries.find? (·.primal == sig) = some e)
    (hnone : e.get? kind = none) {k : DerivativeKind} {other : Signature}
    (h : derivativeIn entries k other = some d) :
    derivativeIn (setOf f kind sig entries) k other = some d := by
  obtain ⟨e', he', hd⟩ := Option.bind_eq_some_iff.mp h
  have hother : e'.primal = other := by simpa using List.find?_some he'
  rw [derivativeIn, find?_setOf, he', Option.map_some, Option.bind_some]
  split
  · rename_i hsig
    -- the entry that is set is the one that the lookup finds, so the kinds differ
    obtain rfl : other = sig := hother.symm.trans (by simpa using hsig)
    obtain rfl : e' = e := Option.some.inj (he'.symm.trans hfind)
    have hk : k ≠ kind := by
      rintro rfl
      rw [hnone] at hd
      cases hd
    rw [get?_set_of_ne e' f hk, hd]
  · exact hd

theorem derivativeIn_record {k : DerivativeKind} {other : Signature}
    (h : derivativeIn entries k other = some d) :
    derivativeIn (record f kind entries sigs).1 k other = some d := by
  induction sigs generalizing entries with
  | nil => exact h
  | cons sig rest ih =>
    rcases record_cons f kind entries sig rest with
      ⟨_, heq⟩ | ⟨e, hfind, ⟨_, heq⟩ | ⟨hnone, heq⟩⟩
    · rw [heq]
      exact ih (derivativeIn_append h)
    · rw [heq]
      exact h
    · rw [heq]
      exact ih (derivativeIn_setOf hfind hnone h)

/-- A derivative that no function has yet is the one that all of them have then. -/
theorem derivativeIn_of_record (h : (record f kind entries sigs).2 = none) :
    ∀ sig ∈ sigs, derivativeIn (record f kind entries sigs).1 kind sig = some f := by
  induction sigs generalizing entries with
  | nil => simp
  | cons sig rest ih =>
    have hboth : ∀ entries', record f kind entries (sig :: rest) = record f kind entries' rest →
        derivativeIn entries' kind sig = some f →
        ∀ sig' ∈ sig :: rest,
          derivativeIn (record f kind entries (sig :: rest)).1 kind sig' = some f := by
      intro entries' heq hown sig' hmem
      rw [heq] at h ⊢
      rcases List.mem_cons.mp hmem with rfl | hmem
      · exact derivativeIn_record hown
      · exact ih h sig' hmem
    rcases record_cons f kind entries sig rest with
      ⟨hnew, heq⟩ | ⟨e, hfind, ⟨_, heq⟩ | ⟨_, heq⟩⟩
    · refine hboth _ heq ?_
      have hnone : entries.find? (·.primal == sig) = none := by simpa using hnew
      simp [derivativeIn, List.find?_append, hnone]
    · rw [heq] at h
      cases h
    · refine hboth _ heq ?_
      have hsig : e.primal = sig := by simpa using List.find?_some hfind
      simp [derivativeIn, find?_setOf, hfind, hsig]

/-! ### Registries -/

theorem get?_eq (r : Registry) (kind : DerivativeKind) (sig : Signature) :
    r.get? kind sig = derivativeIn (r.slot sig.name) kind sig := rfl

theorem lookup_map_snd {α β : Type} [BEq α] [LawfulBEq α] (f : α → β → β) (a : α) :
    ∀ l : List (α × β), (l.map fun x => (x.1, f x.1 x.2)).lookup a = (l.lookup a).map (f a)
  | [] => rfl
  | (key, old) :: rest => by
    have ih := lookup_map_snd f a rest
    by_cases hkey : a = key
    · subst hkey
      simp
    · simp [List.lookup_cons, beq_eq_false_iff_ne.mpr hkey, ih]

/-- Setting the entries under a name sets those and no others. -/
theorem slot_setSlot (r : Registry) (name other : String) (entries : List Entry) :
    (r.setSlot name entries).slot other = if other = name then entries else r.slot other := by
  unfold setSlot
  by_cases hany : r.slots.any (·.1 == name)
  · rw [if_pos hany]
    obtain ⟨⟨key, old⟩, hmem, hkey⟩ := List.any_eq_true.mp hany
    obtain rfl : key = name := by simpa using hkey
    have hmap := lookup_map_snd (fun k old => if k == key then entries else old) other r.slots
    unfold slot
    rw [hmap]
    by_cases ho : other = key
    · subst ho
      have hsome : r.slots.lookup other ≠ none := by
        intro hnone
        simpa using List.lookup_eq_none_iff.mp hnone _ hmem
      obtain ⟨found, hfound⟩ := Option.ne_none_iff_exists'.mp hsome
      simp [hfound]
    · simp [ho]
  · rw [if_neg hany]
    have hnone : r.slots.lookup name = none := by
      rw [List.lookup_eq_none_iff]
      intro x hx
      have hne : x.1 ≠ name := fun h => hany (List.any_eq_true.mpr ⟨x, hx, by simpa using h⟩)
      simpa using hne.symm
    unfold slot
    rw [List.lookup_append]
    by_cases ho : other = name
    · subst ho
      simp [hnone]
    · simp [ho, List.lookup_cons, beq_eq_false_iff_ne.mpr ho]

/-- Every name stands once, and the entries under it are kept. -/
structure WellKept (r : Registry) : Prop where
  keys : (r.slots.map (·.1)).Nodup
  entries : ∀ name entries, (name, entries) ∈ r.slots → Kept name entries

theorem WellKept.slot (h : r.WellKept) (name : String) : Kept name (r.slot name) := by
  unfold Registry.slot
  cases hl : r.slots.lookup name with
  | none => exact ⟨by simp, by simp, by simp, by simp⟩
  | some entries => exact h.entries name entries (mem_of_lookup hl)

theorem map_fst_setSlot (r : Registry) (name : String) (entries : List Entry) :
    (r.setSlot name entries).slots.map (·.1) =
      if r.slots.any (·.1 == name) then r.slots.map (·.1) else r.slots.map (·.1) ++ [name] := by
  unfold setSlot
  split <;> simp [Function.comp_def]

theorem WellKept.setSlot (h : r.WellKept) (he : Kept name entries) :
    (r.setSlot name entries).WellKept := by
  constructor
  · rw [map_fst_setSlot]
    split
    · exact h.keys
    · rename_i hany
      have hnew : ∀ x ∈ r.slots, x.1 ≠ name :=
        fun x hx heq => hany (List.any_eq_true.mpr ⟨x, hx, by simpa using heq⟩)
      rw [List.nodup_append]
      refine ⟨h.keys, by simp, ?_⟩
      intro key hkey other hother
      obtain ⟨x, hx, rfl⟩ := List.mem_map.mp hkey
      rw [List.mem_singleton.mp hother]
      exact hnew x hx
  · intro key old hmem
    rcases mem_slots_setSlot hmem with ⟨rfl, rfl⟩ | hmem
    · exact he
    · exact h.entries key old hmem

/-- A call of `register` changes nothing, or records the derivative for the functions that it
fits. -/
theorem register_cases (r : Registry) (p : Program) (f : Func) :
    ((r.register p f).1 = r ∧ ∃ e, (r.register p f).2 = .error e) ∨
    ∃ primal kind, splitName f.name = some (primal, kind) ∧
      (r.register p f).1 = r.setSlot primal
        (record f kind (r.slot primal) (matching p f primal kind)).1 ∧
      ((r.register p f).2 = .ok () ↔
        (record f kind (r.slot primal) (matching p f primal kind)).2 = none) := by
  unfold register
  split
  · exact .inl ⟨rfl, _, rfl⟩
  · rename_i primal kind hsplit
    split
    · exact .inl ⟨rfl, _, rfl⟩
    · refine .inr ⟨primal, kind, hsplit, ?_⟩
      dsimp only
      split
      · rename_i hrecord
        exact ⟨rfl, by simp [hrecord]⟩
      · rename_i hrecord
        exact ⟨rfl, by simp [hrecord]⟩

theorem belongs_of_matching {p : Program} {primal : String}
    (hsplit : splitName f.name = some (primal, kind)) (h : sig ∈ matching p f primal kind) :
    sig.name = primal ∧ Belongs f kind sig := by
  simp only [matching, List.mem_filter, List.mem_map, Program.overloads, beq_iff_eq] at h
  obtain ⟨⟨g, ⟨_, hname⟩, rfl⟩, hparams⟩ := h
  refine ⟨hname, ?_, hparams.symm⟩
  rw [name_of_splitName hsplit, ← hname]
  rfl

theorem WellKept.register (h : r.WellKept) (p : Program) (f : Func) :
    (r.register p f).1.WellKept := by
  rcases register_cases r p f with ⟨heq, _⟩ | ⟨primal, kind, hsplit, heq, _⟩
  · rw [heq]
    exact h
  · rw [heq]
    exact h.setSlot ((h.slot primal).record fun sig hsig => belongs_of_matching hsplit hsig)

/-- What a lookup gives stays, whatever is registered. -/
theorem get?_register (h : r.get? kind sig = some d) (p : Program) (f : Func) :
    (r.register p f).1.get? kind sig = some d := by
  rcases register_cases r p f with ⟨heq, _⟩ | ⟨primal, kind', _, heq, _⟩
  · rw [heq]
    exact h
  · rw [get?_eq] at h ⊢
    rw [heq, slot_setSlot]
    split
    · rename_i hname
      exact derivativeIn_record (hname ▸ h)
    · exact h

/-- A derivative that is accepted is the one of every function that it fits. -/
theorem get?_of_register {p : Program} {primal : String}
    (hsplit : splitName f.name = some (primal, kind)) (hok : (r.register p f).2 = .ok ())
    (h : sig ∈ matching p f primal kind) : (r.register p f).1.get? kind sig = some f := by
  rcases register_cases r p f with ⟨_, e, he⟩ | ⟨primal', kind', hsplit', heq, hiff⟩
  · rw [hok] at he
    cases he
  · rw [hsplit, Option.some.injEq, Prod.mk.injEq] at hsplit'
    obtain ⟨rfl, rfl⟩ := hsplit'
    rw [get?_eq, heq, slot_setSlot, if_pos (belongs_of_matching hsplit h).1]
    exact derivativeIn_of_record (hiff.mp hok) sig h

/-- Registers one derivative after the other, each in a program of its own, and goes on after one
that is refused. -/
def registerEach (r : Registry) (calls : List (Program × Func)) : Registry :=
  calls.foldl (fun r call => (r.register call.1 call.2).1) r

theorem WellKept.registerEach (h : r.WellKept) (calls : List (Program × Func)) :
    (r.registerEach calls).WellKept := by
  induction calls generalizing r with
  | nil => exact h
  | cons call rest ih => exact ih (h.register call.1 call.2)

theorem get?_registerEach (h : r.get? kind sig = some d) (calls : List (Program × Func)) :
    (r.registerEach calls).get? kind sig = some d := by
  induction calls generalizing r with
  | nil => exact h
  | cons call rest ih => exact ih (get?_register h call.1 call.2)

/-- Whatever was registered, the registry is well kept, an accepted derivative is found under every
function that it fits, and what a lookup gives it gives ever after. -/
theorem wellKept_registerEach (calls : List (Program × Func)) :
    (empty.registerEach calls).WellKept ∧
      (∀ p f primal kind, splitName f.name = some (primal, kind) →
        ((empty.registerEach calls).register p f).2 = .ok () →
        ∀ sig ∈ matching p f primal kind,
          ((empty.registerEach calls).register p f).1.get? kind sig = some f) ∧
      ∀ kind sig d, (empty.registerEach calls).get? kind sig = some d →
        ∀ more, (empty.registerEach (calls ++ more)).get? kind sig = some d := by
  have hempty : empty.WellKept := ⟨List.nodup_nil, by simp [empty]⟩
  refine ⟨hempty.registerEach calls, ?_, ?_⟩
  · intro p f primal kind hsplit hok sig hsig
    exact get?_of_register hsplit hok hsig
  · intro kind sig d h more
    rw [registerEach, List.foldl_append]
    exact get?_registerEach h more

/-- A function of one parameter and a pushforward for it, which is accepted once and refused the
second time. -/
theorem wellKept_registerEach_twice :
    let square : Func := ⟨"square", [⟨"x", .float⟩], .float, none, default⟩
    let given : Func := ⟨"custom_derivatives::square_pushforward",
      [⟨"x", .float⟩, ⟨"d_x", .float⟩], .float, none, default⟩
    let p : Program := [square, given]
    (empty.register p given).2 = .ok () ∧
      ((empty.registerEach [(p, given)]).register p given).2 =
        .error (.duplicate given.name square.signature .pushforward) ∧
      (empty.registerEach [(p, given)]).WellKept ∧
      (empty.registerEach [(p, given), (p, given)]).get? .pushforward square.signature =
        some given := by
  intro square given p
  have hall := wellKept_registerEach [(p, given)]
  have hsplit : splitName given.name = some ("square", .pushforward) := by decide +kernel
  have hfits : matching p given "square" .pushforward = [square.signature] := by decide +kernel
  have hok : (empty.register p given).2 = .ok () := by
    simp only [register, hsplit, hfits]
    rfl
  have hfound := (wellKept_registerEach []).2.1 p given "square" .pushforward hsplit hok
    square.signature (by simp [hfits])
  refine ⟨hok, ?_, hall.1, hall.2.2 .pushforward square.signature given hfound [(p, given)]⟩
  have hslot : (empty.registerEach [(p, given)]).slot "square" =
      [⟨square.signature, some given, none⟩] := by
    simp only [registerEach, List.foldl, register, hsplit, hfits]
    rfl
  simp only [register, hsplit, hfits, hslot]
  rfl

end Fluxion.Library.Registry
