import Fluxion.Proofs.Results
import Fluxion.Proofs.Request.Validated
import Fluxion.Session.Compile

/-!
What holds of a program that was loaded, and a test that runs the way from a source text to a
derivative.
-/

namespace Fluxion.Session

open Derive (Derived)
open Library (Registry)

theorem load_eq_ok {source : String} {p : Program} (h : load source = .ok p) :
    ∃ user, p = Library.prelude ++ user ∧ Typing.check p = [] := by
  unfold load loadUnchecked at h
  cases hparse : Grammar.parse source with
  | error f => simp [hparse, bind, Except.bind] at h
  | ok user =>
    simp only [hparse, bind, Except.bind] at h
    split at h
    · rename_i hcheck
      obtain rfl : Library.prelude ++ user = p := by simpa [pure, Except.pure] using h
      exact ⟨user, rfl, hcheck⟩
    · cases h

theorem mem_of_find? {p : Program} {name : String} {f : Func} (h : p.find? name = some f) :
    f ∈ p := by
  rw [Program.find?, Option.or_eq_some_iff] at h
  rcases h with h | ⟨_, h⟩ <;> exact List.mem_of_find?_eq_some h

/-- The source loads, the query can be answered, and the test holds of the answer. -/
def passes (source : String) (q : Query)
    (test : Program → Registry → Request → Derived → Bool) : Bool :=
  match load source with
  | .error _ => false
  | .ok p =>
    match Registry.ofProgram p, p.find? q.function with
    | .ok registry, some f =>
      match Request.make (.ofProgram p) f q.mode q.wrt q.order with
      | .error _ => false
      | .ok r =>
        match Derive.differentiate p registry q.options r with
        | .error _ => false
        | .ok d => test p registry r d
    | _, _ => false

theorem exists_of_passes {source : String} {q : Query}
    {test : Program → Registry → Request → Derived → Bool} (h : passes source q test = true) :
    ∃ p registry r d, load source = .ok p ∧ Registry.ofProgram p = .ok registry ∧ r.target ∈ p ∧
      Derive.differentiate p registry q.options r = .ok d ∧ test p registry r d = true := by
  unfold passes at h
  split at h
  · cases h
  split at h
  · split at h
    · cases h
    split at h
    · cases h
    rename_i p hload _ _ registry f hreg hfind _ r hmake _ d hd
    have htarget : r.target ∈ p :=
      (Request.accepted_of_make hmake).target ▸ mem_of_find? hfind
    exact ⟨p, registry, r, d, hload, hreg, htarget, hd, h⟩
  · cases h

/-- The source loads, the query makes a request, and the test holds of it. -/
def admits (source : String) (q : Query) (test : Program → Registry → Request → Bool) : Bool :=
  match load source with
  | .error _ => false
  | .ok p =>
    match Registry.ofProgram p, p.find? q.function with
    | .ok registry, some f =>
      match Request.make (.ofProgram p) f q.mode q.wrt q.order with
      | .error _ => false
      | .ok r => test p registry r
    | _, _ => false

/-- A source text that loads, for which a query makes a request of which a test holds. -/
structure Sample (q : Query) (test : Program → Registry → Request → Bool) where
  source : String
  admitted : admits source q test = true

theorem Sample.loads {q : Query} {test : Program → Registry → Request → Bool} (x : Sample q test) :
    ∃ p registry f r, load x.source = .ok p ∧ Registry.ofProgram p = .ok registry ∧
      p.find? q.function = some f ∧ Request.make (.ofProgram p) f q.mode q.wrt q.order = .ok r ∧
      test p registry r = true := by
  have h := x.admitted
  unfold admits at h
  split at h
  · cases h
  split at h
  · split at h
    · cases h
    rename_i p hload _ _ registry f hreg hfind _ r hmake
    exact ⟨p, registry, f, r, hload, hreg, hfind, hmake, h⟩
  · cases h

end Fluxion.Session
