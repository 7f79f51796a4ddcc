import Fluxion.Session.Load

/-!
Where diagnostics about types point to. An error keeps no more than the name of the function it was
found at, and its diagnostic stands at the first function of that name, the library included.
-/

namespace Fluxion

namespace Typing

/-- An error that the checker finds at a function of a program: the function has the signature of an
earlier one, or something is wrong inside it. -/
structure Finding (p : Program) where
  before : List Func
  func : Func
  after : List Func
  error : TypeError
  place : p = before ++ func :: after
  found : (func.signature ∈ before.map Func.signature ∧ error = .duplicate func.name) ∨
    ∃ fault, checkFunc p.resolve func = .error fault ∧ error = .inside func.name fault

namespace Finding

variable {p : Program}

theorem exists_of_mem_checkFrom {e : TypeError} {before rest : List Func} {seen : List Signature}
    (hp : p = before ++ rest) (hseen : ∀ sig ∈ seen, sig ∈ before.map Func.signature)
    (he : e ∈ checkFrom p.resolve seen rest) : ∃ x : Finding p, x.error = e := by
  induction rest generalizing before seen with
  | nil => cases he
  | cons f rest ih =>
    rw [checkFrom, List.mem_append, List.mem_append] at he
    rcases he with (he | he) | he
    · split at he
      · rename_i hmem
        exact ⟨⟨before, f, rest, e, hp,
          .inl ⟨hseen _ (by simpa using hmem), List.mem_singleton.mp he⟩⟩, rfl⟩
      · cases he
    · split at he
      · cases he
      · rename_i fault hfault
        exact ⟨⟨before, f, rest, e, hp, .inr ⟨fault, hfault, List.mem_singleton.mp he⟩⟩, rfl⟩
    · have hstep : p = (before ++ [f]) ++ rest := by simpa using hp
      refine ih hstep (fun sig hsig => ?_) he
      rw [List.map_append, List.mem_append]
      exact (List.mem_cons.mp hsig).symm.imp (hseen sig) (by simp [·])

/-- The diagnostic of the error. -/
def diagnostic (source : String) (x : Finding p) : Diagnostic := x.error.diagnostic source p

/-- No other function is taken for the one of the finding. No function of the library has its name;
if the error is inside it, no function before it has; if it is defined twice, those in the source
that have the name have its signature too. -/
def Alone (user : Program) (x : Finding p) : Prop :=
  (∀ g ∈ Library.prelude, g.name ≠ x.func.name) ∧
    match x.error with
    | .inside _ _ => ∀ g ∈ x.before, g.name ≠ x.func.name
    | .duplicate _ => ∀ g ∈ user, g.name = x.func.name → g.signature = x.func.signature

/-- The range is that of the finding's function in the source; if it is defined twice, that of a
function in the source with its signature. -/
def PointsAt (user : Program) (x : Finding p) (span : Span) : Prop :=
  match x.error with
  | .inside _ _ => x.func ∈ user ∧ span = x.func.span
  | .duplicate _ => ∃ g ∈ user, g.signature = x.func.signature ∧ span = g.span

theorem pointsAt_of_alone (source : String) {user : Program}
    (x : Finding (Library.prelude ++ user)) (h : x.Alone user) :
    x.PointsAt user (x.diagnostic source).span := by
  obtain ⟨before, f, after, e, hp, herror⟩ := x
  obtain ⟨hlibrary, halone⟩ := h
  dsimp only at hlibrary halone
  have huser : ∀ g ∈ Library.prelude ++ user, g.name = f.name → g ∈ user := fun g hg hname =>
    (List.mem_append.mp hg).resolve_left fun hmem => hlibrary g hmem hname
  have hf : f ∈ Library.prelude ++ user := by simp [hp]
  rcases herror with ⟨-, rfl⟩ | ⟨fault, -, rfl⟩
  · obtain ⟨g, hg⟩ := Option.isSome_iff_exists.mp
      (List.find?_isSome (p := fun g => g.name == f.name) |>.mpr ⟨f, hf, by simp⟩)
    have hname : g.name = f.name := by simpa using List.find?_some hg
    have hmem := huser g (List.mem_of_find?_eq_some hg) hname
    refine ⟨g, hmem, halone g hmem hname, ?_⟩
    simp [diagnostic, TypeError.diagnostic, TypeError.function, Diagnostic.error, hg]
  · have hg : List.find? (fun g => g.name == f.name) (Library.prelude ++ user) = some f := by
      rw [hp, List.find?_append, List.find?_eq_none.mpr (by simpa using halone)]
      simp
    refine ⟨huser f hf rfl, ?_⟩
    simp [diagnostic, TypeError.diagnostic, TypeError.function, Diagnostic.error, hg]

end Finding

end Typing

namespace Session

open Typing (Finding)

variable {source : String} {user : Program} {ds : List Diagnostic}

theorem diagnostics_of_load (hparse : Grammar.parse source = .ok user)
    (hload : load source = .error (.type ds)) :
    ds = (Typing.check (Library.prelude ++ user)).map
      (·.diagnostic source (Library.prelude ++ user)) := by
  unfold load loadUnchecked at hload
  simp only [hparse, bind, Except.bind] at hload
  generalize Library.prelude ++ user = p at hload ⊢
  split at hload <;> cases hload
  rfl

/-- The text parses, does not type-check, and the test holds of its functions and diagnostics. -/
def reports (source : String) (test : Program → List Diagnostic → Bool) : Bool :=
  match Grammar.parse source, load source with
  | .ok user, .error (.type ds) => test user ds
  | _, _ => false

theorem exists_of_reports (source : String) (test : Program → List Diagnostic → Bool)
    (h : reports source test = true) :
    ∃ user ds, Grammar.parse source = .ok user ∧ load source = .error (.type ds) ∧
      test user ds = true := by
  unfold reports at h
  split at h
  · exact ⟨_, _, ‹_›, ‹_›, h⟩
  · cases h

/-- Two functions of one name, of which the second uses an unknown variable. -/
def overloaded : String :=
  "fn f(x: f64) -> f64 \x7b return x; \x7d\nfn f(n: i64) -> f64 \x7b return y; \x7d"

end Session

end Fluxion
