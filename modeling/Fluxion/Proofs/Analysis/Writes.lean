import Fluxion.Analysis.Writes
import Fluxion.Proofs.Analysis.Usage
import Fluxion.Proofs.Runs.Calls
import Fluxion.Proofs.Typing.Passed
import Fluxion.Proofs.Session.Loaded

/-!
What the write analysis says about runs. It looks into each function once, so that the writes of a
second call of one function are passed over. Where no call passes on more than the analysis gives
for the caller, a call changes only what the analysis gives for its function.
-/

namespace Fluxion

open Analysis

variable {K : Type}

/-- The parameters that the analysis of a program gives as written. -/
def Program.written (p : Program) (f : Func) : List Nat := (Host.ofProgram p).writtenParams f

/-- The shared parameters of `f` of a name count as written. -/
def Program.CountsWritten (p : Program) (f : Func) (x : String) : Prop :=
  ∀ q ∈ f.params.zipIdx, q.1.name = x → q.1.ty.isShared = true → q.2 ∈ p.written f

/-- What a call of `g` in the body of `f` passes on to be written counts as written in `f`. -/
def Program.PassesTo (p : Program) (f g : Func) (args : List Expr) : Prop :=
  ∀ i ∈ p.written g, ∀ place ∈ ((args[i]?).bind Expr.place?).toList, p.CountsWritten f place.name

/-- No call passes on more to be written than the analysis gives for the caller. -/
def Program.PassesWrites (p : Program) : Prop :=
  ∀ f ∈ p, ∀ g ∈ p, ∀ call ∈ calls f.stmts, call.1 = g.name → p.PassesTo f g call.2

instance (p : Program) (f : Func) (x : String) : Decidable (p.CountsWritten f x) :=
  inferInstanceAs (Decidable (∀ _ ∈ _, _))

instance (p : Program) (f g : Func) (args : List Expr) : Decidable (p.PassesTo f g args) :=
  inferInstanceAs (Decidable (∀ _ ∈ _, _))

instance (p : Program) : Decidable p.PassesWrites :=
  inferInstanceAs (Decidable (∀ _ ∈ _, _))

/-- An assignment to a shared parameter is found directly. -/
theorem mem_written_of_assigned {p : Program} {f : Func} {body : List Stmt}
    (hbody : f.body = some body) {a : Assignment} (ha : a ∈ assignmentsIn body) {i : Nat} {q : Param}
    (hq : f.params[i]? = some q) (hname : q.name = a.place.name) (hshared : q.ty.isShared = true) :
    i ∈ p.written f := by
  have hlt : i < f.params.length := (List.getElem?_eq_some_iff.mp hq).1
  have hnames : q.name ∈ paramsWritten f := by
    simp only [paramsWritten, Func.stmts, hbody, Option.getD_some, mem_distinct, List.mem_filter,
      List.mem_map, List.contains_iff_mem]
    exact ⟨⟨a, ha, hname.symm⟩, q, List.mem_of_getElem? hq, rfl⟩
  have hdirect : i ∈ positions f fun p => p.ty.isShared && (paramsWritten f).contains p.name := by
    simp only [positions, List.mem_map, List.mem_filter]
    exact ⟨(q, i), ⟨List.mk_mem_zipIdx_iff_getElem?.mpr hq, by simp [hshared, hnames]⟩, rfl⟩
  simp only [Program.written, Host.writtenParams, List.mem_filter, List.mem_range]
  refine ⟨hlt, ?_⟩
  rw [List.contains_iff_mem, writtenFrom]
  simp only [hbody, List.contains_nil, Bool.false_eq_true, if_false]
  exact List.mem_append_left _ hdirect

/-- No function of a checked program writes a shared parameter that is not given as written. -/
theorem Program.closed_written {p : Program} (hcheck : Typing.check p = [])
    (hpass : p.PassesWrites) : Writable.Closed (fun f i => i ∈ p.written f) p := by
  intro f hf body hbody G hpops hgrows hreturns hfixed
  have hkeeps : ∀ x, f.Keeps (fun f i => i ∈ p.written f) x →
      ∃ i q, f.params[i]? = some q ∧ q.name = x ∧ q.ty.isShared = true ∧ i ∉ p.written f := by
    rintro x ⟨i, q, hq, hx, hnot, q', hq', hshared⟩
    obtain rfl : q = q' := by simpa [hq] using hq'
    exact ⟨i, q, hq, hx, hshared, hnot⟩
  have hparts : ∀ part ∈ partsOf body,
      (G.rule (fun f i => i ∈ p.written f) p (f.Keeps fun f i => i ∈ p.written f)).part part := by
    intro part hpart
    cases part with
    | call name args =>
      simp only [Guard.rule]
      split
      · exact hpops
      · exact hpops
      · trivial
      · intro g hg hname i e place hi he hplace hkeep
        obtain ⟨j, q, hq, hx, hshared, hnot⟩ := hkeeps _ hkeep
        have hcall : (name, args) ∈ calls f.stmts := by
          rw [mem_calls, Func.stmts, hbody]
          exact hpart
        exact hnot (hpass f hf g hg _ hcall hname.symm i hi place (by simp [he, hplace]) (q, j)
          (List.mk_mem_zipIdx_iff_getElem?.mpr hq) hx hshared)
    | _ => trivial
  have hlocals := (Typing.passed_of_checkFunc (Typing.checkFunc_of_check hcheck hf)).arrays
  rw [Func.stmts, hbody] at hlocals
  refine Rule.body_of_mem hreturns hparts (fun a ha hkeep => ?_) fun d hd =>
    ⟨hfixed _, fun _ _ => hgrows, ?_⟩
  · obtain ⟨j, q, hq, hx, hshared, hnot⟩ := hkeeps _ hkeep
    exact hnot (mem_written_of_assigned hbody ha hq hx hshared)
  · intro x harr hinit
    rw [hlocals d hd harr] at hinit
    cases hinit

/-- Storage that a parameter is bound to. -/
def Bound.Holds (here : Slot) : Bound K → Prop
  | .slot place => here = place
  | .array id => ∃ i, here = .element id i
  | _ => False

/-- The parameters of a call are bound as they ask for: shared ones to storage that is there, the
others to values. -/
def Func.Binds (f : Func) (bound : List (Bound K)) (s : Store K) : Prop :=
  ∀ (i : Nat) (b : Bound K), bound[i]? = some b → b.In s ∧
    ∃ q, f.params[i]? = some q ∧ (q.ty.isShared = false → ∃ v, b = .value v)

/-- A call leaves a slot as it was that belongs to no parameter given as written. -/
theorem Program.read_of_not_written [Scalar K] {p : Program} (natives : Natives K)
    (hcheck : Typing.check p = []) (hpass : p.PassesWrites) {f : Func} (hf : f ∈ p)
    (limit depth : Nat) {bound : List (Bound K)} {s : Store K} (hbound : f.Binds bound s)
    {slot : Slot} (hslot : slot.In s)
    (hfree : ∀ i ∈ p.written f, ∀ b, bound[i]? = some b → ¬ b.Holds slot) :
    (((⟨p, natives⟩ : Machine K).callAt limit depth f bound).leaves s).read slot = s.read slot := by
  let G : Guard := ⟨fun other => other = slot, fun _ => False, True, True, True, fun _ => False⟩
  have hparams : ∀ g ∈ p, ∀ q ∈ g.params, ∀ t, q.ty ≠ .tape t := fun g hg =>
    Typing.ne_tape_of_checkFunc (Typing.checkFunc_of_check hcheck hg)
  have hframed := Machine.framed_callAt (m := ⟨p, natives⟩) hparams
    (p.closed_written hcheck hpass) limit depth (G := G) trivial
  have hG : G.In s := ⟨fun other h => h ▸ hslot, fun _ h => h.elim⟩
  have hsafe := hframed.call f hf bound s hG fun i b hi => by
    obtain ⟨hin, q, hq, hvalue⟩ := hbound i b hi
    refine ⟨hin, fun hspare => ?_⟩
    cases hshared : q.ty.isShared with
    | false =>
      obtain ⟨v, rfl⟩ := hvalue hshared
      trivial
    | true =>
      have hw : i ∈ p.written f := by
        by_contra hw
        exact hspare ⟨hw, q, hq, hshared⟩
      have hnot := hfree i hw b hi
      cases b with
      | value v => trivial
      | slot place => exact fun h => hnot h.symm
      | array id => exact fun k h => hnot ⟨k, h.symm⟩
      | tape id => exact hin.elim
  exact hsafe.leaves.slots slot rfl

/-- A function that writes its reference. -/
def put : Func := ⟨"put", [⟨"r", .ref .float⟩], .void, some [.set "r" .one], ⟨0, 0⟩⟩

/-- A function with two references that calls `put` on those it is given the names of. -/
def puts (name : String) (targets : List String) : Func :=
  ⟨name, [⟨"a", .ref .float⟩, ⟨"b", .ref .float⟩], .void,
    some (targets.map fun x => .expr (.call "put" [.var x])), ⟨0, 0⟩⟩

/-- Two cells that hold zero. -/
def twoZeros : Store Float := ⟨#[.float 0.0, .float 0.0], #[], #[]⟩

theorem Program.read_of_not_written_puts :
    Typing.check [put, puts "once" ["a"]] = [] ∧
    Program.PassesWrites [put, puts "once" ["a"]] ∧
    (((⟨[put, puts "once" ["a"]], .standard⟩ : Machine Float).callAt 1 2 (puts "once" ["a"])
      [.slot (.cell 0), .slot (.cell 1)]).leaves twoZeros).read (.cell 1) =
        twoZeros.read (.cell 1) := by
  refine ⟨by decide +kernel, by decide +kernel, ?_⟩
  refine Program.read_of_not_written .standard (by decide +kernel) (by decide +kernel) (by simp)
    1 2 (fun i b hb => ?_) (by simp [Slot.In, twoZeros]) fun i hi b hb => ?_
  · rcases i with _ | _ | i <;> cases hb <;>
      exact ⟨by simp [Bound.In, Slot.In, twoZeros], _, rfl, by simp [Ty.isShared]⟩
  · have hw : Program.written [put, puts "once" ["a"]] (puts "once" ["a"]) = [0] := by
      decide +kernel
    rw [hw, List.mem_singleton] at hi
    subst hi
    cases hb
    exact fun h => by cases h

/-- The second call of `put` is passed over: the analysis gives only the first parameter, and the
call writes both. -/
theorem Program.written_misses_second_call :
    Typing.check [put, puts "both" ["a", "b"]] = [] ∧
    Program.written [put, puts "both" ["a", "b"]] (puts "both" ["a", "b"]) = [0] ∧
    twoZeros.read (.cell 1) = .float 0.0 ∧
    (((⟨[put, puts "both" ["a", "b"]], .standard⟩ : Machine Float).callAt 1 2
      (puts "both" ["a", "b"]) [.slot (.cell 0), .slot (.cell 1)]).leaves twoZeros).read (.cell 1) =
        .float 1.0 := by
  refine ⟨by decide +kernel, by decide +kernel, rfl, ?_⟩
  rfl

end Fluxion
