import Fluxion.Proofs.Analysis.Usage
import Fluxion.Proofs.Typing.Points

/-!
A call in a run reaches the function that the checker resolves the call to, as long as overloads are
not told apart by lengths of arrays and all numbers enter with their declared types.
-/

namespace Fluxion

variable {K : Type}

/-- Storage that is given from outside has the type: references and arrays enter as storage of
floats. -/
def Ty.isEntered : Ty → Bool
  | .ref t | .array t _ => t == .float
  | _ => true

/-- Native functions are declared to give the floats that they give. -/
def Program.floatNatives (p : Program) : Bool := p.all fun f => !f.isNative || f.ret == .float

/-- Numerical derivatives are taken of functions without integer parameters, which would be given
floats. -/
def Program.floatDifferences (p : Program) : Bool :=
  p.all fun f => (Analysis.calls f.stmts).all fun (name, args) =>
    name != Intrinsic.centralDifferenceName ||
      match args.head? with
      | some (.funcRef target) =>
        p.all fun g => g.name != target || g.params.all fun q => q.ty.value != .int
      | _ => true

theorem Program.differenceRule_of_floatDifferences {p : Program} (hp : p.floatDifferences = true)
    {f : Func} (hf : f ∈ p) {body : List Stmt} (hbody : f.body = some body) :
    (differenceRule False p).Body body := by
  refine Rule.body_of_mem trivial (fun part hpart => ?_) (fun _ _ => trivial) fun _ _ => trivial
  cases part with
  | call name args =>
    intro hname
    obtain rfl := Intrinsic.eq_centralDifferenceName hname
    have hcalls := List.all_eq_true.mp (List.all_eq_true.mp hp f hf) _
      (Analysis.mem_calls.mpr (by simpa [Func.stmts, hbody] using hpart))
    refine ⟨id, fun target htarget g hg hgname => ?_⟩
    simp only [htarget, bne_self_eq_false, Bool.false_or, List.all_eq_true] at hcalls
    simpa [hgname] using hcalls g hg
  | _ => trivial

/-- What a checked program needs for its storage to keep to the types. -/
theorem Machine.regular_of_checked {m : Machine K} (hchecked : Typing.check m.funcs = [])
    (hlengths : m.funcs.ignoresLengths = true) (hnatives : m.funcs.floatNatives = true)
    (hdifferences : m.funcs.floatDifferences = true) : m.Regular False where
  checked := hchecked
  lengths := hlengths
  natives f hf hbody := by
    simpa [Func.isNative, hbody] using List.all_eq_true.mp hnatives f hf
  code f hf body hbody := Program.differenceRule_of_floatDifferences hdifferences hf hbody
  storage h := h.elim
  results h := h.elim
  values h := h.elim
  bound h := h.elim

namespace Machine

open Eval

variable [Scalar K] {s : Store K}

theorem sound_bindArg {f : Func} {p : Param} (a : Arg K) (hs : s.Typed)
    (hp : p.ty.isEntered = true) : Sound False (bindArg f p a) s fun b s' => b.HasTy s' p.ty := by
  have hfail : ∀ {e : RuntimeError}, Sound False (Exec.fail (K := K) (α := Bound K) e) s
      fun b s' => b.HasTy s' p.ty := Sound.fail hs (fun h => h.elim)
  unfold bindArg
  split
  case h_1 t v hty =>
    -- a reference
    obtain rfl : t = .float := by simpa [hty, Ty.isEntered] using hp
    refine Sound.bind (Q := fun slot s' => s'.slotTy? slot = some .float) ⟨.newCell hs _, ?_⟩ ?_
    · simp [Store.slotTy?, Value.ty]
    · exact fun slot s₁ hr hslot => Sound.pure hr.typed (by rw [hty]; exact hslot)
  case h_3 elem len values hty =>
    -- an array
    obtain rfl : elem = .float := by simpa [hty, Ty.isEntered] using hp
    refine Sound.bind (Q := fun id s' => s'.arrayTy? id = some .float) ⟨.newArray hs ?_, ?_⟩ ?_
    · simp [Buffer.Typed, Value.coerce, Ty.value, Value.ty]
    · simp [Store.arrayTy?]
    · exact fun id s₁ hr hid => Sound.pure hr.typed ⟨.float, len, hty, hid⟩
  case h_8 v hty =>
    -- a float where an integer is expected
    split
    · exact Sound.pure hs (by rw [hty]; rfl)
    · exact hfail
  case h_5 hty | h_6 hty | h_7 hty | h_9 hty => exact Sound.pure hs (by rw [hty]; rfl)
  case h_2 | h_4 | h_10 => exact hfail

theorem sound_bindArgs {f : Func} {ps : List Param} {args : List (Arg K)} (hs : s.Typed)
    (hps : ∀ p ∈ ps, p.ty.isEntered = true) (hlen : ps.length = args.length) :
    Sound False (bindArgs f ps args) s fun bs s' =>
      List.Forall₂ (fun p b => b.HasTy s' p.ty) ps bs := by
  induction ps generalizing args s with
  | nil =>
    unfold bindArgs
    exact Sound.pure hs .nil
  | cons p ps ih =>
    cases args with
    | nil => cases hlen
    | cons a args =>
      unfold bindArgs
      refine (sound_bindArg a hs (hps p List.mem_cons_self)).bind fun b s₁ hr₁ hb => ?_
      have hrest := ih hr₁.typed (fun q hq => hps q (List.mem_cons_of_mem _ hq)) (Nat.succ.inj hlen)
      exact hrest.bind fun bs s₂ hr₂ hbs => Sound.pure hr₂.typed (.cons (hb.retained hr₂) hbs)

/-- At every call that a run comes to, with arguments from outside of the declared types, the types
of the operands choose the function that the static types of the arguments choose. -/
theorem resolve_operands_of_run {m : Machine K} (hchecked : Typing.check m.funcs = [])
    (hlengths : m.funcs.ignoresLengths = true) (hnatives : m.funcs.floatNatives = true)
    (hdifferences : m.funcs.floatDifferences = true) {f : Func} (hf : f ∈ m.funcs)
    (hparams : ∀ p ∈ f.params, p.ty.isEntered = true) {args : List (Arg K)}
    (hargs : f.params.length = args.length) (hs : s.Typed) {bound : List (Bound K)}
    {s₁ : Store K} (hbind : bindArgs f f.params args s = .ok bound s₁) {limit depth : Nat}
    {types : TyEnv} {env : Env} {name : String} {es : List Expr} {s₂ s₃ : Store K}
    (hreach : m.Reaches limit (.call maxDepth f bound s₁)
      (.code depth types env (.expr (.call name es)) s₂))
    (hname : Intrinsic.ofName? name = none) {os : List (Operand K)}
    (hos : operands (m.context limit depth) env es s₂ = .ok os s₃) :
    ∃ ts g, Typing.checkArgs m.funcs.resolve types es = .ok ts ∧
      types? m.funcs.resolve types es = some ts ∧ m.funcs.resolve name ts = some g ∧
      m.funcs.resolve name (os.map (operandTy s₃)) = some g := by
  have hm := regular_of_checked hchecked hlengths hnatives hdifferences
  obtain ⟨hr₁, hbound⟩ := (sound_bindArgs hs hparams hargs).of_ok hbind
  obtain ⟨⟨h, ⟨t, ht⟩, hrule⟩, _⟩ := typed_of_reaches hm hreach ⟨hf, hr₁.typed, hbound⟩ hr₁.typed
  obtain ⟨ts, g, hts, hg, _⟩ := Typing.of_checkExpr_call ht hname
  obtain ⟨_, htyped, _⟩ := retains_of_operands hm h hts (Rule.expr_call.mp hrule).2 hos
  exact ⟨ts, g, hts, Typing.types?_of_checkArgs hts, hg, resolve_operands hm.lengths htyped hg⟩

/-- The function `fn pick(a: [f64; len], k: second) -> f64` returns a number. -/
def pick (len : Option Nat) (second : Ty) (v : Float) : Func :=
  ⟨"pick", [⟨"a", .array .float len⟩, ⟨"k", second⟩], .float, some [.ret (some (.float v))],
    ⟨0, 0⟩⟩

/-- The function `fn caller(a: [f64; 3], n: i64) -> f64` calls `pick` on what it is given. -/
def caller : Func where
  name := "caller"
  params := [⟨"a", .array .float (some 3)⟩, ⟨"n", .int⟩]
  ret := .float
  body := some [.ret (some (.call "pick" [.var "a", .var "n"]))]
  span := ⟨0, 0⟩

/-- Two functions `pick`, for arrays of the given lengths, and their caller. -/
def picking (first second : Option Nat) : Machine Float :=
  ⟨[pick first .int 1.0, pick second .float 2.0, caller], []⟩

/-- An array of three numbers, before and after the caller has its own integer. -/
def threeNumbers (cells : Array (Value Float)) : Store Float :=
  ⟨cells, #[⟨.float, #[.float 1.0, .float 2.0, .float 3.0]⟩], #[]⟩

theorem bindArgs_caller : bindArgs caller caller.params [.array [1.0, 2.0, 3.0], .int 1] .empty =
    .ok [.array 0, .value (.int 1)] (threeNumbers #[]) := rfl

/-- What the caller's variables stand for. -/
def callerEnv : Env := [("n", .scalar (.cell 0)), ("a", .array 0)]

/-- The caller comes to its call with the array and its integer. -/
theorem reaches_pick (first second : Option Nat) (limit : Nat) :
    (picking first second).Reaches limit
      (.call maxDepth caller [.array 0, .value (.int 1)] (threeNumbers #[]))
      (.code 255 caller.scope callerEnv (.expr (.call "pick" [.var "a", .var "n"]))
        (threeNumbers #[.int 1])) := by
  have henter : (picking first second).Begins limit
      (.call maxDepth caller [.array 0, .value (.int 1)] (threeNumbers #[]))
      (.code 255 caller.scope callerEnv (.body caller.stmts) (threeNumbers #[.int 1])) :=
    .enter rfl rfl
  exact .tail (.tail (.single henter) .first) .ret

theorem operands_pick (first second : Option Nat) (limit : Nat) :
    operands ((picking first second).context limit 255) callerEnv [.var "a", .var "n"]
      (threeNumbers #[.int 1]) =
    .ok [.array 0, .place (.cell 0) (.int 1)] (threeNumbers #[.int 1]) := rfl

theorem resolve_operands_of_run_picking :
    Typing.check (picking (some 3) (some 3)).funcs = [] ∧
    (picking (some 3) (some 3)).funcs.ignoresLengths = true ∧
    ∃ ts g, Typing.checkArgs (picking (some 3) (some 3)).funcs.resolve caller.scope
        [.var "a", .var "n"] = .ok ts ∧
      types? (picking (some 3) (some 3)).funcs.resolve caller.scope [.var "a", .var "n"] = some ts ∧
      (picking (some 3) (some 3)).funcs.resolve "pick" ts = some g ∧
      (picking (some 3) (some 3)).funcs.resolve "pick" [.arrayOf .float, .int] = some g :=
  ⟨by decide +kernel, by decide +kernel,
    resolve_operands_of_run (m := picking (some 3) (some 3)) (by decide +kernel)
      (by decide +kernel) (by decide +kernel) (by decide +kernel) (by simp [picking])
      (by decide +kernel) rfl ⟨by simp [Store.empty], by simp [Store.empty]⟩ bindArgs_caller
      (reaches_pick _ _ 10) (by decide +kernel) (operands_pick _ _ 10)⟩

/-- Where the lengths of arrays tell overloads apart, a run chooses by the second argument alone: the
static types fit only the second function, the operands fit the first one better. -/
theorem operands_choose_without_lengths :
    Typing.check (picking (some 2) (some 3)).funcs = [] ∧
    (picking (some 2) (some 3)).Reaches 10
      (.call maxDepth caller [.array 0, .value (.int 1)] (threeNumbers #[]))
      (.code 255 caller.scope callerEnv (.expr (.call "pick" [.var "a", .var "n"]))
        (threeNumbers #[.int 1])) ∧
    operands ((picking (some 2) (some 3)).context 10 255) callerEnv [.var "a", .var "n"]
        (threeNumbers #[.int 1]) =
      .ok [.array 0, .place (.cell 0) (.int 1)] (threeNumbers #[.int 1]) ∧
    (types? (picking (some 2) (some 3)).funcs.resolve caller.scope [.var "a", .var "n"]).bind
        ((picking (some 2) (some 3)).funcs.resolve "pick") = some (pick (some 3) .float 2.0) ∧
    (picking (some 2) (some 3)).funcs.resolve "pick"
        ([.array 0, .place (.cell 0) (.int 1)].map (operandTy (threeNumbers #[.int 1]))) =
      some (pick (some 2) .int 1.0) :=
  ⟨by decide +kernel, reaches_pick _ _ 10, operands_pick _ _ 10, rfl, rfl⟩

end Machine

end Fluxion
