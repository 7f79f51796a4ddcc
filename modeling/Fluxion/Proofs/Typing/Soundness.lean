import Fluxion.Library.Prelude
import Fluxion.Proofs.Analysis.Usage
import Fluxion.Proofs.Typing.Points

/-!
Programs of scalars, references and arrays that passed the checker and call nothing but themselves
and the library's native functions do not go wrong: a call may run out of bounds, of a tape or of
depth, but it never meets a value, a name or an argument that its types rule out.
-/

namespace Fluxion

variable {K : Type}

/-- A scalar, a reference to one, or an array of scalars of any length. -/
def Ty.isPlain : Ty → Bool
  | .ref t | .array t none => t.isScalar
  | .array _ (some _) => false
  | t => t.isScalar

theorem Ty.isStorage_of_isPlain {t : Ty} (h : t.isPlain = true) : t.isStorage = true := by
  unfold isPlain at h
  split at h
  · exact h
  · exact h
  · cases h
  · exact Ty.isStorage_of_isScalar h

theorem Ty.sameLength_of_isPlain {t t' : Ty} (h : t.isPlain = true) (h' : t'.isPlain = true) :
    t.sameLength t' = true := by
  -- an array type that is plain says nothing about the length, also under a reference
  have hnone : ∀ {t elem n}, Ty.isPlain t = true → t.value = .array elem n → n = none := by
    intro t elem n ht hvalue
    rcases Ty.eq_of_value hvalue with rfl | rfl
    · cases n with
      | none => rfl
      | some n => cases ht
    · cases ht
  unfold sameLength
  split
  · rename_i elem n elem' n' hvalue hvalue'
    simp [hnone h hvalue, hnone h' hvalue']
  · rfl

/-- The library's native functions take floats and give one. -/
theorem Library.float_of_mem_natives {g : Func} (hg : g ∈ Library.natives) :
    g.ret = .float ∧ ∀ p ∈ g.params, p.ty = .float := by
  simp only [Library.natives, List.mem_cons, List.not_mem_nil, or_false] at hg
  rcases hg with rfl | rfl | rfl | rfl | rfl | rfl | rfl | rfl | rfl | rfl | rfl | rfl | rfl <;>
    simp [Library.native]

/-- The function is declared as the other one is. -/
def Func.DeclaredAs (f g : Func) : Prop :=
  f.name = g.name ∧ f.params = g.params ∧ f.ret = g.ret

instance (f g : Func) : Decidable (f.DeclaredAs g) :=
  inferInstanceAs (Decidable (f.name = g.name ∧ f.params = g.params ∧ f.ret = g.ret))

theorem Natives.isSome_unary {f : K → K} {args : List K} (h : args.length = 1) :
    (Natives.unary f args).isSome = true := by
  obtain ⟨x, rfl⟩ := List.length_eq_one_iff.mp h
  rfl

theorem Natives.isSome_binary {f : K → K → K} {args : List K} (h : args.length = 2) :
    (Natives.binary f args).isSome = true := by
  obtain ⟨x, y, rfl⟩ := List.length_eq_two.mp h
  rfl

/-- The standard implementations are of all the library's native functions. -/
theorem Natives.exists_standard {g : Func} (hg : g ∈ Library.natives) :
    ∃ native, Natives.standard.lookup g.name = some native ∧
      ∀ args, args.length = g.params.length → (native args).isSome = true := by
  simp only [Library.natives, List.mem_cons, List.not_mem_nil, or_false] at hg
  rcases hg with rfl | rfl | rfl | rfl | rfl | rfl | rfl | rfl | rfl | rfl | rfl | rfl | rfl
  case inr.inr.inr.inr.inr.inr.inl => exact ⟨_, rfl, fun _ => Natives.isSome_binary⟩
  all_goals exact ⟨_, rfl, fun _ => Natives.isSome_unary⟩

/-- The programs that types are sound for. -/
structure Machine.IsCore (m : Machine K) : Prop where
  checked : Typing.check m.funcs = []
  params : ∀ f ∈ m.funcs, f.isNative = false → ∀ p ∈ f.params, p.ty.isPlain = true
  results : ∀ f ∈ m.funcs, f.isNative = false → f.ret.isScalar = true ∨ f.ret = .void
  natives : ∀ f ∈ m.funcs, f.isNative = true → ∃ g ∈ Library.natives, f.DeclaredAs g
  bound : ∀ g ∈ Library.natives, ∃ native, m.natives.lookup g.name = some native ∧
    ∀ args, args.length = g.params.length → (native args).isSome = true
  calls : ∀ f ∈ m.funcs, Intrinsic.centralDifferenceName ∉ Analysis.callees f.stmts
  values : ∀ f ∈ m.funcs, bodyHasValues f.scope f.stmts = true

namespace Machine.IsCore

variable {m : Machine K}

theorem params_isPlain (hm : m.IsCore) : ∀ f ∈ m.funcs, ∀ p ∈ f.params, p.ty.isPlain = true := by
  intro f hf p hp
  cases hnative : f.isNative with
  | false => exact hm.params f hf hnative p hp
  | true =>
    obtain ⟨g, hg, _, hparams, _⟩ := hm.natives f hf hnative
    rw [(Library.float_of_mem_natives hg).2 p (hparams ▸ hp)]
    rfl

theorem ignoresLengths (hm : m.IsCore) : m.funcs.ignoresLengths = true := by
  refine List.all_eq_true.mpr fun f hf => List.all_eq_true.mpr fun g hg => ?_
  simp only [Bool.or_eq_true, Func.sameLengths, List.all_eq_true]
  refine .inr (.inr fun q hq => ?_)
  obtain ⟨hp, hp'⟩ := List.of_mem_zip hq
  exact Ty.sameLength_of_isPlain (hm.params_isPlain f hf _ hp) (hm.params_isPlain g hg _ hp')

theorem differenceRule_body (hm : m.IsCore) {f : Func} (hf : f ∈ m.funcs) {body : List Stmt}
    (hbody : f.body = some body) : (differenceRule True m.funcs).Body body := by
  refine Rule.body_of_mem trivial (fun part hpart => ?_) (fun _ _ => trivial) fun _ _ => trivial
  cases part with
  | call name args =>
    intro hname
    obtain rfl := Intrinsic.eq_centralDifferenceName hname
    have hcalls := hm.calls f hf
    rw [Func.stmts, hbody] at hcalls
    exact absurd (Analysis.mem_callees.mpr ⟨args, hpart⟩) hcalls
  | _ => trivial

theorem regular (hm : m.IsCore) : m.Regular True where
  checked := hm.checked
  lengths := hm.ignoresLengths
  natives f hf hbody := by
    obtain ⟨g, hg, _, _, hret⟩ := hm.natives f hf (by simp [Func.isNative, hbody])
    rw [hret]
    exact (Library.float_of_mem_natives hg).1
  code f hf body hbody := hm.differenceRule_body hf hbody
  storage _ f hf p hp := Ty.isStorage_of_isPlain (hm.params_isPlain f hf p hp)
  results _ f hf := by
    cases hnative : f.isNative with
    | false => exact hm.results f hf hnative
    | true =>
      obtain ⟨g, hg, _, _, hret⟩ := hm.natives f hf hnative
      rw [hret, (Library.float_of_mem_natives hg).1]
      exact .inl rfl
  values _ f hf body hbody := by simpa [Func.stmts, hbody] using hm.values f hf
  bound _ f hf hbody := by
    obtain ⟨g, hg, hname, hparams, _⟩ := hm.natives f hf (by simp [Func.isNative, hbody])
    obtain ⟨native, hlookup, hsome⟩ := hm.bound g hg
    refine ⟨hparams ▸ (Library.float_of_mem_natives hg).2, native, ?_, hparams ▸ hsome⟩
    simp [native?, hname, hlookup]

end Machine.IsCore

theorem Machine.Regular.lenient {strict : Prop} {m : Machine K} (hm : m.Regular strict) :
    m.Regular False where
  checked := hm.checked
  lengths := hm.lengths
  natives := hm.natives
  code f hf body hbody := by
    have himplies : (differenceRule strict m.funcs).Implies (differenceRule False m.funcs) := by
      refine ⟨fun e he => ?_, fun _ => id, fun _ => id, id⟩
      cases e with
      | call name args => exact fun hname => ⟨id, (he hname).2⟩
      | _ => trivial
    exact himplies.body (hm.code f hf body hbody)
  storage h := h.elim
  results h := h.elim
  values h := h.elim
  bound h := h.elim

/-! ### Declared types of storage -/

/-- The types that storage is declared with: that of every cell, and those of the elements of every
array and tape. -/
structure Declared where
  cells : List Ty
  arrays : List Ty
  tapes : List Ty

/-- Storage as declared, where everything holds values of its type. -/
structure Store.Holds (s : Store K) (d : Declared) : Prop where
  cells : s.cells.toList.map Value.ty = d.cells
  arrays : s.arrays.toList.map Buffer.elem = d.arrays
  tapes : s.tapes.toList.map Buffer.elem = d.tapes
  typed : s.Typed

/-- Storage as declared and perhaps more of it, where everything holds values of its type. -/
def Store.Keeps (s : Store K) (d : Declared) : Prop :=
  ∃ d', d.cells <+: d'.cells ∧ d.arrays <+: d'.arrays ∧ d.tapes <+: d'.tapes ∧ s.Holds d'

theorem map_prefix_of_getElem? {α β : Type} {xs ys : Array α} {f : α → β}
    (h : ∀ (i : Nat) t, xs[i]?.map f = some t → ys[i]?.map f = some t) :
    xs.toList.map f <+: ys.toList.map f := by
  refine List.prefix_iff_getElem?.mpr fun i hi => ?_
  have hi' : i < xs.size := by simpa using hi
  simpa using h i (f xs[i]) (by simp [hi'])

theorem Store.Holds.keeps {s s' : Store K} {d : Declared} (h : s.Holds d) (hr : Retains s s') :
    s'.Keeps d := by
  refine ⟨⟨_, _, _⟩, ?_, ?_, ?_, rfl, rfl, rfl, hr.typed⟩
  · rw [← h.cells]
    exact map_prefix_of_getElem? fun i t => @Retains.slots _ _ _ hr (.cell i) t
  · rw [← h.arrays]
    exact map_prefix_of_getElem? fun i t => hr.arrays
  · rw [← h.tapes]
    exact map_prefix_of_getElem? fun i t => hr.tapes

namespace Machine

variable [Scalar K]

/-- A call on storage that holds what it is declared with, and with arguments that fit, does not
stop for a reason that types rule out. It gives what its result type promises. At every point that
it passes through, what is in scope has the type that the checker knows it by, and from there on
storage keeps the types it is declared with; so does the storage that the call leaves. -/
theorem callAt_respects_types {m : Machine K} (hm : m.IsCore) {f : Func} (hf : f ∈ m.funcs)
    {bound : List (Bound K)} {s : Store K} {d : Declared} (hs : s.Holds d)
    (hb : List.Forall₂ (fun p b => b.HasTy s p.ty) f.params bound) (limit depth : Nat) :
    (∀ e s', m.callAt limit depth f bound s = .error e s' →
      e.isIllTyped = false ∧ s'.Keeps d) ∧
    (∀ v s', m.callAt limit depth f bound s = .ok v s' → Returned f.ret v ∧ s'.Keeps d) ∧
    ∀ c, m.Reaches limit (.call depth f bound s) c → c.Typed m.funcs ∧
      ∀ d', c.store.Holds d' → ∀ c', m.Reaches limit c c' → c'.store.Keeps d' := by
  have hcall := (conforms_callAt hm.regular limit depth).call f hf bound s hs.typed hb
  refine ⟨fun e s' hrun => ?_, fun v s' hrun => ?_, fun c hreach => ?_⟩
  · obtain ⟨hr, htyped⟩ := hcall.of_error hrun
    exact ⟨htyped trivial, hs.keeps hr⟩
  · obtain ⟨hr, hv⟩ := hcall.of_ok hrun
    exact ⟨hv, hs.keeps hr⟩
  · have hregular := hm.regular.lenient
    obtain ⟨hc, hr⟩ := typed_of_reaches hregular hreach ⟨hf, hs.typed, hb⟩ hs.typed
    refine ⟨hc, fun d' hd' c' hreach' => ?_⟩
    exact hd'.keeps (typed_of_reaches hregular hreach' hc hr.typed).2

/-- The function `fn spread(a: [f64], n: &i64) -> f64` stores multiples of sines to an array, counts
its elements in `n` and returns their sum. -/
def spread : Func where
  name := "spread"
  params := [⟨"a", .arrayOf .float⟩, ⟨"n", .ref .int⟩]
  ret := .float
  body := some [
    .let_ "sum" .float (some (.float 0.0)),
    .for_ (some (.decl ⟨"i", .int, some (.int 0)⟩))
      (some (.binary .lt (.var "i") (.call "len" [.var "a"])))
      (some ⟨.var "i", .add, .int 1⟩) [
        .update (.index "a" (.var "i")) .set
          (.binary .mul (.call "sin" [.index "a" (.var "i")]) (.var "n")),
        .update (.var "sum") .add (.index "a" (.var "i")),
        .update (.var "n") .add (.int 1)],
    .ret (some (.var "sum"))]
  span := ⟨0, 0⟩

/-- The function `fn start(x: f64, n: &i64) -> f64` calls `spread` on an array of its own, which it
fills through a tape. -/
def start : Func where
  name := "start"
  params := [⟨"x", .float⟩, ⟨"n", .ref .int⟩]
  ret := .float
  body := some [
    .let_ "t" (.tape .float) none,
    .arrayDecl "b" .float (.int 1),
    .expr (.call "push" [.var "t", .binary .mul (.var "x") (.var "n")]),
    .update (.index "b" (.int 0)) .set (.call "pop" [.var "t"]),
    .ret (some (.call "spread" [.var "b", .var "n"]))]
  span := ⟨0, 0⟩

/-- The library with these functions. -/
def spreading : Machine Float := ⟨Library.prelude ++ [spread, start], .standard⟩

theorem isCore_spreading : spreading.IsCore where
  checked := by decide +kernel
  params := by decide +kernel
  results := by decide +kernel
  natives := by decide +kernel
  bound _ := Natives.exists_standard
  calls := by decide +kernel
  values := by decide +kernel

/-- A cell with an integer, an array of floats and a tape of integers. -/
def threeKinds : Store Float := ⟨#[.int 3], #[⟨.float, #[.float 1.5]⟩], #[⟨.int, #[.int 7]⟩]⟩

theorem callAt_respects_types_start :
    spreading.IsCore ∧ threeKinds.Holds ⟨[.int], [.float], [.int]⟩ ∧
    ∀ e s', spreading.callAt 100 maxDepth start [.value (.int 2), .slot (.cell 0)] threeKinds =
      .error e s' → e.isIllTyped = false ∧ s'.Keeps ⟨[.int], [.float], [.int]⟩ := by
  have hstart : start ∈ spreading.funcs := List.mem_append_right _ (by simp)
  have hholds : threeKinds.Holds ⟨[.int], [.float], [.int]⟩ := by
    refine ⟨rfl, rfl, rfl, ?_, ?_⟩ <;>
      simp [threeKinds, Buffer.Typed, Value.ty, Ty.value]
  have hbound : List.Forall₂ (fun p b => Bound.HasTy threeKinds p.ty b)
      start.params [.value (.int 2), .slot (.cell 0)] := by
    refine .cons ?_ (.cons ?_ .nil) <;> rfl
  exact ⟨isCore_spreading, hholds,
    (callAt_respects_types isCore_spreading hstart hholds hbound 100 maxDepth).1⟩

end Machine

end Fluxion
