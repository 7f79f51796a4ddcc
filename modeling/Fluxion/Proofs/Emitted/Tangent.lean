import Fluxion.Derive.Pushforward
import Fluxion.Proofs.Emitted.Account
import Fluxion.Proofs.Typing.Overload

/-!
Code of forward mode calls what the source calls and the derivatives that were planned.
-/

namespace Fluxion.Derive

@[simp] theorem TangentScope.function_declare (t : TangentScope) (x : String) :
    (t.declare x).2.function = t.function := rfl

namespace Account

section

variable {s : Setting} {A : Account s} {B : Permit A} {plan : Planner} {t : TangentScope}
  {st : Progress}

theorem ends_primal (hg : A.Good st) (t : TangentScope) (e : Expr) :
    A.Ends st (fun e' _ => e' = e) (primal s t e) := by
  unfold primal
  refine ends_currentHost_bind ?_
  split
  · exact .unsupported hg
  · exact .pure hg rfl

theorem ends_primals (hg : A.Good st) (t : TangentScope) (es : List Expr) :
    A.Ends st (fun es' _ => es' = es) (es.mapM (primal s t)) := by
  induction es generalizing st with
  | nil => exact .pure hg rfl
  | cons e es ih =>
    rw [List.mapM_cons]
    refine .bind (ends_primal hg t e) fun e' st₁ hg₁ _ he => ?_
    refine .bind (ih hg₁) fun es' st₂ hg₂ _ hes => ?_
    exact .pure hg₂ (by rw [he, hes])

theorem ends_operandCopies (hg : A.Good st) (t : TangentScope) (op : BinOp) (l r : Expr) :
    A.Ends st (fun lr _ => lr = (l, r)) (operandCopies s t op l r) := by
  unfold operandCopies
  split
  case h_3 => exact .pure hg rfl
  all_goals
    refine .bind (ends_primal hg t l) fun l' st₁ hg₁ _ hl => ?_
    refine .bind (ends_primal hg₁ t r) fun r' st₂ hg₂ _ hr => ?_
    exact .pure hg₂ (by rw [hl, hr])

theorem covered_tangentOf? {S : String → Option String → Prop} {op : BinOp} {l dl r dr : Expr}
    (hl : CallsWith S l.parts) (hdl : CallsWith S dl.parts) (hr : CallsWith S r.parts)
    (hdr : CallsWith S dr.parts) :
    CallsWith S ((tangentOf? op l dl r dr).getD .zero).parts := by
  cases op with
  | add => exact callsWith_plus hdl hdr
  | sub => exact callsWith_minus hdl hdr
  | mul => exact callsWith_plus (callsWith_times hdl hr) (callsWith_times hl hdr)
  | div =>
    exact callsWith_dividedBy (callsWith_minus (callsWith_times hdl hr) (callsWith_times hl hdr))
      (callsWith_times hr hr)
  | _ => simp [tangentOf?, Expr.zero, Expr.parts]

theorem ends_sharedTangent (hg : A.Good st) (t : TangentScope) (p : Param) {arg : Expr}
    (ha : B.Covered st arg.parts) :
    A.Ends st (fun d st' => B.Covered st' d.parts) (sharedTangent t p arg) := by
  unfold sharedTangent
  split
  · exact .unsupported hg
  · rename_i place hplace
    split
    · exact .unsupported hg
    · rename_i d _
      refine .pure hg ?_
      cases arg with
      | var x =>
        obtain rfl : place = .var x := by simpa [Expr.place?] using hplace.symm
        simp [Place.renamed, Place.toExpr, Expr.parts]
      | index x i =>
        obtain rfl : place = .index x i := by simpa [Expr.place?] using hplace.symm
        simpa [Place.renamed, Place.toExpr, Expr.parts] using ha
      | _ => simp [Expr.place?] at hplace

theorem covered_centralDifference {callee : String} {k : Nat} {print : Bool} {args : List Expr}
    (hname : B.May st Intrinsic.centralDifferenceName (some callee))
    (h : B.Covered st (Expr.partsList args)) :
    B.Covered st (centralDifference callee k print args).parts := by
  simpa [centralDifference, Expr.parts, Expr.partsList] using ⟨hname, h⟩

/-- A call of a pushforward passes on the arguments and their tangents. -/
theorem ends_pushforwardCall (hg : A.Good st) (t : TangentScope) {d : String}
    (hd : ∀ g, B.May st d g) {args : List Expr} (hargs : B.Covered st (Expr.partsList args))
    {tangents : Derivation (List Expr)}
    (ht : ∀ st', A.Good st' → A.Later st st' →
      A.Ends st'
        (fun ds st'' => B.Covered st'' (Expr.partsList ds)) tangents) :
    A.Ends st (fun (e : Expr) st' => B.Covered st' e.parts) (do
      let copies ← args.mapM (primal s t)
      let tangents ← tangents
      return Expr.call d (copies ++ tangents)) := by
  refine .bind (ends_primals hg t args) fun copies st₁ hg₁ h₁ hcopies => ?_
  subst hcopies
  refine .bind (ht st₁ hg₁ h₁) fun ds st₂ hg₂ h₂ hds => ?_
  have h₁₂ := h₁.trans h₂
  refine .pure hg₂ ?_
  simpa [Expr.parts] using ⟨B.later h₁₂ (hd _), h₁₂.calls hargs, hds⟩

mutual

theorem ends_tangent (hp : B.Plans plan) {t : TangentScope}
    (ht : t.function = B.caller) :
    ∀ (e : Expr) (st : Progress), A.Good st →
      B.Covered st e.parts →
      A.Ends st (fun d st' => B.Covered st' d.parts)
        (tangent s plan t e)
  | .float _, _, hg, _ | .int _, _, hg, _ | .bool _, _, hg, _ | .funcRef _, _, hg, _ => by
    simp only [tangent]
    exact .pure hg (by simp [Expr.zero, Expr.parts])
  | .var x, _, hg, _ => by
    simp only [tangent]
    refine .pure hg ?_
    cases t.tangent? x <;> simp [Expr.zero, Expr.parts]
  | .index x i, _, hg, hc => by
    simp only [tangent]
    refine .pure hg ?_
    cases t.tangent? x with
    | none => simp [Expr.zero, Expr.parts]
    | some d => simpa [Expr.parts] using hc
  | .unary .neg e, st, hg, hc => by
    simp only [tangent]
    have he := ends_tangent hp ht e st hg (by simpa [Expr.parts] using hc)
    exact .bind he fun d st₁ hg₁ _ hd => .pure hg₁ (callsWith_negate hd)
  | .unary .not _, _, hg, _ => by
    simp only [tangent]
    exact .pure hg (by simp [Expr.zero, Expr.parts])
  | .binary op l r, st, hg, hc => by
    simp only [tangent]
    simp only [Expr.parts, callsWith_cons, callsWith_append] at hc
    refine .bind (ends_tangent hp ht l st hg hc.2.1) fun dl st₁ hg₁ h₁ hdl => ?_
    refine .bind (ends_tangent hp ht r st₁ hg₁ (h₁.calls hc.2.2)) fun dr st₂ hg₂ h₂ hdr => ?_
    split
    · exact .pure hg₂ (by simp [Expr.zero, Expr.parts])
    · refine .bind (ends_operandCopies hg₂ t op l r) fun lr st₃ hg₃ h₃ hlr => ?_
      subst hlr
      have h₁₃ := h₁.trans (h₂.trans h₃)
      exact .pure hg₃ (covered_tangentOf? (h₁₃.calls hc.2.1) ((h₂.trans h₃).calls hdl)
        (h₁₃.calls hc.2.2) (h₃.calls hdr))
  | .call f args, st, hg, hc => by
    simp only [tangent]
    simp only [Expr.parts, callsWith_cons] at hc
    split
    · exact .pure hg (by simp [Expr.zero, Expr.parts])
    · split
      · exact .pure hg (by simp [Expr.zero, Expr.parts])
      · rename_i d _
        refine .bind (ends_secondTangent? hp ht args st hg hc.2) fun e st₁ hg₁ _ he => ?_
        refine .pure hg₁ ?_
        cases e with
        | none => simp [Expr.zero, Expr.parts]
        | some e =>
          simpa [pushTo, Expr.parts, Expr.partsList] using
            ⟨B.intrinsic (by decide) (by decide) _ _, he e rfl⟩
    · refine .pure hg ?_
      cases t.tapeTangent? args with
      | none => simp [Expr.zero, Expr.parts]
      | some d =>
        simpa [popFrom, Expr.parts, Expr.partsList] using B.intrinsic (by decide) (by decide) _ _
    · exact .unsupported hg
    · refine .bind (ends_calleeOf hg t.function t.env f args) fun callee st₁ hg₁ h₁ hcal => ?_
      refine ends_currentHost_bind ?_
      split
      · exact .unsupported hg₁
      · refine .bind (hp.at ht .pushforward hg₁ hcal) fun made st₂ hg₂ h₂ hmade => ?_
        have hargs := (h₁.trans h₂).calls hc.2
        split
        · exact .pure hg₂ (by simp [Expr.zero, Expr.parts])
        · rename_i d
          exact ends_pushforwardCall hg₂ t hmade hargs fun st₃ hg₃ h₃ =>
            ends_tangentArgs hp ht callee.params args st₃ hg₃ (h₃.calls hargs)
        · rename_i d
          exact ends_pushforwardCall hg₂ t hmade hargs fun st₃ hg₃ h₃ =>
            ends_tangentArgs hp ht callee.params args st₃ hg₃ (h₃.calls hargs)
        · exact ends_numericalTangent hp ht callee args .zero 0 callee.params args st₂ hg₂ hmade
            hargs hargs (by simp [Expr.zero, Expr.parts])

theorem ends_secondTangent? (hp : B.Plans plan) {t : TangentScope}
    (ht : t.function = B.caller) :
    ∀ (es : List Expr) (st : Progress), A.Good st →
      B.Covered st (Expr.partsList es) →
      A.Ends st
        (fun d st' => ∀ e ∈ d, B.Covered st' e.parts) (secondTangent? s plan t es)
  | [], _, hg, _ | [_], _, hg, _ => by
    simp only [secondTangent?]
    exact .pure hg (by simp)
  | _ :: e :: rest, st, hg, hc => by
    simp only [secondTangent?]
    simp only [Expr.partsList, callsWith_append] at hc
    refine .bind (ends_tangent hp ht e st hg hc.2.1) fun d st₁ hg₁ _ hd => .pure hg₁ ?_
    rintro _ ⟨⟩
    exact hd

theorem ends_tangentArgs (hp : B.Plans plan) {t : TangentScope}
    (ht : t.function = B.caller) :
    ∀ (ps : List Param) (es : List Expr) (st : Progress), A.Good st →
      B.Covered st (Expr.partsList es) →
      A.Ends st
        (fun ds st' => B.Covered st' (Expr.partsList ds)) (tangentArgs s plan t ps es)
  | [], _, _, hg, _ | _ :: _, [], _, hg, _ => by
    simp only [tangentArgs]
    exact .pure hg callsWith_nil
  | p :: ps, e :: es, st, hg, hc => by
    simp only [tangentArgs]
    simp only [Expr.partsList, callsWith_append] at hc
    split
    · exact ends_tangentArgs hp ht ps es st hg hc.2
    · refine .bind (ends_tangent hp ht e st hg hc.1) fun d st₁ hg₁ h₁ hd => ?_
      refine .bind (ends_tangentArgs hp ht ps es st₁ hg₁ (h₁.calls hc.2))
        fun ds st₂ hg₂ h₂ hds => ?_
      exact .pure hg₂ (callsWith_append.mpr ⟨h₂.calls hd, hds⟩)
    · refine .bind (ends_sharedTangent hg t p hc.1) fun d st₁ hg₁ h₁ hd => ?_
      refine .bind (ends_tangentArgs hp ht ps es st₁ hg₁ (h₁.calls hc.2))
        fun ds st₂ hg₂ h₂ hds => ?_
      exact .pure hg₂ (callsWith_append.mpr ⟨h₂.calls hd, hds⟩)

theorem ends_numericalTangent (hp : B.Plans plan) {t : TangentScope}
    (ht : t.function = B.caller) (callee : Func) (args : List Expr) :
    ∀ (sum : Expr) (k : Nat) (ps : List Param) (es : List Expr) (st : Progress),
      A.Good st → B.Planned callee .numerical st → B.Covered st (Expr.partsList args) →
      B.Covered st (Expr.partsList es) → B.Covered st sum.parts →
      A.Ends st (fun d st' => B.Covered st' d.parts)
        (numericalTangent s plan t callee args sum k ps es)
  | sum, k, [], _, _, hg, _, _, _, hsum | sum, k, _ :: _, [], _, hg, _, _, _, hsum => by
    simp only [numericalTangent]
    exact .pure hg hsum
  | sum, k, p :: ps, e :: es, st, hg, hmade, hargs, hc, hsum => by
    simp only [numericalTangent]
    simp only [Expr.partsList, callsWith_append] at hc
    split
    · refine .bind (ends_tangent hp ht e st hg hc.1) fun d st₁ hg₁ h₁ hd => ?_
      split
      · exact ends_numericalTangent hp ht callee args sum (k + 1) ps es st₁ hg₁
          (hmade.later h₁) (h₁.calls hargs) (h₁.calls hc.2) (h₁.calls hsum)
      · refine .bind (ends_primals hg₁ t args) fun copies st₂ hg₂ h₂ hcopies => ?_
        subst hcopies
        have h₁₂ := h₁.trans h₂
        have hmade₂ := hmade.later h₁₂
        refine ends_numericalTangent hp ht callee copies _ (k + 1) ps es st₂ hg₂ hmade₂
          (h₁₂.calls hargs) (h₁₂.calls hc.2) ?_
        refine callsWith_plus (h₁₂.calls hsum) (callsWith_times ?_ (h₂.calls hd))
        exact covered_centralDifference hmade₂ (h₁₂.calls hargs)
    · exact ends_numericalTangent hp ht callee args sum (k + 1) ps es st hg hmade hargs hc.2
        hsum

end

/-- Statements with tangents may stand, and the tangents after them are of the same function. -/
def Tangents (B : Permit A) (out : List Stmt × TangentScope) (st : Progress) : Prop :=
  B.Covered st (partsOf out.1) ∧ out.2.function = B.caller

theorem ends_tangentLocal (hp : B.Plans plan) (ht : t.function = B.caller) (d : Local)
    (hg : A.Good st) (hc : B.Covered st d.parts) :
    A.Ends st (Tangents B) (tangentLocal s plan t d) := by
  unfold tangentLocal
  split
  · cases hd : d.init with
    | none =>
      refine .pure hg ⟨?_, ht⟩
      simp [partsOf, Stmt.let_, Stmt.parts, Local.parts, Expr.zero, Expr.parts]
    | some e =>
      have he : B.Covered st e.parts := by simpa [Local.parts, hd] using hc
      refine .bind (ends_tangent hp ht e st hg he) fun init st₁ hg₁ _ hi => .pure hg₁ ⟨?_, ht⟩
      simpa [partsOf, Stmt.let_, Stmt.parts, Local.parts] using hi
  · exact .pure hg ⟨by simp [partsOf, Stmt.let_, Stmt.parts, Local.parts], ht⟩
  · split
    · dsimp only
      split
      · exact .unsupported hg
      · exact .pure hg ⟨by simp [partsOf, Stmt.let_, Stmt.parts, Local.parts, Expr.parts], ht⟩
    · exact .pure hg ⟨callsWith_nil, ht⟩
  · exact .pure hg ⟨callsWith_nil, ht⟩

theorem ends_tangentAssignment (hp : B.Plans plan) (ht : t.function = B.caller) (a : Assignment)
    (hg : A.Good st) (hc : B.Covered st a.parts) :
    A.Ends st (fun out st' => B.Covered st' (partsOf out)) (tangentAssignment s plan t a) := by
  obtain ⟨place, op, value⟩ := a
  simp only [Assignment.parts, callsWith_append] at hc
  unfold tangentAssignment
  dsimp only
  split
  · exact .pure hg callsWith_nil
  · rename_i d _
    have hplace : ∀ st', A.Later st st' → B.Covered st' (place.renamed d).parts ∧
        B.Covered st' (place.renamed d).toExpr.parts ∧
        B.Covered st' place.toExpr.parts := by
      intro st' h'
      have := h'.calls hc.1
      cases place with
      | var x => simp [Place.renamed, Place.toExpr, Place.parts, Expr.parts]
      | index x i => simpa [Place.renamed, Place.toExpr, Place.parts, Expr.parts] using this
    refine .bind (ends_tangent hp ht value st hg hc.2) fun v st₁ hg₁ h₁ hv => ?_
    have hp₁ := hplace st₁ h₁
    have hset : ∀ op', B.Covered st₁ (partsOf [.update (place.renamed d) op' v]) := by
      intro op'
      simpa [partsOf, Stmt.update, Stmt.parts, Assignment.parts] using ⟨hp₁.1, hv⟩
    split
    · exact .pure hg₁ (hset _)
    · refine .pure hg₁ ?_
      split
      · exact callsWith_nil
      · exact hset _
    · refine .pure hg₁ ?_
      split
      · exact callsWith_nil
      · exact hset _
    all_goals
      refine .bind (ends_primal hg₁ t value) fun copy st₂ hg₂ h₂ hcopy => ?_
      subst hcopy
      have hp₂ := hplace st₂ (h₁.trans h₂)
      refine .pure hg₂ ?_
      simpa [partsOf, Stmt.update, Stmt.parts, Assignment.parts] using ⟨hp₂.1,
        covered_tangentOf? hp₂.2.2 hp₂.2.1 ((h₁.trans h₂).calls hc.2) (h₂.calls hv)⟩

theorem ends_tangentInit (hp : B.Plans plan) (ht : t.function = B.caller) (init : Option LoopInit)
    (hg : A.Good st) (hc : B.Covered st ((init.map LoopInit.parts).getD [])) :
    A.Ends st (Tangents B) (tangentInit s plan t init) := by
  unfold tangentInit
  split
  · exact .pure hg ⟨callsWith_nil, ht⟩
  · exact ends_tangentLocal hp ht _ hg hc
  · exact .bind (ends_tangentAssignment hp ht _ hg hc) fun out st₁ hg₁ _ h => .pure hg₁ ⟨h, ht⟩

theorem ends_tangentStep (hp : B.Plans plan) (ht : t.function = B.caller) (step : Option Assignment)
    (hg : A.Good st) (hc : B.Covered st ((step.map Assignment.parts).getD [])) :
    A.Ends st (fun out st' => B.Covered st' (partsOf out)) (tangentStep s plan t step) := by
  unfold tangentStep
  split
  · exact .pure hg callsWith_nil
  · exact ends_tangentAssignment hp ht _ hg hc

theorem covered_loopWith {S : String → Option String → Prop} {init : Option LoopInit}
    {test : Option Expr} {step : Option Assignment} {dInit dStep body : List Stmt}
    (hinit : CallsWith S ((init.map LoopInit.parts).getD []))
    (htest : CallsWith S ((test.map Expr.parts).getD []))
    (hstep : CallsWith S ((step.map Assignment.parts).getD []))
    (hdInit : CallsWith S (partsOf dInit)) (hdStep : CallsWith S (partsOf dStep))
    (hbody : CallsWith S (partsOf body)) :
    CallsWith S (loopWith init test step dInit dStep body).parts := by
  unfold loopWith
  split
  · simp [Stmt.parts, hinit, htest, hstep, hbody]
  · have hi : CallsWith S (partsOf (init.map LoopInit.toStmt).toList) := by
      cases init with
      | none => exact callsWith_nil
      | some i =>
        cases i <;> simpa [partsOf, LoopInit.toStmt, Stmt.parts, LoopInit.parts] using hinit
    have hs : CallsWith S (partsOf (step.map Stmt.assign).toList) := by
      cases step with
      | none => exact callsWith_nil
      | some a => simpa [partsOf, Stmt.parts] using hstep
    simp [Stmt.parts, partsOf, htest, hdInit, hdStep, hbody, hi, hs]

theorem ends_tangentCall (hp : B.Plans plan) (ht : t.function = B.caller) (f : String)
    (args : List Expr) (hg : A.Good st) (hc : B.Covered st (Expr.call f args).parts) :
    A.Ends st (fun out st' => B.Covered st' (partsOf out)) (tangentCall s plan t f args) := by
  have hsame : ∀ st', A.Later st st' →
      B.Covered st' (partsOf [.expr (.call f args)]) := by
    intro st' h'
    simpa [partsOf, Stmt.parts] using h'.calls hc
  have htape : A.Ends st
      (fun out st' => B.Covered st' (partsOf out))
      (do
        let d ← tangent s plan t (.call f args)
        return (if d.isZero then [] else [.expr d]) ++ [.expr (.call f args)]) := by
    refine .bind (ends_tangent hp ht _ st hg hc) fun d st₁ hg₁ h₁ hd => .pure hg₁ ?_
    refine partsOf_append _ _ ▸ callsWith_append.mpr ⟨?_, hsame st₁ h₁⟩
    split
    · exact callsWith_nil
    · simpa [partsOf, Stmt.parts] using hd
  have hargs : B.Covered st (Expr.partsList args) := by
    simp only [Expr.parts, callsWith_cons] at hc
    exact hc.2
  unfold tangentCall
  split
  · exact htape
  · exact htape
  · exact .pure hg (hsame st (.refl st))
  · refine .bind (ends_calleeOf hg t.function t.env f args) fun callee st₁ hg₁ h₁ hcal => ?_
    refine ends_currentHost_bind ?_
    split
    · refine .bind (hp.at ht .pushforward hg₁ hcal) fun made st₂ hg₂ h₂ hmade => ?_
      have h₁₂ := h₁.trans h₂
      have hcall : ∀ d, (∀ g, B.May st₂ d g) → A.Ends st₂
          (fun out st' => B.Covered st' (partsOf out)) (do
            let copies ← args.mapM (primal s t)
            let tangents ← tangentArgs s plan t callee.params args
            return [.expr (.call d (copies ++ tangents))]) := by
        intro d hd
        refine .bind (ends_primals hg₂ t args) fun copies st₃ hg₃ h₃ hcopies => ?_
        subst hcopies
        have h₁₃ := h₁₂.trans h₃
        refine .bind (ends_tangentArgs hp ht callee.params copies st₃ hg₃ (h₁₃.calls hargs))
          fun ds st₄ hg₄ h₄ hds => .pure hg₄ ?_
        simpa [partsOf, Stmt.parts, Expr.parts] using
          ⟨B.later (h₃.trans h₄) (hd _), (h₁₃.trans h₄).calls hargs, hds⟩
      split
      · rename_i d
        exact hcall d hmade
      · rename_i d
        exact hcall d hmade
      · exact .pure hg₂ (hsame st₂ h₁₂)
      · exact .pure hg₂ (hsame st₂ h₁₂)
    · exact .pure hg₁ (hsame st₁ h₁)

theorem ends_tangentReturn (hp : B.Plans plan) (ht : t.function = B.caller) (returns : Bool)
    (value : Option Expr) (hg : A.Good st) (hc : B.Covered st ((value.map Expr.parts).getD [])) :
    A.Ends st (fun out st' => B.Covered st' ((out.map Expr.parts).getD []))
      (tangentReturn s plan t returns value) := by
  unfold tangentReturn
  split
  · split
    · exact .bind (ends_tangent hp ht _ st hg hc) fun d st₁ hg₁ _ hd => .pure hg₁ hd
    · exact .pure hg (by simp [Expr.zero, Expr.parts])
  · exact .pure hg callsWith_nil

mutual

theorem ends_tangentStmt (hp : B.Plans plan) (returns : Bool) :
    ∀ (stmt : Stmt) (t : TangentScope), t.function = B.caller → ∀ st : Progress, A.Good st →
      B.Covered st stmt.parts → A.Ends st (Tangents B) (tangentStmt s plan returns t stmt)
  | .decl d, t, ht, st, hg, hc => by
    simp only [tangentStmt]
    refine .bind (ends_tangentLocal hp ht d hg hc) fun out st₁ hg₁ h₁ hout => .pure hg₁ ⟨?_, hout.2⟩
    simpa [partsOf] using ⟨hout.1, h₁.calls hc⟩
  | .arrayDecl x elem len, t, ht, st, hg, hc => by
    simp only [tangentStmt]
    simp only [Stmt.parts] at hc
    split <;> exact .pure hg ⟨by simpa [partsOf, Stmt.parts] using hc, ht⟩
  | .assign a, t, ht, st, hg, hc => by
    simp only [tangentStmt]
    refine .bind (ends_tangentAssignment hp ht a hg hc) fun out st₁ hg₁ h₁ hout =>
      .pure hg₁ ⟨?_, ht⟩
    simpa [partsOf] using ⟨hout, h₁.calls hc⟩
  | .cond test yes no, t, ht, st, hg, hc => by
    simp only [tangentStmt]
    simp only [Stmt.parts, callsWith_append] at hc
    refine .bind (ends_tangentBody hp returns yes t ht st hg hc.2.1) fun yes' st₁ hg₁ h₁ hyes => ?_
    refine .bind (ends_tangentBody hp returns no _ hyes.2 st₁ hg₁ (h₁.calls hc.2.2))
      fun no' st₂ hg₂ h₂ hno => .pure hg₂ ⟨?_, hno.2⟩
    simpa [partsOf, Stmt.parts] using ⟨(h₁.trans h₂).calls hc.1, h₂.calls hyes.1, hno.1⟩
  | .for_ init test step body, t, ht, st, hg, hc => by
    simp only [tangentStmt]
    simp only [Stmt.parts, callsWith_append] at hc
    obtain ⟨⟨⟨hinit, htest⟩, hstep⟩, hbody⟩ := hc
    refine .bind (ends_tangentInit hp ht init hg hinit) fun dInit st₁ hg₁ h₁ hdInit => ?_
    refine .bind (ends_tangentStep hp hdInit.2 step hg₁ (h₁.calls hstep))
      fun dStep st₂ hg₂ h₂ hdStep => ?_
    have h₁₂ := h₁.trans h₂
    refine .bind (ends_tangentBody hp returns body _ hdInit.2 st₂ hg₂ (h₁₂.calls hbody))
      fun body' st₃ hg₃ h₃ hbody' => .pure hg₃ ⟨?_, hbody'.2⟩
    have h₁₃ := h₁₂.trans h₃
    simpa [partsOf] using covered_loopWith (h₁₃.calls hinit) (h₁₃.calls htest) (h₁₃.calls hstep)
      ((h₂.trans h₃).calls hdInit.1) (h₃.calls hdStep) hbody'.1
  | .while_ test body, t, ht, st, hg, hc => by
    simp only [tangentStmt]
    simp only [Stmt.parts, callsWith_append] at hc
    refine .bind (ends_tangentBody hp returns body t ht st hg hc.2)
      fun body' st₁ hg₁ h₁ hbody => .pure hg₁ ⟨?_, hbody.2⟩
    simpa [partsOf, Stmt.parts] using ⟨h₁.calls hc.1, hbody.1⟩
  | .ret value, t, ht, st, hg, hc => by
    simp only [tangentStmt]
    refine .bind (ends_tangentReturn hp ht returns value hg hc)
      fun out st₁ hg₁ _ hout => .pure hg₁ ⟨?_, ht⟩
    simpa [partsOf, Stmt.parts] using hout
  | .expr e, t, ht, st, hg, hc => by
    cases e with
    | call f args =>
      simp only [tangentStmt]
      exact .bind (ends_tangentCall hp ht f args hg hc) fun out st₁ hg₁ _ hout =>
        .pure hg₁ ⟨hout, ht⟩
    | _ =>
      simp only [tangentStmt]
      exact .pure hg ⟨by simpa [partsOf, Stmt.parts] using hc, ht⟩
  | .block body, t, ht, st, hg, hc => by
    simp only [tangentStmt]
    refine .bind (ends_tangentBody hp returns body t ht st hg hc)
      fun body' st₁ hg₁ _ hbody => .pure hg₁ ⟨?_, hbody.2⟩
    simpa [partsOf, Stmt.parts] using hbody.1

theorem ends_tangentBody (hp : B.Plans plan) (returns : Bool) :
    ∀ (body : List Stmt) (t : TangentScope), t.function = B.caller → ∀ st : Progress, A.Good st →
      B.Covered st (partsOf body) → A.Ends st (Tangents B) (tangentBody s plan returns t body)
  | [], t, ht, st, hg, _ => by
    simp only [tangentBody]
    exact .pure hg ⟨callsWith_nil, ht⟩
  | stmt :: rest, t, ht, st, hg, hc => by
    simp only [tangentBody]
    simp only [partsOf, callsWith_append] at hc
    refine .bind (ends_tangentStmt hp returns stmt t ht st hg hc.1)
      fun first st₁ hg₁ h₁ hfirst => ?_
    refine .bind (ends_tangentBody hp returns rest _ hfirst.2 st₁ hg₁ (h₁.calls hc.2))
      fun out st₂ hg₂ h₂ hout => .pure hg₂ ⟨?_, hout.2⟩
    simpa using ⟨h₂.calls hfirst.1, hout.1⟩

end

/-! ### Functions of forward mode -/

/-- A derived function has the name it was promised, and holds calls that it may hold. -/
def Derives (B : Permit A) (name : String) (f : Func) (st : Progress) : Prop :=
  f.name = name ∧ B.Covered st (partsOf f.stmts)

theorem function_tangentParams (t : TangentScope) (ps : List Param) :
    (tangentParams t ps).2.function = t.function := by
  induction ps generalizing t with
  | nil => rfl
  | cons p ps ih =>
    unfold tangentParams
    split
    · exact ih t
    · exact ih _

theorem ends_pushforward (hp : B.Plans plan) {callee : Func} (hcaller : callee.name = B.caller)
    (name : String) (hg : A.Good st) (hc : B.Covered st (partsOf callee.stmts)) :
    A.Ends st (Derives B name) (pushforward s plan callee name) := by
  have hunique := callsWith_uniqueLocals hc
  unfold pushforward
  dsimp only
  split
  · exact .unsupported hg
  · rename_i body hbody
    simp only [Func.stmts, hbody, Option.getD_some] at hunique
    have ht := (function_tangentParams (.ofFunc (Canonical.uniqueLocals callee))
      (Canonical.uniqueLocals callee).params).trans hcaller
    refine .bind (ends_tangentBody hp _ body _ ht st hg hunique) fun out st₁ hg₁ _ hout => ?_
    exact .pure hg₁ ⟨rfl, hout.1⟩

theorem covered_seedParams {S : String → Option String → Prop} (hlen : S "len" none)
    (along : Direction) (ps : List Param) (t : TangentScope) (i : Nat) :
    CallsWith S (partsOf (seedParams t along i ps).1) ∧
      CallsWith S (Expr.partsList (seedParams t along i ps).2.1) ∧
      (seedParams t along i ps).2.2.function = t.function := by
  induction ps generalizing t i with
  | nil => exact ⟨callsWith_nil, callsWith_nil, rfl⟩
  | cons p ps ih =>
    unfold seedParams
    split
    · exact ih t (i + 1)
    · rename_i ty _
      obtain ⟨hseeds, htangents, hfunction⟩ := ih (t.declare p.name).2 (i + 1)
      dsimp only
      refine ⟨partsOf_append _ _ ▸ callsWith_append.mpr ⟨?_, hseeds⟩, ?_, hfunction⟩
      · split
        · split <;>
            simpa [partsOf, Stmt.update, Stmt.parts, Assignment.parts, Place.parts, lenOf,
              Expr.partsList, Expr.parts, Expr.one, Expr.ofNat] using hlen
        · split <;>
            simp [partsOf, Stmt.let_, Stmt.parts, Local.parts, Expr.parts, Expr.one, Expr.zero]
      · simpa [Expr.partsList, Expr.parts] using htangents

theorem partsList_vars {S : String → Option String → Prop} (ps : List Param) :
    CallsWith S (Expr.partsList (ps.map fun p => Expr.var p.name)) := by
  induction ps with
  | nil => exact callsWith_nil
  | cons p ps ih => simpa [Expr.partsList, Expr.parts] using ih

theorem ends_seeded (hp : B.Plans plan) {f : Func} (hcaller : f.name = B.caller) (along : Direction)
    (name : String) (hg : A.Good st) (hc : B.Covered st (partsOf f.stmts)) :
    A.Ends st (Derives B name) (seeded s plan f along name) := by
  have hunique := callsWith_uniqueLocals hc
  have hseeds := fun st' => covered_seedParams (B.len st')
    along (Canonical.uniqueLocals f).params (.ofFunc (Canonical.uniqueLocals f)) 0
  unfold seeded
  dsimp only
  split
  · rename_i custom hcustom
    refine .pure hg ⟨rfl, ?_⟩
    simpa [Func.stmts, partsOf, Stmt.parts, Expr.parts] using
      ⟨(hseeds st).1, B.custom hcustom st _, partsList_vars _, (hseeds st).2.1⟩
  · rename_i body _ hbody
    simp only [Func.stmts, hbody, Option.getD_some] at hunique
    have ht := (hseeds st).2.2.trans hcaller
    refine .bind (ends_tangentBody hp _ body _ ht st hg hunique) fun out st₁ hg₁ _ hout => ?_
    refine .pure hg₁ ⟨rfl, ?_⟩
    simpa [Func.stmts] using ⟨(hseeds st₁).1, hout.1⟩
  · exact .unsupported hg

/-- What holds of the derivative of each order holds of the one that was asked for. -/
theorem ends_seededFrom {P : Nat → Func → Progress → Prop} {along : Direction} {target : String}
    (hnext : ∀ k {st}, A.Good st → ∀ {f}, P k f st →
      A.Ends st (fun g st' => P (k + 1) g st') (do
        let name ← functionName (target ++ "_d" ++ (if k = 1 then "" else toString k) ++ along.text)
        seeded s plan f along name)) (rest : Nat) {f : Func} (k : Nat) (hg : A.Good st)
    (hf : P k f st) :
    A.Ends st (fun g st' => P (k + rest) g st') (seededFrom s plan target along f k rest) := by
  induction rest generalizing f k st with
  | zero => exact .pure hg hf
  | succ rest ih =>
    have hend := Ends.bind (hnext k hg hf) fun g st₁ hg₁ _ hgp => ih (k + 1) hg₁ hgp
    rw [bind_assoc, Nat.add_right_comm] at hend
    exact hend

theorem ends_directional {P : Nat → Func → Progress → Prop} {r : Request}
    (hnext : ∀ along k {st}, A.Good st → ∀ {f}, P k f st →
      A.Ends st (fun g st' => P (k + 1) g st') (do
        let name ← functionName
          (r.target.name ++ "_d" ++ (if k = 1 then "" else toString k) ++ along.text)
        seeded s plan f along name)) (hg : A.Good st) (hr : P 1 r.target st) :
    A.Ends st (fun g st' => P (1 + r.order) g st') (directional s plan r) := by
  unfold directional
  dsimp only
  split
  · exact .unsupported hg
  · split
    · exact .unsupported hg
    · exact ends_seededFrom (hnext _) _ _ hg hr

end

end Account

end Fluxion.Derive
