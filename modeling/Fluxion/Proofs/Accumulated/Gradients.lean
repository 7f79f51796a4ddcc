import Fluxion.Proofs.Accumulated.Sweeps
import Fluxion.Proofs.Apart.Functions
import Fluxion.Proofs.Canonical.Arranged
import Fluxion.Proofs.Emitted.Calls
import Fluxion.Proofs.Request.Validated

/-!
The gradient of a straight line, with its error estimate. All of it but the last error terms only
adds to the adjoint outputs; the last terms read the adjoints of scalars that the function does not
assign where the caller keeps them.
-/

namespace Fluxion

/-! ### Straight lines -/

mutual

/-- The statement has no branch and no loop. -/
def Stmt.isStraight : Stmt → Bool
  | .cond .. | .for_ .. | .while_ .. => false
  | .block body => areStraight body
  | _ => true

/-- The statements have no branch and no loop. -/
def areStraight : List Stmt → Bool
  | [] => true
  | s :: rest => s.isStraight && areStraight rest

end

section

variable {N : String → String → Prop} {r : Renaming} {V U : String → Prop} {O : String → Bool}
  {W F : String → Prop} {params modified : List String}

theorem swept_rename (hO : ∀ x, V x → O (r.apply x) = false) {e : Expr}
    (hV : (Rule.uses V).Expr e) (hF : ∀ f args, Expr.call f args ∈ e.parts → F f) :
    (Rule.swept O W F).Expr (e.rename r) := by
  intro part hpart
  rw [parts_rename] at hpart
  obtain ⟨q, hq, rfl⟩ := List.mem_map.mp hpart
  have hread := hV q hq
  cases q with
  | var x => exact hO x hread
  | index x i => exact hO x hread
  | call f args => exact hF f args hq
  | _ => trivial

theorem swept_assignment_rename (hO : ∀ x, V x → O (r.apply x) = false) {a : Assignment}
    (hV : (Rule.uses V).Assignment a) (hF : ∀ f args, Expr.call f args ∈ a.parts → F f)
    (hW : W (r.apply a.place.name)) : (Rule.swept O W F).Assignment (a.rename r) := by
  obtain ⟨place, op, value⟩ := a
  obtain ⟨hname, hplace, hvalue⟩ := hV
  have hright := swept_rename (W := W) hO hvalue fun f args h => hF f args (List.mem_append_right _ h)
  cases place with
  | var x =>
    exact ⟨⟨hO x hname, hW⟩, by simp [Rule.Place, Place.rename, Assignment.rename, Place.parts],
      hright⟩
  | index x i =>
    have hindex := swept_rename (W := W) hO hplace fun f args h => hF f args (List.mem_append_left _ h)
    exact ⟨⟨hO x hname, hW⟩, hindex, hright⟩

/-- What the source of a straight line tells: which functions it calls, and that it assigns to no
parameter but those of `modified`. -/
structure Plain (F : String → Prop) (params modified : List String) (body : List Stmt) : Prop where
  straight : areStraight body = true
  written : ∀ a ∈ assignmentsIn body, a.place.name ∈ params → a.place.name ∈ modified
  calls : ∀ f args, Expr.call f args ∈ partsOf body → F f

theorem Plain.head {stmt : Stmt} {rest : List Stmt} (h : Plain F params modified (stmt :: rest)) :
    Plain F params modified [stmt] ∧ Plain F params modified rest := by
  obtain ⟨hs, hw, hc⟩ := h
  rw [areStraight, Bool.and_eq_true] at hs
  simp only [assignmentsIn, partsOf, List.mem_append] at hw hc
  refine ⟨⟨by simp [areStraight, hs.1], fun a ha => ?_, fun f args hf => ?_⟩,
    ⟨hs.2, fun a ha => hw a (.inr ha), fun f args hf => hc f args (.inr hf)⟩⟩
  · exact hw a (.inl (by simpa [assignmentsIn] using ha))
  · exact hc f args (.inl (by simpa [partsOf] using hf))

/-- Renamed variables are none of `O`, and only parameters that have kept their names have those of
parameters. -/
structure Renamed (O : String → Bool) (params : List String) (r : Renaming) (V : String → Prop) :
    Prop where
  unread : ∀ x, V x → O (r.apply x) = false
  kept : ∀ x, r.apply x ∈ params → r.apply x = x

theorem Renamed.declare (h : Renamed O params r V) {x x' : String} (hO : O x' = false)
    (hnew : x' ∉ params) : Renamed O params ((x, x') :: r) (withName V x) := by
  have happly : ∀ y, Renaming.apply ((x, x') :: r) y = if y = x then x' else r.apply y := by
    intro y
    by_cases hy : y = x
    · simp [Renaming.apply, hy]
    · rw [if_neg hy, Renaming.apply, lookup_cons_of_ne hy, Renaming.apply]
  refine ⟨fun y hy => ?_, fun y hy => ?_⟩ <;> rw [happly] at *
  · split
    · exact hO
    · exact h.unread y (hy.resolve_left ‹_›)
  · split at hy
    · exact absurd hy hnew
    · rw [if_neg ‹_›]
      exact h.kept y hy

/-- Every statement of the code is a step that can be swept, or belongs to what follows the code. -/
def SweptUpTo (O : String → Bool) (W F : String → Prop) (after : Option (List Stmt))
    (code : List Stmt) : Prop :=
  ∀ t ∈ code, (∃ m, after = some m ∧ t ∈ m ∧ m ⊆ code) ∨
    (t.isStep = true ∧ (Rule.swept O W F).Stmt t)

theorem SweptUpTo.cons {after : Option (List Stmt)} {stmt : Stmt} {code : List Stmt}
    (hstep : stmt.isStep = true) (hstmt : (Rule.swept O W F).Stmt stmt)
    (h : SweptUpTo O W F after code) : SweptUpTo O W F after (stmt :: code) := by
  intro t ht
  rcases List.mem_cons.mp ht with rfl | ht
  · exact .inr ⟨hstep, hstmt⟩
  · refine (h t ht).imp_left ?_
    rintro ⟨m, hm, htm, hsub⟩
    exact ⟨m, hm, htm, fun _ h => List.mem_cons_of_mem _ (hsub h)⟩

theorem SweptUpTo.trans {mid after : Option (List Stmt)} {code : List Stmt}
    (h : SweptUpTo O W F mid code) (hmid : ∀ m, mid = some m → m ⊆ code → SweptUpTo O W F after m) :
    SweptUpTo O W F after code := by
  intro t ht
  rcases h t ht with ⟨m, hm, htm, hsub⟩ | hdone
  · refine (hmid m hm hsub t htm).imp_left ?_
    rintro ⟨m', hm', htm', hsub'⟩
    exact ⟨m', hm', htm', fun _ h => hsub (hsub' h)⟩
  · exact .inr hdone

/-- Code that is arranged from a straight line can be swept up to what follows it. -/
theorem swept_of_arranged {after : Option (List Stmt)} {body code : List Stmt}
    (h : Arranged N r V U after body code) (hplain : Plain F params modified body)
    (hU : ∀ y ∈ params, U y) (hr : Renamed O params r V)
    (hcode : ∀ t ∈ code, (∀ b, t ≠ .block b) ∧ ∀ x ∈ t.declared.map (·.1), O x = false) :
    SweptUpTo O (fun y => y ∈ params → y ∈ modified) F after code := by
  induction h with
  | nil => exact fun t ht => .inl ⟨_, rfl, ht, List.Subset.refl _⟩
  | @decl r V U after rest code d x' init new next ih =>
    obtain ⟨hhead, hrest⟩ := hplain.head
    obtain ⟨hfirst, hlater⟩ := List.forall_mem_cons.mp hcode
    have hx' : O x' = false := hfirst.2 x' (by simp [Stmt.declared])
    have hnew : x' ∉ params := fun hmem => new.spared (hU x' hmem)
    refine .cons rfl ⟨⟨hx', fun hmem => absurd hmem hnew⟩, fun e he => ?_⟩
      (ih hrest hU (hr.declare hx' hnew) hlater)
    obtain ⟨e, he', rfl⟩ := Option.map_eq_some_iff.mp he
    exact swept_rename hr.unread (init e he') fun f args hf =>
      hhead.calls f args (by simpa [partsOf, Stmt.parts, Local.parts, he'] using hf)
  | @arrayDecl r V U after rest code x x' elem len uses new next ih =>
    obtain ⟨hhead, hrest⟩ := hplain.head
    obtain ⟨hfirst, hlater⟩ := List.forall_mem_cons.mp hcode
    have hx' : O x' = false := hfirst.2 x' (by simp [Stmt.declared])
    have hnew : x' ∉ params := fun hmem => new.spared (hU x' hmem)
    refine .cons rfl ⟨⟨hx', fun hmem => absurd hmem hnew⟩, ?_⟩
      (ih hrest hU (hr.declare hx' hnew) hlater)
    exact swept_rename hr.unread uses fun f args hf =>
      hhead.calls f args (by simpa [partsOf, Stmt.parts] using hf)
  | @assign r V U after rest code a uses next ih =>
    obtain ⟨hhead, hrest⟩ := hplain.head
    refine .cons rfl ?_ (ih hrest hU hr (List.forall_mem_cons.mp hcode).2)
    refine swept_assignment_rename hr.unread uses
      (fun f args hf => hhead.calls f args (by simpa [partsOf, Stmt.parts] using hf)) fun hmem => ?_
    -- a variable with the name of a parameter is that parameter
    have hkept := hr.kept _ hmem
    rw [hkept] at hmem ⊢
    exact hhead.written a (by simp [assignmentsIn, Stmt.assignments]) hmem
  | @expr r V U after rest code e uses next ih =>
    obtain ⟨hhead, hrest⟩ := hplain.head
    refine .cons rfl ?_ (ih hrest hU hr (List.forall_mem_cons.mp hcode).2)
    exact swept_rename hr.unread uses fun f args hf =>
      hhead.calls f args (by simpa [partsOf, Stmt.parts] using hf)
  | @ret r V U after rest code value uses next ih =>
    obtain ⟨hhead, hrest⟩ := hplain.head
    refine .cons rfl ⟨trivial, fun e he => ?_⟩ ?_
    · obtain ⟨e, he', rfl⟩ := Option.map_eq_some_iff.mp he
      exact swept_rename hr.unread (uses e he') fun f args hf =>
        hhead.calls f args (by simpa [partsOf, Stmt.parts, he'] using hf)
    · cases code with
      | nil => exact nofun
      | cons t code => exact ih (List.cons_ne_nil _ _) hrest hU hr (List.forall_mem_cons.mp hcode).2
  | @opened r V U after rest mid body code hbody next ihbody ih =>
    obtain ⟨hhead, hrest⟩ := hplain.head
    have hinner : Plain F params modified body :=
      ⟨by simpa [areStraight, Stmt.isStraight] using hhead.straight,
        fun a ha => hhead.written a (by simpa [assignmentsIn, Stmt.assignments] using ha),
        fun f args hf => hhead.calls f args (by simpa [partsOf, Stmt.parts] using hf)⟩
    exact (ihbody hinner (fun y hy => .inl (hU y hy)) hr hcode).trans fun m hm hsub =>
      ih m hm hrest hU hr fun t ht => hcode t (hsub ht)
  | block => exact absurd rfl ((List.forall_mem_cons.mp hcode).1.1 _)
  | cond | moved | for_ | while_ => cases hplain.straight

mutual

/-- Without blocks there are none. -/
theorem Canonical.ne_block_of_flattenStmt : ∀ {s t : Stmt}, t ∈ flattenStmt s → ∀ b, t ≠ .block b
  | .block _, t, ht => by
    rw [flattenStmt] at ht
    exact ne_block_of_flattenBlocks ht
  | .cond .., t, ht | .for_ .., t, ht | .while_ .., t, ht | .decl _, t, ht | .arrayDecl .., t, ht
  | .assign _, t, ht | .ret _, t, ht | .expr _, t, ht => by
    rw [flattenStmt, List.mem_singleton] at ht
    subst ht
    intro b hb
    cases hb

theorem Canonical.ne_block_of_flattenBlocks : ∀ {body : List Stmt} {t : Stmt},
    t ∈ flattenBlocks body → ∀ b, t ≠ .block b
  | [], t, ht => by
    rw [flattenBlocks] at ht
    cases ht
  | s :: rest, t, ht => by
    rw [flattenBlocks, List.mem_append] at ht
    exact ht.elim ne_block_of_flattenStmt ne_block_of_flattenBlocks

end

theorem mem_declaredIn {body : List Stmt} {t : Stmt} (ht : t ∈ body) {x : String}
    (hx : x ∈ t.declared.map (·.1)) : x ∈ (declaredIn body).map (·.1) := by
  induction body with
  | nil => cases ht
  | cons s rest ih =>
    rw [declaredIn, List.map_append, List.mem_append]
    rcases List.mem_cons.mp ht with rfl | ht
    · exact .inl hx
    · exact .inr (ih ht)

/-- The canonical form of a checked straight line can be swept. -/
theorem swept_of_canonicalize {resolve : Resolver} {f source : Func}
    (hchecked : Typing.checkFunc resolve f = .ok ()) (hsource : Canonical.canonicalize f = .ok source)
    (hplain : Plain F (f.params.map (·.name)) modified f.stmts)
    (hO : ∀ x ∈ (NameSupply.ofFunc source).used, O x = false) :
    ∀ t ∈ source.stmts, t.isStep = true ∧
      (Rule.swept O (fun y => y ∈ f.params.map (·.name) → y ∈ modified) F).Stmt t := by
  unfold Canonical.canonicalize at hsource
  cases hbody : f.body with
  | none =>
    rw [hbody] at hsource
    cases hsource
    simp [Func.stmts, hbody]
  | some body =>
    rw [hbody] at hsource
    obtain ⟨code, hcode, rfl⟩ := except_map_eq_ok.mp hsource
    obtain ⟨lifted, hlift, rfl⟩ := except_map_eq_ok.mp hcode
    have hreserved : ∀ x ∈ f.params.map (·.name),
        x ∈ (NameSupply.empty.reserveAll (f.params.map (·.name))).used := fun x hx =>
      (NameSupply.mem_reserveAll _ _ _).mpr (.inl hx)
    have harranged := Canonical.arranges body ((Typing.of_checkFunc hchecked).2 body hbody)
      (U := (· ∈ f.params.map (·.name)))
      ⟨fun x hx => hreserved x (Canonical.mem_of_known_scope hx), hreserved⟩ hlift
    have hused : ∀ x, x ∈ f.params.map (·.name) ∨
        x ∈ (declaredIn (Canonical.flattenBlocks lifted)).map (·.1) → O x = false := fun x hx =>
      hO x ((NameSupply.mem_ofFunc _ _).mpr hx)
    intro t ht
    refine (swept_of_arranged harranged (by simpa [Func.stmts, hbody] using hplain) (fun _ => id)
      ⟨fun x hx => hused x (.inl (Canonical.mem_of_known_scope hx)), fun x _ => rfl⟩
      (fun t ht => ⟨Canonical.ne_block_of_flattenBlocks ht, fun x hx =>
        hused x (.inr (mem_declaredIn ht hx))⟩) t ht).resolve_left ?_
    rintro ⟨m, hm, htm, _⟩
    cases hm
    rw [Canonical.flattenBlocks] at htm
    cases htm

end

namespace Derive

open Sweeping

/-! ### Adjoint outputs -/

/-- Steps that only take names and give adjoints. -/
def Makes {α : Type} (m : Sweeping α) (σ : Storage) (Q : α → Storage → Prop) : Prop :=
  ∀ st a σ' st', m σ st = .ok (a, σ') st' → st = st' ∧ Q a σ'

/-- A name is taken. -/
structure Storage.Takes (σ : Storage) (x : String) (σ' : Storage) : Prop where
  new : x ∉ σ.names.used
  used : ∀ y, y ∈ σ'.names.used ↔ y = x ∨ y ∈ σ.names.used
  adjoints : σ'.adjoints = σ.adjoints
  hoisted : σ'.hoisted = σ.hoisted

namespace Makes

variable {α β : Type} {σ : Storage} {Q : α → Storage → Prop} {R : β → Storage → Prop}

theorem pure {a : α} (h : Q a σ) : Makes (pure a) σ Q := by
  intro st b σ' st' hrun
  cases hrun
  exact ⟨rfl, h⟩

theorem bind {m : Sweeping α} {f : α → Sweeping β} (hm : Makes m σ Q)
    (hf : ∀ a σ', Q a σ' → Makes (f a) σ' R) : Makes (m >>= f) σ R := by
  intro st b σ'' st'' hrun
  obtain ⟨a, σ', st', hms, hend⟩ := stateT_bind_eq_ok.mp hrun
  obtain ⟨rfl, hQ⟩ := hm st a σ' st' hms
  exact hf a σ' hQ _ b σ'' st'' hend

theorem fresh (base : String) : Makes (Sweeping.fresh base) σ fun x σ' => σ.Takes x σ' := by
  intro st x σ' st' hrun
  cases hrun
  exact ⟨rfl, σ.names.fresh_fresh base, by simp, rfl, rfl⟩

theorem numbered (stem : String) : Makes (Sweeping.numbered stem) σ fun x σ' => σ.Takes x σ' := by
  intro st x σ' st' hrun
  cases hrun
  exact ⟨rfl, σ.names.numbered_fresh stem, by simp, rfl, rfl⟩

theorem bindAdjoint (x d : String) : Makes (Sweeping.bind x d) σ fun _ σ' =>
    σ' = { σ with adjoints := (x, d) :: σ.adjoints } := by
  intro st _ σ' st' hrun
  cases hrun
  exact ⟨rfl, rfl⟩

end Makes

/-- The parameter that an independent variable is. -/
def independentParam (params : List Param) (v : Request.Independent) : Param :=
  params[v.param]?.getD default

/-- The parameters that adjoints of independent variables are given in, with what goes before and
after the sweeps. Only a variable that is not modified has its adjoint in such a parameter. -/
structure Offered (modified : List String) (params : List Param) (vs : List Request.Independent)
    (σ : Storage) (r : AdjointParams × List (String × String)) (σ' : Storage) : Prop where
  hoisted : σ'.hoisted = σ.hoisted
  used : ∀ x ∈ σ.names.used, x ∈ σ'.names.used
  count : r.1.params.length = vs.length
  new : ∀ q ∈ r.1.params, q.name ∉ σ.names.used ∧ q.name ∈ σ'.names.used ∧
    (q.ty = .ref .float ∨ q.ty = .arrayOf .float)
  distinct : (r.1.params.map (·.name)).Nodup
  bound : ∀ x d, σ'.adjoint? x = some d → σ.adjoint? x = some d ∨
    (d ∉ σ.names.used ∧ d ∈ σ'.names.used) ∧ (∃ v ∈ vs, (independentParam params v).name = x) ∧
      (d ∈ r.1.params.map (·.name) → x ∉ modified)
  adds : ∀ (lends : Lends) (O : String → Bool),
    (∀ y ∈ σ'.names.used, O y = true → y ∈ r.1.params.map (·.name) ∨ y ∈ σ.names.used) →
    (∀ v ∈ vs, O (independentParam params v).name = false) →
    addsAll lends O r.1.before = true ∧ addsAll lends O r.1.after = true
  scalars : ∀ x d, (x, d) ∈ r.2 → (∃ v ∈ vs, (independentParam params v).name = x) ∧
    d ∉ σ.names.used ∧ d ∈ σ'.names.used ∧
    ∀ (i : Nat) (q : Param), r.1.params[i]? = some q → q.name = d → ∃ v, vs[i]? = some v ∧
      (independentParam params v).ty.isArray = false ∧ (independentParam params v).name ∉ modified

section

variable {modified : List String} {params : List Param}

theorem Offered.nil (σ : Storage) : Offered modified params [] σ (.none, []) σ where
  hoisted := rfl
  used _ := id
  count := rfl
  new _ h := by cases h
  distinct := .nil
  bound _ _ h := .inl h
  adds _ _ _ _ := ⟨rfl, rfl⟩
  scalars _ _ h := by cases h

section

variable {vs : List Request.Independent} {σ σ' : Storage} {r : AdjointParams × List (String × String)}
  (h : Offered modified params vs σ r σ') {x : String}

include h

theorem Offered.used_of_mem (hx : x ∈ r.1.params.map (·.name)) : x ∈ σ'.names.used := by
  obtain ⟨q, hq, rfl⟩ := List.mem_map.mp hx
  exact (h.new q hq).2.1

theorem Offered.not_mem_of_used (hx : x ∈ σ.names.used) : x ∉ r.1.params.map (·.name) := by
  intro hmem
  obtain ⟨q, hq, rfl⟩ := List.mem_map.mp hmem
  exact (h.new q hq).1 hx

end

/-- One after the other. -/
theorem Offered.append {vs vs' : List Request.Independent} {σ σ₁ σ₂ : Storage}
    {r r' : AdjointParams × List (String × String)} (h : Offered modified params vs σ r σ₁)
    (h' : Offered modified params vs' σ₁ r' σ₂) :
    Offered modified params (vs ++ vs') σ (r.1.append r'.1, r.2 ++ r'.2) σ₂ where
  hoisted := h'.hoisted.trans h.hoisted
  used x hx := h'.used x (h.used x hx)
  count := by simp [AdjointParams.append, h.count, h'.count]
  new q hq := by
    rcases List.mem_append.mp hq with hq | hq
    · obtain ⟨hnew, hused, hty⟩ := h.new q hq
      exact ⟨hnew, h'.used _ hused, hty⟩
    · obtain ⟨hnew, hused, hty⟩ := h'.new q hq
      exact ⟨fun hmem => hnew (h.used _ hmem), hused, hty⟩
  distinct := by
    rw [AdjointParams.append, List.map_append]
    refine h.distinct.append h'.distinct fun x hx hx' => ?_
    obtain ⟨q, hq, rfl⟩ := List.mem_map.mp hx
    obtain ⟨q', hq', heq⟩ := List.mem_map.mp hx'
    exact (h'.new q' hq').1 (heq ▸ (h.new q hq).2.1)
  bound x d hd := by
    rw [AdjointParams.append, List.map_append]
    rcases h'.bound x d hd with hd | ⟨hnew, ⟨v, hv, hx⟩, hmod⟩
    · refine (h.bound x d hd).imp_right ?_
      rintro ⟨hnew, ⟨v, hv, hx⟩, hmod⟩
      refine ⟨⟨hnew.1, h'.used d hnew.2⟩, ⟨v, List.mem_append_left _ hv, hx⟩, fun hmem => hmod ?_⟩
      exact (List.mem_append.mp hmem).resolve_right fun hmem => h'.not_mem_of_used hnew.2 hmem
    · refine .inr ⟨⟨fun hmem => hnew.1 (h.used _ hmem), hnew.2⟩, ⟨v, List.mem_append_right _ hv, hx⟩,
        fun hmem => hmod ?_⟩
      exact (List.mem_append.mp hmem).resolve_left fun hmem => hnew.1 (h.used_of_mem hmem)
  adds lends O hO hparams := by
    simp only [AdjointParams.append, List.map_append, List.mem_append] at hO ⊢
    have hfirst : ∀ y ∈ σ₁.names.used, O y = true →
        y ∈ r.1.params.map (·.name) ∨ y ∈ σ.names.used := fun y hused hy =>
      (hO y (h'.used y hused) hy).imp_left fun hy =>
        hy.resolve_right (h'.not_mem_of_used hused)
    have hsecond : ∀ y ∈ σ₂.names.used, O y = true →
        y ∈ r'.1.params.map (·.name) ∨ y ∈ σ₁.names.used := fun y hused hy => by
      rcases hO y hused hy with (hy | hy) | hy
      · exact .inr (h.used_of_mem hy)
      · exact .inl hy
      · exact .inr (h.used y hy)
    obtain ⟨hb, ha⟩ := h.adds lends O hfirst fun v hv => hparams v (List.mem_append_left _ hv)
    obtain ⟨hb', ha'⟩ := h'.adds lends O hsecond fun v hv => hparams v (List.mem_append_right _ hv)
    rw [addsAll_append, addsAll_append, hb, ha, hb', ha']
    exact ⟨rfl, rfl⟩
  scalars x d hd := by
    rcases List.mem_append.mp hd with hd | hd
    · obtain ⟨⟨v, hv, hx⟩, hnew, hused, hout⟩ := h.scalars x d hd
      refine ⟨⟨v, List.mem_append_left _ hv, hx⟩, hnew, h'.used d hused, fun i q hq hname => ?_⟩
      rw [AdjointParams.append, List.getElem?_append] at hq
      rw [List.getElem?_append, ← h.count]
      split at hq
      · rw [if_pos ‹_›]
        exact hout i q hq hname
      · refine absurd (hname ▸ hused) (h'.new q (List.mem_of_getElem? hq)).1
    · obtain ⟨⟨v, hv, hx⟩, hnew, hused, hout⟩ := h'.scalars x d hd
      refine ⟨⟨v, List.mem_append_right _ hv, hx⟩, fun hmem => hnew (h.used d hmem), hused,
        fun i q hq hname => ?_⟩
      rw [AdjointParams.append, List.getElem?_append] at hq
      rw [List.getElem?_append, ← h.count]
      split at hq
      · refine absurd (h.new q (List.mem_of_getElem? hq)).2.1 (hname ▸ hnew)
      · rw [if_neg ‹_›]
        exact hout _ q hq hname

/-- An adjoint that is kept where the caller has it. -/
theorem Offered.direct {v : Request.Independent} {σ σ₁ : Storage} {out : String} (ty : Ty)
    (hty : ty = .ref .float ∨ ty = .arrayOf .float) (htakes : σ.Takes out σ₁)
    (hv : (independentParam params v).name ∉ modified)
    {scalars : List (String × String)} (hscalars : ∀ x d, (x, d) ∈ scalars →
      x = (independentParam params v).name ∧ d = out ∧ (independentParam params v).ty.isArray = false) :
    Offered modified params [v] σ (⟨[⟨out, ty⟩], [], []⟩, scalars)
      { σ₁ with adjoints := ((independentParam params v).name, out) :: σ₁.adjoints } where
  hoisted := htakes.hoisted
  used x hx := (htakes.used x).mpr (.inr hx)
  count := rfl
  new q hq := by
    obtain rfl := List.mem_singleton.mp hq
    exact ⟨htakes.new, (htakes.used out).mpr (.inl rfl), hty⟩
  distinct := List.nodup_singleton out
  bound x d hd := by
    by_cases hx : x = (independentParam params v).name
    · subst hx
      obtain rfl : out = d := by simpa [Storage.adjoint?] using hd
      exact .inr ⟨⟨htakes.new, (htakes.used out).mpr (.inl rfl)⟩, ⟨v, List.mem_singleton_self v, rfl⟩,
        fun _ => hv⟩
    · left
      rwa [Storage.adjoint?, lookup_cons_of_ne hx, htakes.adjoints] at hd
  adds _ _ _ _ := ⟨rfl, rfl⟩
  scalars x d hd := by
    obtain ⟨rfl, rfl, harray⟩ := hscalars x d hd
    refine ⟨⟨v, List.mem_singleton_self v, rfl⟩, htakes.new, (htakes.used d).mpr (.inl rfl), ?_⟩
    intro i q hq _
    obtain rfl : i = 0 := by
      by_contra hi
      obtain ⟨i, rfl⟩ := Nat.exists_eq_succ_of_ne_zero hi
      simp at hq
    exact ⟨v, rfl, harray, hv⟩

/-- An adjoint of the function's own that is added to what the caller has at the end. -/
theorem Offered.local_ {v : Request.Independent} {σ σ₁ σ₂ : Storage} {out x : String} (ty : Ty)
    (hty : ty = .ref .float ∨ ty = .arrayOf .float) (htakes : σ.Takes out σ₁)
    (hx : x ∉ σ₁.names.used) (hx₂ : x ∈ σ₂.names.used)
    (hused : ∀ y ∈ σ₁.names.used, y ∈ σ₂.names.used) (hadjoints : σ₂.adjoints = σ₁.adjoints)
    (hhoisted : σ₂.hoisted = σ₁.hoisted) {before after : List Stmt}
    (hadds : ∀ (lends : Lends) (O : String → Bool),
      (∀ y ∈ σ₂.names.used, y ∉ σ₁.names.used → O y = false) →
      O (independentParam params v).name = false →
      addsAll lends O before = true ∧ addsAll lends O after = true)
    {scalars : List (String × String)} (hscalars : ∀ y d, (y, d) ∈ scalars →
      y = (independentParam params v).name ∧ d = x) :
    Offered modified params [v] σ (⟨[⟨out, ty⟩], before, after⟩, scalars)
      { σ₂ with adjoints := ((independentParam params v).name, x) :: σ₂.adjoints } := by
  have hout : out ∈ σ₁.names.used := (htakes.used out).mpr (.inl rfl)
  have hold : ∀ y ∈ σ.names.used, y ∈ σ₁.names.used := fun y hy => (htakes.used y).mpr (.inr hy)
  have hne : x ≠ out := fun he => hx (he ▸ hout)
  refine ⟨hhoisted.trans htakes.hoisted, fun y hy => hused y (hold y hy), rfl, ?_,
    List.nodup_singleton out, ?_, ?_, ?_⟩
  · intro q hq
    obtain rfl := List.mem_singleton.mp hq
    exact ⟨htakes.new, hused out hout, hty⟩
  · intro y d hd
    by_cases hy : y = (independentParam params v).name
    · subst hy
      obtain rfl : x = d := by simpa [Storage.adjoint?] using hd
      exact .inr ⟨⟨fun hmem => hx (hold x hmem), hx₂⟩, ⟨v, List.mem_singleton_self v, rfl⟩,
        fun hmem => absurd (List.mem_singleton.mp hmem) hne⟩
    · left
      rwa [Storage.adjoint?, lookup_cons_of_ne hy, hadjoints, htakes.adjoints] at hd
  · intro lends O hO hparams
    refine hadds lends O (fun y hy hy₁ => ?_) (hparams v (List.mem_singleton_self v))
    by_contra hOy
    rcases hO y hy ((Bool.not_eq_false _).mp hOy) with hmem | hmem
    · exact hy₁ (List.mem_singleton.mp hmem ▸ hout)
    · exact hy₁ (hold y hmem)
  · intro y d hd
    obtain ⟨rfl, rfl⟩ := hscalars y d hd
    refine ⟨⟨v, List.mem_singleton_self v, rfl⟩, fun hmem => hx (hold d hmem), hx₂, ?_⟩
    intro i q hq hname
    obtain rfl := List.mem_singleton.mp (List.mem_of_getElem? hq)
    exact absurd hname.symm hne

theorem unread_indexSum {O : String → Bool} {l r : Expr} (hl : unread O l.parts = true)
    (hr : unread O r.parts = true) : unread O (l.indexSum r).parts = true := by
  unfold Expr.indexSum Expr.indexSum?
  split
  · exact hl
  · exact hr
  · unfold Expr.ofInt?
    split <;> simp
  · simp [hl, hr]

theorem offered_independentArray {v : Request.Independent} {σ σ₁ : Storage} {out : String}
    (hout : σ.Takes out σ₁) :
    Makes (independentArray modified (independentParam params v) v.range out) σ₁ fun own σ' =>
      Offered modified params [v] σ (own, []) σ' := by
  unfold independentArray
  split
  · rename_i hkept
    refine (Makes.bindAdjoint _ _).bind fun _ σ₂ hσ₂ => .pure ?_
    subst hσ₂
    exact .direct _ (.inr rfl) hout (by simp_all) (by simp)
  refine (Makes.fresh _).bind fun x σ₂ hx => (Makes.numbered _).bind fun i σ₃ hi => ?_
  refine (Makes.bindAdjoint _ _).bind fun _ σ₄ hσ₄ => .pure ?_
  subst hσ₄
  have hx₃ : x ∈ σ₃.names.used := (hi.used x).mpr (.inr ((hx.used x).mpr (.inl rfl)))
  refine .local_ _ (.inr rfl) hout hx.new hx₃
    (fun y hy => (hi.used y).mpr (.inr ((hx.used y).mpr (.inr hy))))
    (hi.adjoints.trans hx.adjoints) (hi.hoisted.trans hx.hoisted) ?_ (by simp)
  intro lends O hO hp
  have hOx : O x = false := hO x hx₃ hx.new
  have hOi : O i = false := hO i ((hi.used i).mpr (.inl rfl)) fun hmem =>
    hi.new ((hx.used i).mpr (.inr hmem))
  have hflush : ∀ (lo : Nat) {count : Expr}, unread O count.parts = true →
      addsAll lends O [countedLoop i count [.update (.index out (.var i)) .add
        (.index x ((Expr.var i).indexSum (.ofNat lo)))]] = true := by
    intro lo count hcount
    have hindex := unread_indexSum (O := O) (l := .var i) (r := .ofNat lo) (by simpa using hOi)
      (by simp [Expr.ofNat])
    simp [addsAll, countedLoop, Stmt.adds, LoopInit.spares, Local.parts, Expr.less, Stmt.update,
      Assignment.spares, Assignment.parts, Place.parts, Place.name, hOi, hOx, hcount, hindex]
  constructor
  · simp [addsAll, Stmt.adds, hOx, lenOf, hp]
  · refine hflush _ ?_
    split <;> simp [lenOf, Expr.ofNat, hp]

theorem makes_localAdjoint (p : Param) (out : String) {σ : Storage} :
    Makes (localAdjoint p out) σ fun own σ' => σ.Takes own.1 σ' ∧
      own.2 = ⟨[], [.let_ own.1 .float (some .zero)], [.update (.var out) .add (.var own.1)]⟩ :=
  (Makes.fresh _).bind fun _ _ hx => .pure ⟨hx, rfl⟩

theorem offered_independentScalar {v : Request.Independent} {σ σ₁ : Storage} {out : String}
    (hout : σ.Takes out σ₁) (harray : (independentParam params v).ty.isArray = false) :
    Makes (independentScalar modified (independentParam params v) out) σ₁ fun r σ' =>
      Offered modified params [v] σ (r.2, [((independentParam params v).name, r.1)]) σ' := by
  unfold independentScalar
  split
  · refine (makes_localAdjoint _ out).bind fun own σ₂ hown => ?_
    obtain ⟨hx, hparts⟩ := hown
    refine (Makes.bindAdjoint _ _).bind fun _ σ₃ hσ₃ => .pure ?_
    subst hσ₃
    rw [hparts]
    have hx₂ : own.1 ∈ σ₂.names.used := (hx.used own.1).mpr (.inl rfl)
    refine .local_ _ (.inl rfl) hout hx.new hx₂ (fun y hy => (hx.used y).mpr (.inr hy)) hx.adjoints
      hx.hoisted (fun lends O hO _ => ?_) (by simp)
    have hOx : O own.1 = false := hO _ hx₂ hx.new
    constructor
    · simp [addsAll, Stmt.let_, Stmt.adds, Local.parts, hOx, Expr.zero]
    · simp [addsAll, Stmt.update, Stmt.adds, Assignment.parts, Place.parts, hOx]
  · rename_i hkept
    refine (Makes.bindAdjoint _ _).bind fun _ σ₂ hσ₂ => .pure ?_
    subst hσ₂
    exact .direct _ (.inl rfl) hout (by simpa using hkept) (by simp [harray])

theorem offered_independents (vs : List Request.Independent) (σ : Storage) :
    Makes (independents modified params vs) σ (Offered modified params vs σ) := by
  induction vs generalizing σ with
  | nil => exact .pure (.nil σ)
  | cons v vs ih =>
    have hrest : ∀ (own : AdjointParams) (scalars : List (String × String)) (σ₁ : Storage),
        Offered modified params [v] σ (own, scalars) σ₁ → Makes (do
          let r ← independents modified params vs
          return (own.append r.1, scalars ++ r.2)) σ₁ (Offered modified params (v :: vs) σ) :=
      fun own scalars σ₁ hown => (ih σ₁).bind fun r σ₂ hr => .pure (hown.append hr)
    unfold independents
    refine (Makes.fresh _).bind fun out σ₁ hout => ?_
    dsimp only
    split
    · exact (offered_independentArray hout).bind fun own σ₂ hown => hrest own [] σ₂ hown
    · rename_i harray
      exact (offered_independentScalar hout ((Bool.not_eq_true _).mp harray)).bind
        fun own σ₂ hown => hrest own.2 _ σ₂ hown

end

section

variable {s : Setting} {lends : Lends} {O : String → Bool} {W : String → Prop}

theorem spares_otherAdjoints {ps : List Param} (hps : ∀ p ∈ ps, O p.name = false) :
    Spares s lends O W (otherAdjoints ps) fun out => addsAll lends O out = true := by
  induction ps with
  | nil => exact .pure rfl
  | cons p ps ih =>
    obtain ⟨hp, hps⟩ := List.forall_mem_cons.mp hps
    unfold otherAdjoints
    refine .get_bind fun σ _ => ?_
    split
    · refine (Spares.fresh _).bind fun d hd => (Spares.bindAdjoint p.name hd).bind fun _ _ => ?_
      refine (ih hps).bind fun rest hrest => .pure ?_
      rw [addsAll, hrest, Bool.and_true]
      split
      · simp [adjointDecl, Stmt.adds, hd, lenOf, hp]
      · exact Sweep.adds_let .float hd (by simp [Expr.zero])
    · exact ih hps

theorem spares_errorSink (epsilon : Float) (countsReturns : Bool) :
    Spares s lends O W (errorSink (some epsilon) countsReturns) fun sink =>
      ∃ x, sink = some ⟨x, epsilon, countsReturns⟩ ∧ O x = false :=
  (Spares.fresh _).bind fun x hx => .pure ⟨x, rfl, hx⟩

end

/-! ### The gradient -/

/-- The error terms of independent scalars. -/
def ErrorSink.terms (sink : ErrorSink) (scalars : List (String × String)) : List Stmt :=
  scalars.map fun (x, d) => sink.term (.var d) (.var x)

/-- The independent variable is a scalar, and none of the modified ones. -/
def keptScalar (modified : List String) (f : Func) (v : Request.Independent) : Bool :=
  !(independentParam f.params v).ty.isArray && !modified.contains (independentParam f.params v).name

section

variable {modified : List String} {f : Func} {vs : List Request.Independent} {σ σ' : Storage}
  {a : AdjointParams × List (String × String)} (h : Offered modified f.params vs σ a σ')
  {O : String → Bool} (hO : ∀ y, O y = true → y ∈ a.1.params.map (·.name)) (lends : Lends)

include h hO

/-- The storage before the sweeps, if the outputs are the only adjoints yet. -/
theorem Offered.sparing (hempty : σ.hoisted = [] ∧ ∀ x, σ.adjoint? x = none)
    (hparam : ∀ v ∈ vs, (independentParam f.params v).name ∈ f.params.map (·.name)) :
    σ'.Sparing lends O fun y => y ∈ f.params.map (·.name) → y ∈ modified where
  used x hx := h.used_of_mem (hO x hx)
  kept x d hd hOd hW := by
    rcases h.bound x d hd with hd | ⟨_, ⟨v, hv, rfl⟩, hmod⟩
    · rw [hempty.2] at hd
      cases hd
    · exact hmod (hO d hOd) (hW (hparam v hv))
  hoisted := by
    rw [h.hoisted, hempty.1]
    rfl

/-- The last terms only add to outputs other than those of scalars that are not assigned. -/
theorem Offered.adds_terms (sink : ErrorSink)
    (hparam : ∀ v ∈ vs, O (independentParam f.params v).name = false)
    (hkept : ∀ (i : Nat) (q : Param) (v : Request.Independent), a.1.params[i]? = some q →
      vs[i]? = some v → keptScalar modified f v = true → O q.name = false) :
    addsAll lends O (sink.terms a.2) = true := by
  refine addsAll_iff.mpr fun st hst => ?_
  obtain ⟨⟨y, d⟩, hmem, rfl⟩ := List.mem_map.mp hst
  obtain ⟨⟨v, hv, rfl⟩, _, _, hout⟩ := h.scalars y d hmem
  have hd : O d = false := by
    by_contra hOd
    obtain ⟨q, hq, rfl⟩ := List.mem_map.mp (hO d ((Bool.not_eq_false _).mp hOd))
    obtain ⟨i, hi⟩ := List.mem_iff_getElem?.mp hq
    obtain ⟨v', hv', hscalar, hmod⟩ := hout i q hi rfl
    exact hOd (hkept i q v' hi hv' (by simp [keptScalar, hscalar, hmod]))
  exact Sweep.adds_term _ (by simpa using hd) (by simpa using hparam v hv)

end

/-- A gradient with an error estimate: what goes before the last error terms only adds to the
adjoint outputs, and so do those terms for all but the scalars that are not assigned. -/
structure Estimating (lends : Lends) (modified : List String) (r : Request) (f : Func)
    (outs : List Param) (sink : ErrorSink) (main : List Stmt) (scalars : List (String × String)) :
    Prop where
  params : f.params = r.target.params ++ outs ++ [⟨sink.accumulator, .ref .float⟩]
  body : f.body = some (main ++ sink.terms scalars)
  ret : f.ret = .void
  count : outs.length = r.independents.length
  types : ∀ q ∈ outs, q.ty = .ref .float ∨ q.ty = .arrayOf .float
  distinct : (outs.map (·.name)).Nodup
  apart : sink.accumulator ∉ outs.map (·.name)
  main : ∀ O : String → Bool, (∀ y, O y = true → y ∈ outs.map (·.name)) →
    addsAll lends O main = true
  terms : ∀ O : String → Bool, (∀ y, O y = true → y ∈ outs.map (·.name)) →
    (∀ (i : Nat) (q : Param) (v : Request.Independent), outs[i]? = some q →
      r.independents[i]? = some v → keptScalar modified r.target v = true → O q.name = false) →
    addsAll lends O (sink.terms scalars) = true

theorem canonicalize_of_gradientSource {f source : Func} {st st' : Progress}
    (h : gradientSource f none st = .ok source st') :
    Canonical.canonicalize f = .ok source ∧ st = st' := by
  unfold gradientSource at h
  cases hbody : f.body with
  | none =>
    rw [hbody] at h
    cases h
  | some body =>
    rw [hbody] at h
    dsimp only [prepare] at h
    cases hcanonical : Canonical.canonicalize f with
    | error e =>
      rw [hcanonical] at h
      cases h
    | ok source =>
      rw [hcanonical] at h
      cases h
      exact ⟨rfl, rfl⟩

theorem estimating_gradientWith {s : Setting} {resolve : Resolver} {r : Request} {epsilon : Float}
    {st st' : Progress} {f : Func}
    (hfits : ∀ sig f, s.registry.get? .pullback sig = some f →
      Library.Registry.Fits s.program f .pullback sig)
    (hcustom : s.registry.get? .pullback r.target.signature = none) (hst : st.Underived s)
    (hchecked : Typing.checkFunc resolve r.target = .ok ())
    (hplain : Plain (Sweep.calls s) (r.target.params.map (·.name))
      ((Host.ofProgram s.program).modifiedParams r.target) r.target.stmts)
    (hparams : ∀ v ∈ r.independents, v.param < r.target.params.length)
    (h : gradientWith s (planner s) r (some epsilon) st = .ok f st') :
    st'.support = [] ∧ f.name ∉ st.names.used ∧ ∃ outs sink main scalars,
      Estimating s.program.lends ((Host.ofProgram s.program).modifiedParams r.target) r f outs sink
        main scalars := by
  unfold gradientWith at h
  obtain ⟨name, st₁, hname, h⟩ := state_bind_eq_ok.mp h
  have hnew : name ∉ st.names.used ∧ st₁.Underived s := by
    cases hname
    exact ⟨st.names.fresh_fresh _, hst.support, hst.plans⟩
  dsimp only at h
  rw [hcustom] at h
  obtain ⟨source, st₂, hsource, h⟩ := state_bind_eq_ok.mp h
  obtain ⟨hcanonical, rfl⟩ := canonicalize_of_gradientSource hsource
  obtain ⟨host, st₃, hhost, h⟩ := state_bind_eq_ok.mp h
  cases hhost
  rw [Setting.host, hnew.2.support, ← Host.ofProgram] at h
  obtain ⟨⟨f, σ₄⟩, st₄, h, hend⟩ := state_bind_eq_ok.mp h
  cases hend
  -- the steps of the sweeps, one after the other
  obtain ⟨⟨adjoints, scalars⟩, σ₁, _, hindependents, h⟩ := stateT_bind_eq_ok.mp h
  obtain ⟨rfl, hoffered⟩ := offered_independents _ _ _ _ _ _ hindependents
  obtain ⟨others, σ₂, st₂, hothers, h⟩ := stateT_bind_eq_ok.mp h
  obtain ⟨sink, σ₃, st₃, hsink, h⟩ := stateT_bind_eq_ok.mp h
  dsimp only at h
  obtain ⟨sweeps, σ₄, st₄, hsweeps, h⟩ := stateT_bind_eq_ok.mp h
  cases h
  have hnames : ∀ x ∈ r.target.params.map (·.name), x ∈ (NameSupply.ofFunc source).used := by
    intro x hx
    rw [NameSupply.mem_ofFunc, params_canonicalize hcanonical]
    exact .inl hx
  have hparam : ∀ v ∈ r.independents,
      (independentParam r.target.params v).name ∈ r.target.params.map (·.name) := by
    intro v hv
    rw [independentParam, List.getElem?_eq_getElem (hparams v hv)]
    exact List.mem_map_of_mem (List.getElem_mem _)
  let outs := adjoints.params
  have hspared : ∀ {O : String → Bool}, (∀ y, O y = true → y ∈ outs.map (·.name)) →
      ∀ x ∈ (NameSupply.ofFunc source).used, O x = false := by
    intro O hO x hx
    by_contra hOx
    exact hoffered.not_mem_of_used hx (hO x ((Bool.not_eq_false _).mp hOx))
  -- every step keeps adding to adjoint outputs
  have hsteps : ∀ {O : String → Bool}, (∀ y, O y = true → y ∈ outs.map (·.name)) →
      (∃ x, sink = some ⟨x, epsilon, true⟩ ∧ O x = false) ∧ st'.Underived s ∧
        addsAll s.program.lends O others = true ∧ addsAll s.program.lends O σ₄.hoisted = true ∧
        sweeps.Adds s.program.lends O := by
    intro O hO
    have hsparing := hoffered.sparing hO s.program.lends ⟨rfl, fun _ => rfl⟩ hparam
    have hps : ∀ p ∈ r.target.params, O p.name = false := fun p hp =>
      hspared hO _ (hnames _ (List.mem_map_of_mem hp))
    obtain ⟨⟨hσ₂, hst₂⟩, hothers⟩ := spares_otherAdjoints hps σ₁ _ hsparing hnew.2 _ _ _ hothers
    obtain ⟨⟨hσ₃, hst₃⟩, hsink⟩ := spares_errorSink epsilon true σ₂ _ hσ₂ hst₂ _ _ _ hsink
    have hswept := swept_of_canonicalize hchecked hcanonical hplain (hspared hO)
    obtain ⟨⟨hσ₄, hst₄⟩, hsweeps⟩ := Sweep.spares_body ⟨rfl, rfl, rfl, hfits⟩ (by
      rintro e ⟨⟩
      exact unread_float _) hswept σ₃ _ hσ₃ hst₃ _ _ _ hsweeps
    exact ⟨hsink, hst₄, hothers, hσ₄.hoisted, hsweeps⟩
  -- for all outputs at once: the sink is none of them
  obtain ⟨⟨x, rfl, hx⟩, hunderived, -⟩ :=
    hsteps (O := fun y => decide (y ∈ outs.map (·.name))) fun y => of_decide_eq_true
  refine ⟨hunderived.support, hnew.1, outs, ⟨x, epsilon, true⟩, adjoints.before ++ others ++
    σ₄.hoisted ++ (sweeps.primal ++ sweeps.adjoint) ++ adjoints.after, scalars, ?_⟩
  refine ⟨rfl, rfl, rfl, hoffered.count, fun q hq => (hoffered.new q hq).2.2, hoffered.distinct,
    of_decide_eq_false hx, fun O hO => ?_, fun O hO hkept => ?_⟩
  · obtain ⟨hbefore, hafter⟩ := hoffered.adds s.program.lends O (fun y _ hy => .inl (hO y hy))
      fun v hv => hspared hO _ (hnames _ (hparam v hv))
    obtain ⟨-, -, hothers, hhoisted, hsweeps⟩ := hsteps hO
    simp only [addsAll_append, hbefore, hafter, hothers, hhoisted, hsweeps.primal, hsweeps.adjoint,
      Bool.and_self]
  · exact hoffered.adds_terms hO _ _ (fun v hv => hspared hO _ (hnames _ (hparam v hv))) hkept

end Derive

end Fluxion
