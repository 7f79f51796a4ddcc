import Mathlib.Data.List.Basic
import Fluxion.Proofs.Grammar.Definite

/-!
What a parsed program looks like: its names are identifiers and paths, its integers and array lengths
fit, its floats have no sign, and no declaration in it is one of an array.
-/

namespace Fluxion.Grammar

open Fluxion.Grammar.Parser Fluxion.Decimal

variable {limit : Nat}

/-! ### Statements -/

/-- What holds of every statement that is read. -/
def Legible (s : Stmt) : Prop := (wellspelt IsMagnitude).Stmt s ∧ s.isPlain

def LegibleAll (body : List Stmt) : Prop := (wellspelt IsMagnitude).Body body ∧ plainIn body

theorem legibleAll_iff {body : List Stmt} : LegibleAll body ↔ ∀ s ∈ body, Legible s := by
  induction body with
  | nil => simp [LegibleAll, Rule.Body, plainIn]
  | cons s body ih =>
    rw [List.forall_mem_cons, ← ih]
    simp only [LegibleAll, Legible, Rule.Body, plainIn]
    constructor
    · rintro ⟨⟨hs, hbody⟩, hplain, hplains⟩
      exact ⟨⟨hs, hplain⟩, hbody, hplains⟩
    · rintro ⟨⟨hs, hplain⟩, hbody, hplains⟩
      exact ⟨⟨hs, hbody⟩, hplain, hplains⟩

theorem gives_arrayDecl : (arrayDecl limit).Gives Legible := by
  have hlength : (arrayLength limit).Gives fun x =>
      x.1.lengthsFit = true ∧ (wellspelt IsMagnitude).Expr x.2 :=
    gives_ty.bind fun elem helem => .after fun _ => gives_expr.map fun len hlen => ⟨helem, hlen⟩
  rw [arrayDecl_eq]
  refine gives_letHead.bind fun x hx => (hlength.between '[' ']').bind ?_
  rintro ⟨elem, len⟩ ⟨helem, hlen⟩
  exact gives_pure ⟨⟨⟨hx, helem⟩, hlen⟩, trivial⟩

theorem gives_condition : (condition limit).Gives (wellspelt IsMagnitude).Expr := gives_expr.between '(' ')'

variable {block : Parser (List Stmt)}

theorem gives_ifChain (hblock : block.Gives LegibleAll) (more : Nat) :
    (ifChain limit block more).Gives Legible := by
  induction more with
  | zero =>
    intro c s d alt h
    cases h
  | succ more ih =>
    have helse : (do keyword "else"; firstOf [block, (do return [← ifChain limit block more])] :
        Parser (List Stmt)).Gives LegibleAll := by
      refine .after fun _ => gives_firstOf ?_
      simp only [List.forall_mem_cons]
      refine ⟨hblock, ih.map fun s hs => ?_, by simp⟩
      exact legibleAll_iff.mpr (by simpa using hs)
    refine .after fun _ => gives_condition.bind fun test htest => hblock.bind fun yes hyes => ?_
    refine helse.optional.map fun no hno => ?_
    have hno' : LegibleAll (no.getD []) := by
      cases no with
      | none => exact ⟨trivial, trivial⟩
      | some no => exact hno no rfl
    exact ⟨⟨htest, hyes.1, hno'.1⟩, hyes.2, hno'.2⟩

theorem gives_loopHeader : (loopHeader limit).Gives fun x =>
    (∀ i, x.1 = some i → (wellspelt IsMagnitude).Init i) ∧
      (∀ e, x.2.1 = some e → (wellspelt IsMagnitude).Expr e) ∧
      ∀ a, x.2.2 = some a → (wellspelt IsMagnitude).Assignment a := by
  have hfirst : (firstOf [(do return .decl (← localDecl limit)),
      (do return .assign (← assignment limit))]).Gives (wellspelt IsMagnitude).Init := by
    apply gives_firstOf
    simp only [List.forall_mem_cons]
    exact ⟨gives_localDecl.map fun d hd => hd, gives_assignment.map fun a ha => ha, by simp⟩
  apply Gives.between
  refine hfirst.optional.ended.bind fun init hinit => ?_
  refine gives_expr.optional.ended.bind fun test htest => ?_
  exact gives_assignment.optional.map fun step hstep => ⟨hinit, htest, hstep⟩

theorem gives_stmtWith (hblock : block.Gives LegibleAll) : (stmtWith limit block).Gives Legible := by
  intro c s d alt h
  rw [stmtWith_eq] at h
  rcases firstOf_ok h with h | ⟨⟨why, hfail⟩, h⟩
  · exact gives_arrayDecl.ended c s d alt h
  rcases firstOf_ok h with h | ⟨-, h⟩
  · obtain ⟨l, c', _, _, hl, hs⟩ := bind_ok h
    cases hs
    exact ⟨gives_localDecl.ended _ _ _ _ hl, isPlain_of_ok hfail hl⟩
  refine gives_firstOf ?_ c s d alt h
  simp only [List.forall_mem_cons]
  refine ⟨gives_ifChain hblock limit, ?_, ?_, ?_, ?_, ?_, ?_, by simp⟩
  · refine .after fun _ => gives_loopHeader.bind ?_
    rintro ⟨init, test, step⟩ ⟨hinit, htest, hstep⟩
    exact hblock.map fun body hbody => ⟨⟨hinit, htest, hstep, hbody.1⟩, hbody.2⟩
  · exact .after fun _ => gives_condition.bind fun test htest => hblock.map fun body hbody =>
      ⟨⟨htest, hbody.1⟩, hbody.2⟩
  · exact .after fun _ => gives_expr.optional.ended.map fun value hvalue => ⟨⟨trivial, hvalue⟩, trivial⟩
  · exact hblock.map fun body hbody => ⟨hbody.1, hbody.2⟩
  · exact gives_assignment.ended.map fun a ha => ⟨ha, trivial⟩
  · exact gives_expr.ended.map fun e he => ⟨he, trivial⟩

theorem gives_stmt : (stmt limit).Gives Legible := by
  induction limit with
  | zero =>
    intro c s d alt h
    cases h
  | succ limit ih =>
    rw [stmt_succ]
    refine gives_stmtWith (Gives.between ?_ _ _)
    exact fun c body d alt h => legibleAll_iff.mpr (ih.many (limit + 1) c body d alt h)

/-! ### Programs -/

theorem gives_param : (param limit).Gives fun p => isIdent p.name = true ∧ p.ty.lengthsFit = true :=
  gives_ident.bind fun _ hx => .after fun _ => gives_ty.map fun _ ht => ⟨hx, ht⟩

theorem gives_head : (head limit).Gives fun x => isIdent x.1 = true ∧
    (∀ p ∈ x.2.1, isIdent p.name = true ∧ p.ty.lengthsFit = true) ∧ x.2.2.lengthsFit = true := by
  refine gives_ident.bind fun f hf => ?_
  refine ((gives_param.items limit (symbol ',')).between '(' ')').bind fun params hparams => ?_
  have hret : (optional (do padded (word "->"); ty limit)).Gives fun x =>
      ∀ t, x = some t → t.lengthsFit = true := Gives.optional (.after fun _ => gives_ty)
  refine hret.map fun ret hret => ⟨hf, hparams, ?_⟩
  cases ret with
  | none => rfl
  | some t => exact hret t rfl

theorem gives_bodied : (bodied limit).Gives (Func.Wellspelt IsMagnitude) := by
  have hparts : (do
      keyword "fn"
      let h ← head limit
      let body ← between '\x7b' '\x7d' (many limit (stmt limit))
      return (h.1, h.2.1, h.2.2, body) : Parser (String × List Param × Ty × List Stmt)).Gives fun x =>
      isIdent x.1 = true ∧ (∀ p ∈ x.2.1, isIdent p.name = true ∧ p.ty.lengthsFit = true) ∧
        x.2.2.1.lengthsFit = true ∧ LegibleAll x.2.2.2 := by
    refine .after fun _ => gives_head.bind ?_
    rintro ⟨f, params, ret⟩ ⟨hf, hparams, hret⟩
    exact ((gives_stmt.many limit).between _ _).map fun body hbody =>
      ⟨hf, hparams, hret, legibleAll_iff.mpr hbody⟩
  refine hparts.located.bind ?_
  rintro ⟨⟨f, params, ret, body⟩, span⟩ ⟨hf, hparams, hret, hbody⟩
  refine gives_pure ⟨isPath_of_isIdent hf, hparams, hret, ?_⟩
  rintro b ⟨rfl⟩
  exact hbody

theorem gives_native : (native limit).Gives (Func.Wellspelt IsMagnitude) := by
  have hparts : (do
      keyword "extern"
      keyword "fn"
      ended (head limit) : Parser (String × List Param × Ty)).Gives fun x => isIdent x.1 = true ∧
      (∀ p ∈ x.2.1, isIdent p.name = true ∧ p.ty.lengthsFit = true) ∧ x.2.2.lengthsFit = true :=
    .after fun _ => .after fun _ => gives_head.ended
  refine hparts.located.bind ?_
  rintro ⟨⟨f, params, ret⟩, span⟩ ⟨hf, hparams, hret⟩
  exact gives_pure ⟨isPath_of_isIdent hf, hparams, hret, fun b hb => by cases hb⟩

theorem IsPath.within {ns f : String} (hns : isIdent ns = true) (hf : IsPath f) :
    IsPath (ns ++ "::" ++ f) := by
  obtain ⟨first, parts, hparts, rfl⟩ := hf
  refine ⟨ns, first :: parts, List.forall_mem_cons.mpr ⟨hns, hparts⟩, ?_⟩
  rw [String.intercalate_cons_cons]

theorem wellspelt_within {F : Float → Prop} {ns : String} {f : Func} (hns : isIdent ns = true)
    (hf : f.Wellspelt F) : Func.Wellspelt F { f with name := ns ++ "::" ++ f.name } :=
  ⟨.within hns hf.name, hf.params, hf.ret, hf.body⟩

theorem gives_item : (item limit).Gives fun fs => ∀ f ∈ fs, f.Wellspelt IsMagnitude := by
  induction limit with
  | zero =>
    intro c fs d alt h
    cases h
  | succ limit ih =>
    rw [item_succ]
    apply gives_firstOf
    simp only [List.forall_mem_cons]
    refine ⟨gives_bodied.map fun f hf => by simpa using hf, gives_native.map fun f hf => by simpa using hf,
      ?_, by simp⟩
    refine .after fun _ => gives_ident.bind fun ns hns => ?_
    refine ((ih.many (limit + 1)).between _ _).map fun inner hinner => ?_
    intro g hg
    obtain ⟨f, hf, rfl⟩ := List.mem_map.mp hg
    obtain ⟨fs, hfs, hmem⟩ := List.mem_flatten.mp hf
    exact wellspelt_within hns (hinner fs hfs f hmem)

theorem gives_program : (program limit).Gives fun p => ∀ f ∈ p, f.Wellspelt IsMagnitude := by
  refine (gives_item.many limit).padded.bind fun found hfound => .after fun _ => gives_pure ?_
  intro f hf
  obtain ⟨fs, hfs, hmem⟩ := List.mem_flatten.mp hf
  exact hfound fs hfs f hmem

/-- Every function of a parsed program is one that a program can have. -/
theorem wellspelt_of_parse {source : String} {p : Program} (h : parse source = .ok p) :
    ∀ f ∈ p, f.Wellspelt IsMagnitude := by
  unfold parse parseWith at h
  split at h
  · rename_i hread
    cases h
    exact gives_program _ _ _ _ hread
  · cases h

end Fluxion.Grammar
