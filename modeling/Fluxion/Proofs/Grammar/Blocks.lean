import Mathlib.Data.List.Basic
import Fluxion.Proofs.Grammar.Statements

/-!
Printed code reads back: loop headers, branches and blocks, and with them statements of every form.
-/

namespace Fluxion

mutual

/-- No declaration in the statement is read as one of an array. -/
def Stmt.isPlain : Stmt → Prop
  | .decl d => d.isPlain
  | .cond _ yes no => plainIn yes ∧ plainIn no
  | .for_ _ _ _ body => plainIn body
  | .while_ _ body => plainIn body
  | .block body => plainIn body
  | _ => True

/-- No declaration in the statements is read as one of an array. -/
def plainIn : List Stmt → Prop
  | [] => True
  | s :: rest => s.isPlain ∧ plainIn rest

end

namespace Grammar

open Fluxion.Grammar.Parser Fluxion.Decimal

variable {cs rest : List Char} {limit depth : Nat} {s : Stmt} {body : List Stmt} {test : Expr}
  {init : Option LoopInit} {step : Option Assignment}

/-! ### Texts of statements -/

/-- The characters of a statement at a depth. -/
def stmtChars (depth : Nat) (s : Stmt) : List Char := (s.textAt depth).toList

def linesChars (depth : Nat) (body : List Stmt) : List Char := (linesText depth body).toList

def elseChars (depth : Nat) (no : List Stmt) : List Char := (elseText depth no).toList

/-- The blanks before a line at a depth. -/
def blanks (depth : Nat) : List Char := List.replicate (4 * depth) ' '

theorem toList_indentation (depth : Nat) : (indentation depth).toList = blanks depth := by
  rw [indentation, toList_pushn]
  rfl

theorem skip_blanks (depth : Nat) (cs : List Char) : skip (blanks depth ++ cs) = skip cs :=
  skip_append_blanks fun c hc => by
    rw [List.eq_of_mem_replicate hc]
    decide

/-- The characters of statements in braces. -/
def blockChars (depth : Nat) (body : List Stmt) : List Char :=
  '\x7b' :: '\n' :: (linesChars (depth + 1) body ++ (blanks depth ++ ['\x7d']))

theorem toList_braces (depth : Nat) (body : List Stmt) :
    (braces depth (linesText (depth + 1) body)).toList = blockChars depth body := by
  simp [braces, blockChars, linesChars, toList_indentation]

theorem linesChars_nil : linesChars depth [] = [] := by
  rw [linesChars, linesText]
  rfl

theorem linesChars_cons (s : Stmt) (body : List Stmt) : linesChars depth (s :: body) =
    blanks depth ++ (stmtChars depth s ++ '\n' :: linesChars depth body) := by
  simp [linesChars, linesText, stmtChars, toList_indentation]

theorem stmtChars_decl (d : Local) : stmtChars depth (.decl d) = d.text.toList ++ [';'] := by
  simp [stmtChars, Stmt.textAt]

theorem stmtChars_arrayDecl (x : String) (elem : Ty) (len : Expr) :
    stmtChars depth (.arrayDecl x elem len) = "let ".toList ++ (x.toList ++ ':' :: ' ' :: '[' ::
      (elem.text.toList ++ ';' :: ' ' :: (len.chars 0 ++ [']', ';']))) := by
  simp [stmtChars, Stmt.textAt, Expr.text, Expr.chars]

theorem stmtChars_assign (a : Assignment) :
    stmtChars depth (.assign a) = a.text.toList ++ [';'] := by
  simp [stmtChars, Stmt.textAt]

theorem stmtChars_cond (test : Expr) (yes no : List Stmt) : stmtChars depth (.cond test yes no) =
    "if".toList ++ ' ' :: '(' :: (test.chars 0 ++ ')' :: ' ' ::
      (blockChars depth yes ++ elseChars depth no)) := by
  rw [← toList_braces]
  simp [stmtChars, Stmt.textAt, Expr.text, Expr.chars, elseChars]

theorem stmtChars_while (test : Expr) (body : List Stmt) : stmtChars depth (.while_ test body) =
    "while".toList ++ ' ' :: '(' :: (test.chars 0 ++ ')' :: ' ' :: blockChars depth body) := by
  rw [← toList_braces]
  simp [stmtChars, Stmt.textAt, Expr.text, Expr.chars]

/-- What stands between the parentheses of a loop header. -/
def headerChars (init : Option LoopInit) (test : Option Expr) (step : Option Assignment) : List Char :=
  ((init.map LoopInit.text).getD "").toList ++ ';' :: ' ' ::
    (((test.map Expr.text).getD "").toList ++ ';' :: ' ' :: ((step.map Assignment.text).getD "").toList)

theorem stmtChars_for (init : Option LoopInit) (test : Option Expr) (step : Option Assignment)
    (body : List Stmt) : stmtChars depth (.for_ init test step body) =
    "for".toList ++ ' ' :: '(' :: (headerChars init test step ++ ')' :: ' ' ::
      blockChars depth body) := by
  rw [← toList_braces]
  simp [stmtChars, Stmt.textAt, headerText, headerChars]

theorem stmtChars_ret_none : stmtChars depth (.ret none) = "return".toList ++ [';'] := by
  simp [stmtChars, Stmt.textAt]

theorem stmtChars_ret_some (e : Expr) :
    stmtChars depth (.ret (some e)) = "return".toList ++ ' ' :: (e.chars 0 ++ [';']) := by
  simp [stmtChars, Stmt.textAt, Expr.text, Expr.chars]

theorem stmtChars_expr (e : Expr) : stmtChars depth (.expr e) = e.chars 0 ++ [';'] := by
  simp [stmtChars, Stmt.textAt_expr, Expr.text, Expr.chars]

theorem stmtChars_block (body : List Stmt) : stmtChars depth (.block body) = blockChars depth body := by
  rw [stmtChars, Stmt.textAt, toList_braces]

theorem elseChars_nil : elseChars depth [] = [] := by
  rw [elseChars, elseText]
  rfl

/-- A lone `if` after `else` stands without braces. -/
theorem elseChars_cond (test : Expr) (yes no : List Stmt) :
    elseChars depth [.cond test yes no] =
      " else ".toList ++ stmtChars depth (.cond test yes no) := by
  rw [stmtChars_cond, ← toList_braces]
  simp [elseChars, elseText, Expr.text, Expr.chars]

theorem elseChars_block (h : ∀ test yes no, s :: body ≠ [.cond test yes no]) :
    elseChars depth (s :: body) = " else ".toList ++ blockChars depth (s :: body) := by
  rw [elseChars, elseText]
  · rw [blockChars, linesChars_cons]
    simp [braces, toList_indentation, stmtChars, linesChars]
  · exact fun test yes no hs hbody => h test yes no (by rw [hs, hbody])

/-! ### Beginnings -/

/-- How the text of a statement begins. -/
structure StartsStmt (cs : List Char) : Prop where
  head : ∃ c cs', cs = c :: cs' ∧ Text.isBlank c = false
  word : wordOf cs ≠ "else".toList

theorem StartsStmt.skip (h : StartsStmt cs) : skip cs = cs := by
  obtain ⟨c, cs', rfl, hc⟩ := h.head
  exact skip_cons hc

theorem StartsStmt.of_word (text : String) (hw : isWord text.toList = true) (hrest : EndsWord rest)
    (h : text.toList ≠ "else".toList) : StartsStmt (text.toList ++ rest) := by
  refine ⟨?_, by rwa [wordOf_append hw hrest]⟩
  obtain ⟨c, cs, hcs, hc⟩ := exists_cons_of_isWord hw
  exact ⟨c, cs ++ rest, by rw [hcs, List.cons_append],
    isBlank_eq_false_of_isIdentPart (isIdentPart_of_isIdentStart hc)⟩

theorem StartsExpr.startsStmt (h : StartsExpr cs) : StartsStmt cs := by
  obtain ⟨c, cs', hcs, hb, -⟩ := h.not_blank
  exact ⟨⟨c, cs', hcs, hb⟩, h.word "else" (by decide)⟩

theorem toList_text_place (p : Place) : p.text.toList = p.toExpr.chars 0 := by
  cases p <;> simp [Place.text, Place.toExpr, Expr.text, Expr.chars, Expr.textAt]

theorem printable_toExpr {p : Place} (hname : isIdent p.name = true) (hp : spelled.Place p) :
    p.toExpr.Printable := by
  cases p with
  | var x =>
    intro part hpart
    obtain rfl : part = .var x := by simpa [Place.toExpr, Expr.parts] using hpart
    exact hname
  | index x i =>
    intro part hpart
    rcases List.mem_cons.mp hpart with rfl | hi
    · exact hname
    · exact hp part hi

theorem startsExpr_assignment {a : Assignment} (ha : spelled.Assignment a) :
    StartsExpr (a.text.toList ++ rest) := by
  have htext : a.text.toList ++ rest = a.place.toExpr.chars 0 ++
      ' ' :: (a.op.symbol.toList ++ ' ' :: (a.value.text.toList ++ rest)) := by
    rw [← toList_text_place]
    simp [Assignment.text]
  rw [htext]
  exact startsExpr _ 0 _ (printable_toExpr ha.1 ha.2.1) (by omega) (endsWord_cons (by decide))

theorem startsStmt (h : spelled.Stmt s) : StartsStmt (stmtChars depth s ++ rest) := by
  cases s with
  | decl d =>
    rw [stmtChars_decl, toList_text_local, List.append_assoc, List.append_assoc]
    exact .of_word "let" (by decide) (endsWord_cons (by decide)) (by decide)
  | arrayDecl x elem len =>
    rw [stmtChars_arrayDecl, List.append_assoc]
    exact .of_word "let" (by decide) (endsWord_cons (by decide)) (by decide)
  | assign a =>
    rw [stmtChars_assign, List.append_assoc]
    exact (startsExpr_assignment h).startsStmt
  | cond test yes no =>
    rw [stmtChars_cond, List.append_assoc]
    exact .of_word "if" (by decide) (endsWord_cons (by decide)) (by decide)
  | for_ init test step body =>
    rw [stmtChars_for, List.append_assoc]
    exact .of_word "for" (by decide) (endsWord_cons (by decide)) (by decide)
  | while_ test body =>
    rw [stmtChars_while, List.append_assoc]
    exact .of_word "while" (by decide) (endsWord_cons (by decide)) (by decide)
  | ret value =>
    cases value with
    | none =>
      rw [stmtChars_ret_none, List.append_assoc]
      exact .of_word "return" (by decide) (endsWord_cons (by decide)) (by decide)
    | some e =>
      rw [stmtChars_ret_some, List.append_assoc]
      exact .of_word "return" (by decide) (endsWord_cons (by decide)) (by decide)
  | expr e =>
    rw [stmtChars_expr, List.append_assoc]
    exact (startsExpr e 0 _ h (by omega) (endsWord_cons (by decide))).startsStmt
  | block body =>
    rw [stmtChars_block, blockChars]
    exact ⟨⟨_, _, rfl, by decide⟩, by rw [List.cons_append, wordOf_cons (by decide)]; decide⟩

/-! ### Alternatives of a statement -/

variable {block : Parser (List Stmt)}

/-- A `for` loop. -/
def forStmt (limit : Nat) (block : Parser (List Stmt)) : Parser Stmt := do
  keyword "for"
  let (init, test, step) ← loopHeader limit
  return .for_ init test step (← block)

/-- A `while` loop. -/
def whileStmt (limit : Nat) (block : Parser (List Stmt)) : Parser Stmt := do
  keyword "while"
  let test ← condition limit
  return .while_ test (← block)

/-- A return. -/
def retStmt (limit : Nat) : Parser Stmt := do
  keyword "return"
  return .ret (← ended (optional (expr limit)))

theorem stmtWith_eq : stmtWith limit block = firstOf
    [ended (arrayDecl limit),
     (do return .decl (← ended (localDecl limit))),
     ifChain limit block limit,
     forStmt limit block,
     whileStmt limit block,
     retStmt limit,
     (do return .block (← block)),
     (do return .assign (← ended (assignment limit))),
     (do return .expr (← ended (expr limit)))] := rfl

/-- The statements of a block in braces. -/
def blockOf (limit : Nat) : Parser (List Stmt) :=
  between '\x7b' '\x7d' (many (limit + 1) (stmt limit))

theorem stmt_succ (limit : Nat) : stmt (limit + 1) = stmtWith (limit + 1) (blockOf limit) := rfl

theorem fails_arrayDecl_of_keyword (h : (keyword "let").Fails cs) :
    (ended (arrayDecl limit)).Fails cs := h.bind.bind.bind

theorem fails_localDecl_of_keyword (h : (keyword "let").Fails cs) : (localDecl limit).Fails cs :=
  h.bind.bind

theorem fails_ifChain (h : (keyword "if").Fails cs) (more : Nat) :
    (ifChain limit block more).Fails cs := by
  cases more with
  | zero => exact fun pos => ⟨_, rfl⟩
  | succ more => exact h.bind

/-- A statement that begins with neither `let` nor `if` is one of those tried after them. -/
theorem takes_stmt_of_loops (hlet : (keyword "let").Fails cs) (hif : (keyword "if").Fails cs)
    (htake : (firstOf [forStmt limit block, whileStmt limit block, retStmt limit,
      (do return .block (← block)), (do return .assign (← ended (assignment limit))),
      (do return .expr (← ended (expr limit)))]).Takes cs s rest) :
    (stmtWith limit block).Takes cs s rest := by
  rw [stmtWith_eq]
  exact (fails_arrayDecl_of_keyword hlet).firstOf
    ((fails_localDecl_of_keyword hlet).bind.bind.firstOf ((fails_ifChain hif limit).firstOf htake))

/-- Where no statement begins with a keyword, it is a block, an assignment or an expression. -/
theorem takes_stmt_of_words (h : ∀ text ∈ statementWords, (keyword text).Fails cs)
    (htake : (firstOf [(do return .block (← block)), (do return .assign (← ended (assignment limit))),
      (do return .expr (← ended (expr limit)))]).Takes cs s rest) :
    (stmtWith limit block).Takes cs s rest :=
  takes_stmt_of_loops (h "let" (by decide)) (h "if" (by decide))
    ((h "for" (by decide)).bind.firstOf ((h "while" (by decide)).bind.firstOf
      ((h "return" (by decide)).bind.firstOf htake)))

theorem fails_statementWords (hskip : skip cs = cs)
    (h : ∀ text ∈ statementWords, wordOf cs ≠ text.toList) :
    ∀ text ∈ statementWords, (keyword text).Fails cs := by
  intro text htext
  apply fails_keyword
  rw [hskip]
  exact h text htext

theorem takes_stmt_expr {e : Expr} (he : e.Printable)
    (hlimit : (e.chars 0 ++ ';' :: rest).length < limit) (hblock : block.Fails (e.chars 0 ++ ';' :: rest)) :
    (stmtWith limit block).Takes (e.chars 0 ++ ';' :: rest) (.expr e) (skip rest) := by
  have hstart := startsExpr e 0 (';' :: rest) he (by omega) (endsWord_cons (by decide))
  have hassign := fails_assignment e 0 (';' :: rest) he (by omega) (noAssign_close (by decide)) hlimit
  have hread := ((reads_of_printable e he).before he ';' rest (by decide) hlimit).2
  refine takes_stmt_of_words (fails_statementWords hstart.skip hstart.word) ?_
  exact hblock.bind.firstOf (hassign.bind.bind.firstOf
    (hread.bind ((takes_symbol (by decide)).bind_pure)).bind_pure.firstOf)

theorem takes_stmt_assign {a : Assignment} (ha : spelled.Assignment a)
    (hlimit : (a.text.toList ++ ';' :: rest).length < limit)
    (hblock : block.Fails (a.text.toList ++ ';' :: rest)) :
    (stmtWith limit block).Takes (a.text.toList ++ ';' :: rest) (.assign a) (skip rest) := by
  have hstart : StartsExpr (a.text.toList ++ ';' :: rest) := startsExpr_assignment ha
  have hread : (assignment limit).Takes (a.text.toList ++ ';' :: rest) a (';' :: rest) :=
    takes_assignment ha (by decide) hlimit
  refine takes_stmt_of_words (fails_statementWords hstart.skip hstart.word) ?_
  exact hblock.bind.firstOf (hread.bind ((takes_symbol (by decide)).bind_pure)).bind_pure.firstOf

theorem takes_stmt_block (h : block.Takes ('\x7b' :: cs) body rest) :
    (stmtWith limit block).Takes ('\x7b' :: cs) (.block body) rest := by
  refine takes_stmt_of_words (fails_statementWords (skip_cons (by decide)) ?_) h.bind_pure.firstOf
  rw [wordOf_cons (by decide)]
  decide

theorem takes_stmt_decl {d : Local} (hd : spelled.Local d) (hplain : d.isPlain)
    (hlimit : (d.text.toList ++ ';' :: rest).length < limit) :
    (stmtWith limit block).Takes (d.text.toList ++ ';' :: rest) (.decl d) (skip rest) := by
  have hread := takes_localDecl hd hlimit
  rw [stmtWith_eq]
  exact (fails_ended_arrayDecl hd hplain hlimit).firstOf
    (hread.bind ((takes_symbol (by decide)).bind_pure)).bind_pure.firstOf

theorem takes_stmt_arrayDecl {x : String} {elem : Ty} {len : Expr} (hd : spelled.Array x elem len)
    (hlimit : ("let ".toList ++ (x.toList ++ ':' :: ' ' :: '[' :: (elem.text.toList ++ ';' :: ' ' ::
      (len.chars 0 ++ ']' :: ';' :: rest)))).length < limit) :
    (stmtWith limit block).Takes ("let ".toList ++ (x.toList ++ ':' :: ' ' :: '[' ::
      (elem.text.toList ++ ';' :: ' ' :: (len.chars 0 ++ ']' :: ';' :: rest))))
      (.arrayDecl x elem len) (skip rest) := by
  obtain ⟨⟨hname, hty⟩, hlen⟩ := hd
  have helem : elem.lengthsFit = true := hty
  simp only [List.length_append, List.length_cons] at hlimit
  obtain ⟨hskip, hexpr⟩ := (reads_of_printable len hlen).before hlen ']' (';' :: rest) (by decide)
    (show _ < limit by simp only [List.length_append, List.length_cons]; omega)
  rw [← hskip] at hexpr
  have hread := takes_arrayDecl hname helem (by omega) hexpr
  rw [skip_cons (by decide)] at hread
  rw [stmtWith_eq]
  exact (hread.bind ((takes_symbol (by decide)).bind_pure)).firstOf

/-- A statement that begins with a keyword is none of those that begin with another. -/
theorem fails_other_keyword {text other : String} (hw : isWord text.toList = true)
    (hrest : EndsWord rest) (hne : text ≠ other) : (keyword other).Fails (text.toList ++ rest) :=
  fails_keyword_of_ne hw hrest fun he => hne (String.toList_inj.mp he)

theorem takes_condition (ht : test.Printable)
    (hlimit : (test.chars 0 ++ ')' :: rest).length < limit) :
    (condition limit).Takes ('(' :: (test.chars 0 ++ ')' :: rest)) test (skip rest) := by
  obtain ⟨hskip, hread⟩ := (reads_of_printable test ht).before ht ')' rest (by decide) hlimit
  rw [← hskip] at hread
  exact Takes.between (by decide) (by decide) hread

theorem takes_stmt_while (ht : test.Printable)
    (hlimit : (test.chars 0 ++ ')' :: ' ' :: cs).length < limit)
    (hblock : block.Takes (skip cs) body rest) :
    (stmtWith limit block).Takes ("while".toList ++ ' ' :: '(' :: (test.chars 0 ++ ')' :: ' ' :: cs))
      (.while_ test body) rest := by
  have hends : EndsWord (' ' :: '(' :: (test.chars 0 ++ ')' :: ' ' :: cs)) :=
    endsWord_cons (by decide)
  have hread : (whileStmt limit block).Takes
      ("while".toList ++ ' ' :: '(' :: (test.chars 0 ++ ')' :: ' ' :: cs)) (.while_ test body) rest := by
    refine (takes_keyword "while" (by decide) hends).bind ?_
    rw [skip_cons_blank (by decide), skip_cons (by decide)]
    refine (takes_condition ht hlimit).bind ?_
    rw [skip_cons_blank (by decide)]
    exact hblock.bind_pure
  exact takes_stmt_of_loops (fails_other_keyword (by decide) hends (by decide))
    (fails_other_keyword (by decide) hends (by decide))
    ((fails_other_keyword (by decide) hends (by decide)).bind.firstOf hread.firstOf)

theorem takes_stmt_ret {value : Option Expr} (text : List Char) (hends : EndsWord (text ++ ';' :: rest))
    (h : (optional (expr limit)).Takes (skip (text ++ ';' :: rest)) value (';' :: rest)) :
    (stmtWith limit block).Takes ("return".toList ++ (text ++ ';' :: rest)) (.ret value) (skip rest) := by
  have hread : (retStmt limit).Takes ("return".toList ++ (text ++ ';' :: rest)) (.ret value) (skip rest) :=
    (takes_keyword "return" (by decide) hends).bind
      (h.bind ((takes_symbol (by decide)).bind_pure)).bind_pure
  exact takes_stmt_of_loops (fails_other_keyword (by decide) hends (by decide))
    (fails_other_keyword (by decide) hends (by decide))
    ((fails_other_keyword (by decide) hends (by decide)).bind.firstOf
      ((fails_other_keyword (by decide) hends (by decide)).bind.firstOf hread.firstOf))

/-! ### Loop headers -/

/-- The first part of a loop header. -/
def headerInit (limit : Nat) : Parser LoopInit := firstOf
  [(do return .decl (← localDecl limit)), (do return .assign (← assignment limit))]

theorem loopHeader_eq : loopHeader limit = between '(' ')' (do
    let init ← ended (optional (headerInit limit))
    let test ← ended (optional (expr limit))
    let step ← optional (assignment limit)
    return (init, test, step)) := rfl

theorem takes_headerInit (h : ∀ i, init = some i → spelled.Init i)
    (hlimit : (((init.map LoopInit.text).getD "").toList ++ ';' :: rest).length < limit) :
    skip (((init.map LoopInit.text).getD "").toList ++ ';' :: rest) =
        ((init.map LoopInit.text).getD "").toList ++ ';' :: rest ∧
      (optional (headerInit limit)).Takes (((init.map LoopInit.text).getD "").toList ++ ';' :: rest)
        init (';' :: rest) := by
  cases init with
  | none =>
    have hskip : skip (';' :: rest) = ';' :: rest := skip_cons (by decide)
    have hlet : (keyword "let").Fails (';' :: rest) :=
      fails_keyword_of_head (by decide) (by decide) (by decide)
    refine ⟨hskip, Fails.optional (fails_firstOf ?_)⟩
    simp only [List.forall_mem_cons]
    exact ⟨(fails_localDecl_of_keyword hlet).bind,
      (fails_assignment_of_head (by decide) (by decide)).bind, by simp⟩
  | some i =>
    have hi := h i rfl
    cases i with
    | decl d =>
      refine ⟨?_, (takes_localDecl hi hlimit).bind_pure.firstOf.optional⟩
      change skip (d.text.toList ++ ';' :: rest) = d.text.toList ++ ';' :: rest
      rw [toList_text_local, List.append_assoc]
      exact skip_word (w := "let".toList) (by decide)
    | assign a =>
      have hstart : StartsExpr (a.text.toList ++ ';' :: rest) := startsExpr_assignment hi
      have hlet := fails_statementWords hstart.skip hstart.word "let" (by decide)
      exact ⟨hstart.skip, Takes.optional ((fails_localDecl_of_keyword hlet).bind.firstOf
        (takes_assignment hi (by decide) hlimit).bind_pure.firstOf)⟩

theorem takes_headerTest {test : Option Expr} (h : ∀ e, test = some e → e.Printable)
    (hlimit : (((test.map Expr.text).getD "").toList ++ ';' :: rest).length < limit) :
    skip (((test.map Expr.text).getD "").toList ++ ';' :: rest) =
        ((test.map Expr.text).getD "").toList ++ ';' :: rest ∧
      (optional (expr limit)).Takes (((test.map Expr.text).getD "").toList ++ ';' :: rest) test
        (';' :: rest) := by
  cases test with
  | none => exact ⟨skip_cons (by decide), (fails_expr (by decide)).optional⟩
  | some e =>
    obtain ⟨hskip, hread⟩ := (reads_of_printable e (h e rfl)).before (h e rfl) ';' rest (by decide) hlimit
    exact ⟨hskip, hread.optional⟩

theorem takes_headerStep (h : ∀ a, step = some a → spelled.Assignment a)
    (hlimit : (((step.map Assignment.text).getD "").toList ++ ')' :: rest).length < limit) :
    skip (((step.map Assignment.text).getD "").toList ++ ')' :: rest) =
        ((step.map Assignment.text).getD "").toList ++ ')' :: rest ∧
      (optional (assignment limit)).Takes
        (((step.map Assignment.text).getD "").toList ++ ')' :: rest) step (')' :: rest) := by
  cases step with
  | none => exact ⟨skip_cons (by decide), (fails_assignment_of_head (by decide) (by decide)).optional⟩
  | some a =>
    exact ⟨(startsExpr_assignment (h a rfl)).skip,
      (takes_assignment (h a rfl) (by decide) hlimit).optional⟩

theorem takes_loopHeader {test : Option Expr} (hinit : ∀ i, init = some i → spelled.Init i)
    (htest : ∀ e, test = some e → e.Printable) (hstep : ∀ a, step = some a → spelled.Assignment a)
    (hlimit : (headerChars init test step ++ ')' :: rest).length < limit) :
    (loopHeader limit).Takes ('(' :: (headerChars init test step ++ ')' :: rest)) (init, test, step)
      (skip rest) := by
  simp only [headerChars, List.append_assoc, List.cons_append] at hlimit ⊢
  have hlimit' := hlimit
  simp only [List.length_append, List.length_cons] at hlimit'
  have hstep' : (((step.map Assignment.text).getD "").toList ++ ')' :: rest).length < limit := by
    rw [List.length_append, List.length_cons]
    omega
  have htest' : (((test.map Expr.text).getD "").toList ++ ';' :: ' ' ::
      (((step.map Assignment.text).getD "").toList ++ ')' :: rest)).length < limit := by
    simp only [List.length_append, List.length_cons]
    omega
  obtain ⟨hinitSkip, hinitRead⟩ := takes_headerInit hinit hlimit
  obtain ⟨htestSkip, htestRead⟩ := takes_headerTest htest htest'
  obtain ⟨hstepSkip, hstepRead⟩ := takes_headerStep hstep hstep'
  rw [loopHeader_eq]
  refine Takes.between (by decide) (by decide) ?_
  rw [hinitSkip]
  refine (hinitRead.bind ((takes_symbol (by decide)).bind_pure)).bind ?_
  rw [skip_cons_blank (by decide), htestSkip]
  refine (htestRead.bind ((takes_symbol (by decide)).bind_pure)).bind ?_
  rw [skip_cons_blank (by decide), hstepSkip]
  exact hstepRead.bind_pure

theorem takes_stmt_for {test : Option Expr} (hinit : ∀ i, init = some i → spelled.Init i)
    (htest : ∀ e, test = some e → e.Printable) (hstep : ∀ a, step = some a → spelled.Assignment a)
    (hlimit : (headerChars init test step ++ ')' :: ' ' :: cs).length < limit)
    (hblock : block.Takes (skip cs) body rest) :
    (stmtWith limit block).Takes
      ("for".toList ++ ' ' :: '(' :: (headerChars init test step ++ ')' :: ' ' :: cs))
      (.for_ init test step body) rest := by
  have hends : EndsWord (' ' :: '(' :: (headerChars init test step ++ ')' :: ' ' :: cs)) :=
    endsWord_cons (by decide)
  have hread : (forStmt limit block).Takes
      ("for".toList ++ ' ' :: '(' :: (headerChars init test step ++ ')' :: ' ' :: cs))
      (.for_ init test step body) rest := by
    refine (takes_keyword "for" (by decide) hends).bind ?_
    rw [skip_cons_blank (by decide), skip_cons (by decide)]
    refine (takes_loopHeader hinit htest hstep hlimit).bind ?_
    rw [skip_cons_blank (by decide)]
    exact hblock.bind_pure
  exact takes_stmt_of_loops (fails_other_keyword (by decide) hends (by decide))
    (fails_other_keyword (by decide) hends (by decide)) hread.firstOf

/-! ### Branches -/

/-- What may follow the first branch. -/
def elsePart (limit : Nat) (block : Parser (List Stmt)) (more : Nat) : Parser (Option (List Stmt)) :=
  optional (do
    keyword "else"
    firstOf [block, (do return [← ifChain limit block more])])

theorem ifChain_succ (more : Nat) : ifChain limit block (more + 1) = (do
    keyword "if"
    let test ← condition limit
    let yes ← block
    let no ← elsePart limit block more
    return .cond test yes (no.getD [])) := rfl

/-- No `else` follows. -/
def NoElse (rest : List Char) : Prop := wordOf (skip rest) ≠ "else".toList

theorem fails_else (h : NoElse rest) : (keyword "else").Fails (skip rest) := by
  apply fails_keyword
  rwa [skip_skip]

theorem takes_ifChain {yes : List Stmt} {no : Option (List Stmt)} {more : Nat} (ht : test.Printable)
    (hlimit : (test.chars 0 ++ ')' :: ' ' :: cs).length < limit) {mid : List Char}
    (hyes : block.Takes (skip cs) yes mid) (hno : (elsePart limit block more).Takes mid no rest) :
    (ifChain limit block (more + 1)).Takes
      ("if".toList ++ ' ' :: '(' :: (test.chars 0 ++ ')' :: ' ' :: cs)) (.cond test yes (no.getD []))
      rest := by
  rw [ifChain_succ]
  refine (takes_keyword "if" (by decide) (endsWord_cons (by decide))).bind ?_
  rw [skip_cons_blank (by decide), skip_cons (by decide)]
  refine (takes_condition ht hlimit).bind ?_
  rw [skip_cons_blank (by decide)]
  exact hyes.bind hno.bind_pure

theorem takes_stmt_if (h : (ifChain limit block limit).Takes ("if".toList ++ ' ' :: cs) s rest) :
    (stmtWith limit block).Takes ("if".toList ++ ' ' :: cs) s rest := by
  have hlet : (keyword "let").Fails ("if".toList ++ ' ' :: cs) :=
    fails_other_keyword (by decide) (endsWord_cons (by decide)) (by decide)
  rw [stmtWith_eq]
  exact (fails_arrayDecl_of_keyword hlet).firstOf
    ((fails_localDecl_of_keyword hlet).bind.bind.firstOf h.firstOf)

/-! ### Blocks -/

/-- No statement begins with a closing brace. -/
theorem fails_stmt : (stmt limit).Fails ('\x7d' :: cs) := by
  cases limit with
  | zero => exact fun pos => ⟨_, rfl⟩
  | succ limit =>
    have hkey : ∀ text : String, text ≠ "" → (keyword text).Fails ('\x7d' :: cs) := fun text =>
      fails_keyword_of_head (by decide) (by decide)
    have hlet := hkey "let" (by decide)
    rw [stmt_succ, stmtWith_eq]
    apply fails_firstOf
    simp only [List.forall_mem_cons]
    refine ⟨fails_arrayDecl_of_keyword hlet, (fails_localDecl_of_keyword hlet).bind.bind,
      fails_ifChain (hkey "if" (by decide)) _, (hkey "for" (by decide)).bind,
      (hkey "while" (by decide)).bind, (hkey "return" (by decide)).bind, Fails.bind (fails_between ?_),
      (fails_assignment_of_head (by decide) (by decide)).bind.bind, (fails_expr (by decide)).bind.bind,
      by simp⟩
    rw [skip_cons (by decide)]
    simp

theorem skip_close (depth : Nat) : skip (blanks depth ++ '\x7d' :: rest) = '\x7d' :: rest := by
  rw [skip_blanks, skip_cons (by decide)]

/-- Statements in braces are read back, as many as may be asked for. -/
theorem takes_braces {count : Nat}
    (h : TakesAll (stmt limit) (skip (linesChars (depth + 1) body ++ (blanks depth ++ '\x7d' :: rest)))
      body ('\x7d' :: rest))
    (hcount : (blockChars depth body ++ rest).length ≤ count) :
    (between '\x7b' '\x7d' (many count (stmt limit))).Takes (blockChars depth body ++ rest) body
      (skip rest) := by
  have htext : blockChars depth body ++ rest =
      '\x7b' :: '\n' :: (linesChars (depth + 1) body ++ (blanks depth ++ '\x7d' :: rest)) := by
    simp [blockChars]
  rw [htext] at hcount ⊢
  refine Takes.between (by decide) (by decide) ?_
  rw [skip_cons_blank (by decide)]
  refine h.many fails_stmt ?_
  have hle := length_skip_le (linesChars (depth + 1) body ++ (blanks depth ++ '\x7d' :: rest))
  simp only [List.length_cons] at hcount
  omega

theorem fails_blockOf {c : Char} (hb : Text.isBlank c = false) (hc : c ≠ '\x7b') :
    (blockOf limit).Fails (c :: cs) := by
  apply fails_between
  rw [skip_cons hb]
  simpa using hc

/-! ### Reading back -/

/-- The text of the statement is read back where no `else` follows. -/
def ReadsStmt (s : Stmt) : Prop :=
  ∀ depth limit rest, NoElse rest → (stmtChars depth s ++ rest).length < limit →
    (stmt limit).Takes (stmtChars depth s ++ rest) s (skip rest)

/-- The branches with the test before them are read back as one chain. -/
def ReadsIf (test : Expr) (yes no : List Stmt) : Prop :=
  ∀ depth limit more rest, NoElse rest →
    (stmtChars depth (.cond test yes no) ++ rest).length ≤ limit →
    (stmtChars depth (.cond test yes no) ++ rest).length ≤ more →
    (ifChain (limit + 1) (blockOf limit) more).Takes (stmtChars depth (.cond test yes no) ++ rest)
      (.cond test yes no) (skip rest)

/-- The statements are read back from lines of their own. -/
def ReadsLines (body : List Stmt) : Prop :=
  ∀ depth limit rest, NoElse rest → (linesChars depth body ++ rest).length < limit →
    TakesAll (stmt limit) (skip (linesChars depth body ++ rest)) body (skip rest)

/-- The statements are read back from what follows the first branch. -/
def ReadsElse (no : List Stmt) : Prop :=
  ∀ depth limit more rest, NoElse rest → (elseChars depth no ++ rest).length ≤ limit →
    (elseChars depth no ++ rest).length ≤ more → ∃ found,
      (elsePart (limit + 1) (blockOf limit) more).Takes (skip (elseChars depth no ++ rest)) found
        (skip rest) ∧ found.getD [] = no

theorem noElse_close (depth : Nat) : NoElse (blanks depth ++ '\x7d' :: rest) := by
  rw [NoElse, skip_close, wordOf_cons (by decide)]
  decide

theorem ReadsLines.braces {count : Nat} (h : ReadsLines body)
    (hlimit : (blockChars depth body ++ rest).length ≤ limit)
    (hcount : (blockChars depth body ++ rest).length ≤ count) :
    (between '\x7b' '\x7d' (many count (stmt limit))).Takes (blockChars depth body ++ rest) body
      (skip rest) := by
  refine takes_braces ?_ hcount
  have hlines := h (depth + 1) limit (blanks depth ++ '\x7d' :: rest) (noElse_close depth) (by
    simp only [blockChars, List.length_append, List.length_cons] at hlimit ⊢
    omega)
  rwa [skip_close] at hlines

theorem ReadsLines.blockOf (h : ReadsLines body)
    (hlimit : (blockChars depth body ++ rest).length ≤ limit) :
    (Grammar.blockOf limit).Takes (blockChars depth body ++ rest) body (skip rest) :=
  h.braces hlimit (by omega)

theorem skip_blockChars (body : List Stmt) :
    skip (blockChars depth body ++ rest) = blockChars depth body ++ rest := skip_cons (by decide)

theorem readsIf {yes no : List Stmt} (ht : test.Printable) (hyes : ReadsLines yes)
    (hno : ReadsElse no) : ReadsIf test yes no := by
  intro depth limit more rest hrest hlimit hmore
  have htext : stmtChars depth (.cond test yes no) ++ rest = "if".toList ++ ' ' :: '(' ::
      (test.chars 0 ++ ')' :: ' ' :: (blockChars depth yes ++ (elseChars depth no ++ rest))) := by
    rw [stmtChars_cond]
    simp
  rw [htext] at hlimit hmore ⊢
  simp only [List.length_append, List.length_cons] at hlimit hmore
  obtain ⟨more, rfl⟩ : ∃ m, more = m + 1 := ⟨more - 1, by omega⟩
  obtain ⟨found, hfound, rfl⟩ := hno depth limit more rest hrest
    (by rw [List.length_append]; omega) (by rw [List.length_append]; omega)
  have hblock : (blockOf limit).Takes
      (skip (blockChars depth yes ++ (elseChars depth (found.getD []) ++ rest))) yes
      (skip (elseChars depth (found.getD []) ++ rest)) := by
    rw [skip_blockChars]
    exact hyes.blockOf (by simp only [List.length_append]; omega)
  refine takes_ifChain ht ?_ hblock hfound
  simp only [List.length_append, List.length_cons]
  omega

theorem readsElse_nil : ReadsElse [] := by
  intro depth limit more rest hrest hlimit hmore
  refine ⟨none, ?_, rfl⟩
  rw [elseChars_nil, List.nil_append]
  exact (fails_else hrest).bind.optional

theorem takes_else {no : List Stmt} {more : Nat} {c : Char} (hc : Text.isBlank c = false)
    (h : (firstOf [block, (do return [← ifChain limit block more])]).Takes (c :: cs) no rest) :
    (elsePart limit block more).Takes (skip (" else ".toList ++ c :: cs)) (some no) rest := by
  have htext : skip (" else ".toList ++ c :: cs) = "else".toList ++ ' ' :: c :: cs := rfl
  rw [htext]
  refine Takes.optional ((takes_keyword "else" (by decide) (endsWord_cons (by decide))).bind ?_)
  rwa [skip_cons_blank (by decide), skip_cons hc]

theorem readsElse_cond {yes no : List Stmt} (h : ReadsIf test yes no) :
    ReadsElse [.cond test yes no] := by
  intro depth limit more rest hrest hlimit hmore
  refine ⟨some [.cond test yes no], ?_, rfl⟩
  rw [elseChars_cond, List.append_assoc, List.length_append] at hlimit hmore
  rw [elseChars_cond, List.append_assoc]
  have hread := h depth limit more rest hrest (by omega) (by omega)
  rw [stmtChars_cond] at hread ⊢
  exact takes_else (c := 'i') (by decide)
    ((fails_blockOf (by decide) (by decide)).firstOf hread.bind_pure.firstOf)

theorem readsElse_block (h : ReadsLines (s :: body))
    (hne : ∀ test yes no, s :: body ≠ [.cond test yes no]) : ReadsElse (s :: body) := by
  intro depth limit more rest hrest hlimit hmore
  refine ⟨some (s :: body), ?_, rfl⟩
  rw [elseChars_block hne, List.append_assoc] at hlimit ⊢
  rw [List.length_append] at hlimit
  exact takes_else (by decide) (h.blockOf (by omega)).firstOf

theorem readsLines_nil : ReadsLines [] := by
  intro depth limit rest hrest hlimit
  rw [linesChars_nil, List.nil_append]
  exact .nil _

theorem readsLines_cons (hs : ReadsStmt s) (hbody : ReadsLines body)
    (hspell : spelled.Body (s :: body)) : ReadsLines (s :: body) := by
  intro depth limit rest hrest hlimit
  have hstart : StartsStmt (stmtChars depth s ++ '\n' :: (linesChars depth body ++ rest)) :=
    startsStmt hspell.1
  have htext : linesChars depth (s :: body) ++ rest =
      blanks depth ++ (stmtChars depth s ++ '\n' :: (linesChars depth body ++ rest)) := by
    rw [linesChars_cons]
    simp
  rw [htext] at hlimit ⊢
  rw [skip_blanks, hstart.skip]
  rw [List.length_append] at hlimit
  have hnext : NoElse ('\n' :: (linesChars depth body ++ rest)) := by
    rw [NoElse, skip_cons_blank (by decide)]
    cases body with
    | nil =>
      rw [linesChars_nil, List.nil_append]
      exact hrest
    | cons t body =>
      have hnext : StartsStmt (stmtChars depth t ++ '\n' :: (linesChars depth body ++ rest)) :=
        startsStmt hspell.2.1
      rw [linesChars_cons, List.append_assoc, List.append_assoc, List.cons_append, skip_blanks, hnext.skip]
      exact hnext.word
  have hread := hs depth limit _ hnext (by omega)
  rw [skip_cons_blank (by decide)] at hread
  simp only [List.length_append, List.length_cons] at hlimit
  have hle := length_skip_le (linesChars depth body ++ rest)
  rw [List.length_append] at hle
  refine .cons hread ?_ (hbody depth limit rest hrest ?_)
  · simp only [List.length_append, List.length_cons]
    omega
  · rw [List.length_append]
    omega

theorem readsStmt_of_if {yes no : List Stmt} (h : ReadsIf test yes no) :
    ReadsStmt (.cond test yes no) := by
  intro depth limit rest hrest hlimit
  obtain ⟨limit, rfl⟩ : ∃ n, limit = n + 1 := ⟨limit - 1, by omega⟩
  have hread := h depth limit (limit + 1) rest hrest (by omega) (by omega)
  rw [stmtChars_cond, List.append_assoc] at hread ⊢
  rw [stmt_succ]
  exact takes_stmt_if hread

theorem readsStmt_block (h : ReadsLines body) : ReadsStmt (.block body) := by
  intro depth limit rest hrest hlimit
  obtain ⟨limit, rfl⟩ : ∃ n, limit = n + 1 := ⟨limit - 1, by omega⟩
  rw [stmtChars_block] at hlimit ⊢
  rw [stmt_succ]
  exact takes_stmt_block (h.blockOf (by omega))

theorem readsStmt_while (ht : test.Printable) (h : ReadsLines body) :
    ReadsStmt (.while_ test body) := by
  intro depth limit rest hrest hlimit
  obtain ⟨limit, rfl⟩ : ∃ n, limit = n + 1 := ⟨limit - 1, by omega⟩
  have htext : stmtChars depth (.while_ test body) ++ rest = "while".toList ++ ' ' :: '(' ::
      (test.chars 0 ++ ')' :: ' ' :: (blockChars depth body ++ rest)) := by
    rw [stmtChars_while]
    simp
  rw [htext] at hlimit ⊢
  simp only [List.length_append, List.length_cons] at hlimit
  rw [stmt_succ]
  refine takes_stmt_while ht ?_ ?_
  · simp only [List.length_append, List.length_cons]
    omega
  · rw [skip_blockChars]
    exact h.blockOf (by rw [List.length_append]; omega)

theorem readsStmt_for {test : Option Expr} (hs : spelled.Stmt (.for_ init test step body))
    (h : ReadsLines body) : ReadsStmt (.for_ init test step body) := by
  intro depth limit rest hrest hlimit
  obtain ⟨limit, rfl⟩ : ∃ n, limit = n + 1 := ⟨limit - 1, by omega⟩
  have htext : stmtChars depth (.for_ init test step body) ++ rest = "for".toList ++ ' ' :: '(' ::
      (headerChars init test step ++ ')' :: ' ' :: (blockChars depth body ++ rest)) := by
    rw [stmtChars_for]
    simp
  rw [htext] at hlimit ⊢
  simp only [List.length_append, List.length_cons] at hlimit
  rw [stmt_succ]
  refine takes_stmt_for hs.1 hs.2.1 hs.2.2.1 ?_ ?_
  · simp only [List.length_append, List.length_cons]
    omega
  · rw [skip_blockChars]
    exact h.blockOf (by rw [List.length_append]; omega)

theorem readsStmt_ret {value : Option Expr} (h : ∀ e, value = some e → e.Printable) :
    ReadsStmt (.ret value) := by
  intro depth limit rest hrest hlimit
  obtain ⟨limit, rfl⟩ : ∃ n, limit = n + 1 := ⟨limit - 1, by omega⟩
  rw [stmt_succ]
  cases value with
  | none =>
    rw [stmtChars_ret_none, List.append_assoc]
    have hnone : (optional (expr (limit + 1))).Takes (skip ([] ++ ';' :: rest)) none (';' :: rest) := by
      rw [List.nil_append, skip_cons (by decide)]
      exact (fails_expr (by decide)).optional
    exact takes_stmt_ret [] (endsWord_cons (by decide)) hnone
  | some e =>
    have htext : stmtChars depth (.ret (some e)) ++ rest =
        "return".toList ++ ((' ' :: e.chars 0) ++ ';' :: rest) := by
      rw [stmtChars_ret_some]
      simp
    rw [htext] at hlimit ⊢
    simp only [List.length_append, List.length_cons] at hlimit
    obtain ⟨hskip, hread⟩ := (reads_of_printable e (h e rfl)).before (h e rfl) ';' rest (by decide)
      (show _ < limit + 1 by rw [List.length_append, List.length_cons]; omega)
    refine takes_stmt_ret (' ' :: e.chars 0) (endsWord_cons (by decide)) ?_
    rw [List.cons_append, skip_cons_blank (by decide), hskip]
    exact hread.optional

theorem StartsExpr.fails_blockOf (h : StartsExpr cs) : (blockOf limit).Fails cs := by
  obtain ⟨c, cs', rfl, hc⟩ := h.head
  have hskip := h.skip
  apply fails_between
  rw [hskip]
  intro he
  obtain rfl : c = '\x7b' := by simpa using he
  simp [isIdentPart] at hc

theorem readsStmt_expr {e : Expr} (he : e.Printable) : ReadsStmt (.expr e) := by
  intro depth limit rest hrest hlimit
  obtain ⟨limit, rfl⟩ : ∃ n, limit = n + 1 := ⟨limit - 1, by omega⟩
  rw [stmtChars_expr, List.append_assoc, List.singleton_append] at hlimit ⊢
  rw [stmt_succ]
  exact takes_stmt_expr he hlimit
    (startsExpr e 0 _ he (by omega) (endsWord_cons (by decide))).fails_blockOf

theorem readsStmt_assign {a : Assignment} (ha : spelled.Assignment a) : ReadsStmt (.assign a) := by
  intro depth limit rest hrest hlimit
  obtain ⟨limit, rfl⟩ : ∃ n, limit = n + 1 := ⟨limit - 1, by omega⟩
  rw [stmtChars_assign, List.append_assoc, List.singleton_append] at hlimit ⊢
  rw [stmt_succ]
  exact takes_stmt_assign ha hlimit (startsExpr_assignment ha).fails_blockOf

theorem readsStmt_decl {d : Local} (hd : spelled.Local d) (hplain : d.isPlain) :
    ReadsStmt (.decl d) := by
  intro depth limit rest hrest hlimit
  obtain ⟨limit, rfl⟩ : ∃ n, limit = n + 1 := ⟨limit - 1, by omega⟩
  rw [stmtChars_decl, List.append_assoc, List.singleton_append] at hlimit ⊢
  rw [stmt_succ]
  exact takes_stmt_decl hd hplain hlimit

theorem readsStmt_arrayDecl {x : String} {elem : Ty} {len : Expr} (hd : spelled.Array x elem len) :
    ReadsStmt (.arrayDecl x elem len) := by
  intro depth limit rest hrest hlimit
  obtain ⟨limit, rfl⟩ : ∃ n, limit = n + 1 := ⟨limit - 1, by omega⟩
  have htext : stmtChars depth (.arrayDecl x elem len) ++ rest = "let ".toList ++ (x.toList ++
      ':' :: ' ' :: '[' :: (elem.text.toList ++ ';' :: ' ' :: (len.chars 0 ++ ']' :: ';' :: rest))) := by
    rw [stmtChars_arrayDecl]
    simp
  rw [htext] at hlimit ⊢
  rw [stmt_succ]
  exact takes_stmt_arrayDecl hd hlimit

/-- Code that can be written down is read back from its text. For branches the induction also gives
how they are read after an `else`, and for lists how they are read there. -/
theorem reads_stmt (s : Stmt) (h : spelled.Stmt s) (hp : s.isPlain) :
    ReadsStmt s ∧ ∀ test yes no, s = .cond test yes no → ReadsIf test yes no := by
  induction s using Stmt.rec
    (motive_2 := fun body => spelled.Body body → plainIn body → ReadsLines body ∧ ReadsElse body) with
  | decl d => exact ⟨readsStmt_decl h hp, by simp⟩
  | arrayDecl x elem len => exact ⟨readsStmt_arrayDecl h, by simp⟩
  | assign a => exact ⟨readsStmt_assign h, by simp⟩
  | cond test yes no ihy ihn =>
    have hif := readsIf h.1 (ihy h.2.1 hp.1).1 (ihn h.2.2 hp.2).2
    refine ⟨readsStmt_of_if hif, ?_⟩
    intro test' yes' no' he
    obtain ⟨rfl, rfl, rfl⟩ := Stmt.cond.inj he
    exact hif
  | for_ init test step body ih => exact ⟨readsStmt_for h (ih h.2.2.2 hp).1, by simp⟩
  | while_ test body ih => exact ⟨readsStmt_while h.1 (ih h.2 hp).1, by simp⟩
  | ret value => exact ⟨readsStmt_ret h.2, by simp⟩
  | expr e => exact ⟨readsStmt_expr h, by simp⟩
  | block body ih => exact ⟨readsStmt_block (ih h hp).1, by simp⟩
  | nil => exact ⟨readsLines_nil, readsElse_nil⟩
  | cons s body ihs ihbody h hp =>
    have hlines := readsLines_cons (ihs h.1 hp.1).1 (ihbody h.2 hp.2).1 h
    refine ⟨hlines, ?_⟩
    by_cases hcond : ∃ test yes no, s :: body = [.cond test yes no]
    · obtain ⟨test, yes, no, hcond⟩ := hcond
      rw [hcond]
      exact readsElse_cond ((ihs h.1 hp.1).2 test yes no (List.cons.inj hcond).1)
    · exact readsElse_block hlines fun test yes no he => hcond ⟨test, yes, no, he⟩

/-- The body of a function is read back from its text. -/
theorem reads_lines (h : spelled.Body body) (hp : plainIn body) : ReadsLines body := by
  induction body with
  | nil => exact readsLines_nil
  | cons s body ih => exact readsLines_cons (reads_stmt s h.1 hp.1).1 (ih h.2 hp.2) h

end Grammar

end Fluxion
