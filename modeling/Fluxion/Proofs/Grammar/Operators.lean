import Mathlib.Data.List.Basic
import Mathlib.Tactic.IntervalCases
import Fluxion.Grammar.Expression
import Fluxion.Proofs.Grammar.Literals

/-!
How operators are read back. The levels of binary operators are numbered from the tightest, and an
expression of one level is a chain: an operand of the next tighter level, and then operators of the
level with an operand each. What may follow decides where a chain ends.
-/

namespace Fluxion.Grammar

open Fluxion.Grammar.Parser

variable {cs rest mid : List Char} {e : Expr}

/-! ### Levels -/

/-- The operators of one precedence. -/
def opsAt : Nat → Parser BinOp
  | 1 => sign "||" .or
  | 2 => sign "&&" .and
  | 3 => firstOf [sign "==" .eq, sign "!=" .ne]
  | 4 => firstOf [sign "<=" .le, sign ">=" .ge, sign "<" .lt, sign ">" .gt]
  | 5 => arithmetic [sign "+" .add, sign "-" .sub]
  | _ => arithmetic [sign "*" .mul, sign "/" .div, sign "%" .rem]

/-- The levels of an expression: unary operators alone, and above them binary operators from the
tightest. -/
def tier (limit : Nat) (inner : Parser Expr) : Nat → Parser Expr
  | 0 => unary limit inner
  | d + 1 => level limit (tier limit inner d) (opsAt (6 - d))

theorem expr_succ (limit : Nat) : expr (limit + 1) = tier (limit + 1) (expr limit) 6 := rfl

/-- The characters that operators of one precedence begin with. -/
def leads : Nat → List Char
  | 1 => ['|']
  | 2 => ['&']
  | 3 => ['=', '!']
  | 4 => ['<', '>']
  | 5 => ['+', '-']
  | _ => ['*', '/', '%']

theorem takes_opsAt (op : BinOp) (cs : List Char) :
    (opsAt op.precedence).Takes (op.symbol.toList ++ ' ' :: cs) op (' ' :: cs) := by
  intro pos
  cases op <;> exact ⟨_, _, rfl⟩

theorem fails_sign {α : Type} {text : String} {a : α} {c : Char} (htext : text.toList.head? = some c)
    (h : ∀ d ∈ cs.head?, d ≠ c) : (sign text a).Fails cs := by
  apply Fails.bind
  apply fails_word
  intro hp
  obtain ⟨t, rfl⟩ := hp
  refine h c ?_ rfl
  rw [List.head?_append, htext]
  rfl

/-- An operator of a level begins with one of the level's characters. -/
theorem fails_opsAt {k : Nat} (h : ∀ c ∈ cs.head?, c ∉ leads k) : (opsAt k).Fails cs := by
  unfold opsAt
  unfold leads at h
  split at h <;> simp only [List.mem_cons, List.not_mem_nil, or_false, not_or] at h
  · exact fails_sign rfl h
  · exact fails_sign rfl h
  · exact fails_firstOf (by simpa using
      ⟨fails_sign rfl fun c hc => (h c hc).1, fails_sign rfl fun c hc => (h c hc).2⟩)
  · exact fails_firstOf (by simpa using
      ⟨fails_sign rfl fun c hc => (h c hc).1, fails_sign rfl fun c hc => (h c hc).2,
        fails_sign rfl fun c hc => (h c hc).1, fails_sign rfl fun c hc => (h c hc).2⟩)
  · exact Fails.bind (fails_firstOf (by simpa using
      ⟨fails_sign rfl fun c hc => (h c hc).1, fails_sign rfl fun c hc => (h c hc).2⟩))
  · exact Fails.bind (fails_firstOf (by simpa using
      ⟨fails_sign rfl fun c hc => (h c hc).1, fails_sign rfl fun c hc => (h c hc).2.1,
        fails_sign rfl fun c hc => (h c hc).2.2⟩))

/-! ### What may follow -/

/-- What may follow an expression of one level: a closing character, or an operator that binds less
tightly. -/
def Follows (k : Nat) (rest : List Char) : Prop :=
  (∃ c cs, rest = c :: cs ∧ c ∈ [')', ']', ',', ';']) ∨
    ∃ op cs, BinOp.precedence op < k ∧ rest = ' ' :: (op.symbol.toList ++ ' ' :: cs)

namespace Follows

variable {k : Nat}

theorem close {c : Char} (h : c ∈ [')', ']', ',', ';']) : Follows k (c :: cs) := .inl ⟨c, cs, rfl, h⟩

theorem operator {op : BinOp} (h : op.precedence < k) :
    Follows k (' ' :: (op.symbol.toList ++ ' ' :: cs)) := .inr ⟨op, cs, h, rfl⟩

theorem mono {m : Nat} (h : Follows k rest) (hkm : k ≤ m) : Follows m rest :=
  h.imp_right fun ⟨op, cs, hop, hrest⟩ => ⟨op, cs, by omega, hrest⟩

theorem head_mem (h : Follows k rest) : ∃ c cs, rest = c :: cs ∧ c ∈ [' ', ')', ']', ',', ';'] := by
  rcases h with ⟨c, cs, rfl, hc⟩ | ⟨op, cs, _, rfl⟩
  · exact ⟨c, cs, rfl, List.mem_cons_of_mem _ hc⟩
  · exact ⟨' ', _, rfl, List.mem_cons_self⟩

theorem endsWord (h : Follows k rest) : EndsWord rest := by
  obtain ⟨c, cs, rfl, hc⟩ := h.head_mem
  apply endsWord_cons
  simp only [List.mem_cons, List.not_mem_nil, or_false] at hc
  rcases hc with rfl | rfl | rfl | rfl | rfl <;> decide

theorem endsNumber (h : Follows k rest) : EndsNumber rest := by
  refine ⟨h.endsWord, ?_⟩
  obtain ⟨c, cs, rfl, hc⟩ := h.head_mem
  rintro he
  obtain rfl : c = '.' := by simpa using he
  simp at hc

/-- The first character that is no blank closes the expression or begins an operator. -/
theorem head_skip_mem (h : Follows k rest) :
    ∃ c cs, skip rest = c :: cs ∧ c ∈ [')', ']', ',', ';', '|', '&', '=', '!', '<', '>', '+', '-', '*',
      '/', '%'] := by
  rcases h with ⟨c, cs, rfl, hc⟩ | ⟨op, cs, _, rfl⟩
  · refine ⟨c, cs, skip_cons ?_, ?_⟩
    all_goals
      simp only [List.mem_cons, List.not_mem_nil, or_false] at hc
      rcases hc with rfl | rfl | rfl | rfl <;> decide
  · rw [skip_cons_blank (by decide)]
    cases op <;> exact ⟨_, _, skip_cons (by decide), by decide⟩

theorem head_skip_ne (h : Follows k rest) {c : Char} (hc : c ∈ [':', '(', '[']) :
    (skip rest).head? ≠ some c := by
  obtain ⟨d, cs, hrest, hd⟩ := h.head_skip_mem
  rw [hrest, List.head?_cons]
  rintro ⟨rfl⟩
  simp only [List.mem_cons, List.not_mem_nil, or_false] at hc
  rcases hc with rfl | rfl | rfl <;> simp at hd

theorem endsPath (h : Follows k rest) : EndsPath rest := ⟨h.endsWord, h.head_skip_ne (by simp)⟩

/-- No operator of the level follows. -/
theorem fails_ops (h : Follows k rest) (hk : 1 ≤ k) (hk6 : k ≤ 6) :
    (padded (opsAt k)).Fails (skip rest) := by
  apply Fails.padded
  rw [skip_skip]
  apply fails_opsAt
  rcases h with ⟨c, cs, rfl, hc⟩ | ⟨op, cs, hop, rfl⟩
  · have hb : Text.isBlank c = false := by
      simp only [List.mem_cons, List.not_mem_nil, or_false] at hc
      rcases hc with rfl | rfl | rfl | rfl <;> decide
    rw [skip_cons hb]
    intro d hd
    obtain rfl : c = d := by simpa using hd
    simp only [List.mem_cons, List.not_mem_nil, or_false] at hc
    interval_cases k <;> rcases hc with rfl | rfl | rfl | rfl <;> decide
  · rw [skip_cons_blank (by decide)]
    have hlead : ∃ c cs', op.symbol.toList ++ ' ' :: cs = c :: cs' ∧ Text.isBlank c = false ∧
        c ∉ leads k := by
      interval_cases k <;> cases op <;> first
        | exact absurd hop (by decide)
        | exact ⟨_, _, rfl, by decide, by decide⟩
    obtain ⟨c, cs', hcs, hb, hc⟩ := hlead
    rw [hcs, skip_cons hb]
    simpa using hc

end Follows

/-! ### Chains -/

/-- An operator and its right operand. -/
def link (operand : Parser Expr) (ops : Parser BinOp) : Parser (BinOp × Expr) := do
  let op ← padded ops
  let rhs ← operand
  return (op, rhs)

/-- What operands joined by operators stand for. -/
def joined (first : Expr) (links : List (BinOp × Expr)) : Expr :=
  links.foldl (fun lhs (op, rhs) => .binary op lhs rhs) first

theorem level_eq (limit : Nat) (operand : Parser Expr) (ops : Parser BinOp) :
    level limit operand ops = (do
      let first ← operand
      let links ← many limit (link operand ops)
      return joined first links) := rfl

/-- The text begins with operands joined by operators. -/
def Chained (operand : Parser Expr) (ops : Parser BinOp) (cs : List Char) (e : Expr)
    (rest : List Char) : Prop :=
  ∃ first links mid, operand.Takes cs first mid ∧ mid.length ≤ cs.length ∧
    TakesAll (link operand ops) mid links rest ∧ e = joined first links

namespace Chained

variable {operand : Parser Expr} {ops : Parser BinOp}

theorem of_takes (h : operand.Takes cs e rest) (hle : rest.length ≤ cs.length) :
    Chained operand ops cs e rest := ⟨e, [], rest, h, hle, .nil rest, rfl⟩

/-- A chain is continued by one more operator and operand. -/
theorem concat {op : BinOp} {rhs : Expr} (h : Chained operand ops cs e mid)
    (hlink : (link operand ops).Takes mid (op, rhs) rest) (hlt : rest.length < mid.length) :
    Chained operand ops cs (.binary op e rhs) rest := by
  obtain ⟨first, links, start, hfirst, hle, hlinks, rfl⟩ := h
  exact ⟨first, links ++ [(op, rhs)], start, hfirst, hle, hlinks.concat hlink hlt,
    by simp [joined, List.foldl_append]⟩

theorem level {limit : Nat} (h : Chained operand ops cs e rest) (hend : (padded ops).Fails rest)
    (hlimit : cs.length ≤ limit) : (level limit operand ops).Takes cs e rest := by
  obtain ⟨first, links, mid, hfirst, hle, hlinks, rfl⟩ := h
  rw [level_eq]
  exact hfirst.bind (hlinks.many hend.bind (by omega)).bind_pure

end Chained

/-! ### Unary operators -/

/-- A unary operator. -/
def prefixOp : Parser UnOp := padded (firstOf
  [sign "-" .neg,
   (do
    word "!"
    ahead '='
    return .not)])

theorem unary_eq (limit : Nat) (inner : Parser Expr) : unary limit inner = (do
    let ops ← many limit prefixOp
    let operand ← atom limit inner
    return ops.foldr .unary operand) := rfl

/-- The text begins with unary operators before an operand. -/
def Prefixed (operand : Parser Expr) (cs : List Char) (e : Expr) (rest : List Char) : Prop :=
  ∃ ops last mid, TakesAll prefixOp cs ops mid ∧ prefixOp.Fails mid ∧ operand.Takes mid last rest ∧
    e = ops.foldr .unary last

theorem fails_prefixOp {c : Char} (hb : Text.isBlank c = false) (hc : c ≠ '-') (hc' : c ≠ '!') :
    prefixOp.Fails (c :: cs) := by
  apply Fails.padded
  rw [skip_cons hb]
  apply fails_firstOf
  simp only [List.mem_cons, List.not_mem_nil, or_false, forall_eq_or_imp, forall_eq]
  refine ⟨fails_sign (c := '-') rfl (by simpa using hc), Fails.bind (fails_word ?_)⟩
  intro hp
  have : '!' = c := by simpa using hp
  exact hc' this.symm

/-- A unary operator is read before the operand that follows. -/
theorem takes_prefixOp (op : UnOp) {c : Char} (hb : Text.isBlank c = false) (hc : c ≠ '=') :
    prefixOp.Takes (op.symbol.toList ++ c :: cs) op (c :: cs) := by
  have hstart : skip (op.symbol.toList ++ c :: cs) = op.symbol.toList ++ c :: cs := by
    cases op <;> exact skip_cons (by decide)
  have hread : (firstOf [sign "-" UnOp.neg, (do word "!"; ahead '='; return .not)]).Takes
      (op.symbol.toList ++ c :: cs) op (c :: cs) := by
    cases op with
    | neg => exact (takes_word "-").bind_pure.firstOf
    | not =>
      refine Fails.firstOf (fails_sign (c := '-') rfl ?_)
        ((takes_word "!").bind (takes_ahead hc).bind_pure).firstOf
      intro d hd
      obtain rfl : '!' = d := by simpa [UnOp.symbol] using hd
      decide
  have hpad : prefixOp.Takes (op.symbol.toList ++ c :: cs) op (skip (c :: cs)) :=
    Takes.padded (by rw [hstart]; exact hread)
  rwa [skip_cons hb] at hpad

namespace Prefixed

variable {operand : Parser Expr}

theorem of_takes (h : operand.Takes cs e rest) (hcs : prefixOp.Fails cs) :
    Prefixed operand cs e rest := ⟨[], e, cs, .nil cs, hcs, h, rfl⟩

theorem cons {op : UnOp} (h : Prefixed operand mid e rest) (hop : prefixOp.Takes cs op mid)
    (hlt : mid.length < cs.length) : Prefixed operand cs (.unary op e) rest := by
  obtain ⟨ops, last, start, hops, hend, hlast, rfl⟩ := h
  exact ⟨op :: ops, last, start, .cons hop hlt hops, hend, hlast, rfl⟩

theorem unary {limit : Nat} {inner : Parser Expr} (h : Prefixed (atom limit inner) cs e rest)
    (hlimit : cs.length ≤ limit) : (unary limit inner).Takes cs e rest := by
  obtain ⟨ops, last, mid, hops, hend, hlast, rfl⟩ := h
  rw [unary_eq]
  exact (hops.many hend hlimit).bind hlast.bind_pure

end Prefixed

end Fluxion.Grammar
