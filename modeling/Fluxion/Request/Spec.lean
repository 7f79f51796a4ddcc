import Fluxion.Listing.Token

/-!
Lists of independent variables. An entry names a parameter, or gives its position, and may add an
element `[i]` or a range of elements `[lo:hi]`, both ends included.
-/

namespace Fluxion.Request

open Listing (Token)

/-- How an entry refers to a parameter. -/
inductive ParamRef where
  | name (x : String)
  | position (i : Nat)
deriving DecidableEq, Repr

/-- An entry as written. -/
structure Spec where
  param : ParamRef
  range : Option (Nat × Nat)
deriving DecidableEq, Repr

/-- Why a list is malformed. -/
inductive SpecFault where
  | character (offset : Nat)
  | token (t : Token)
  | index (found : Option Token)
  | bracket
  | comma (found : Token)
deriving Repr

/-- The message of a fault. -/
def SpecFault.message : SpecFault → String
  | .character offset => "unexpected character at offset " ++ toString offset
  | .token t => "unexpected " ++ t.text
  | .index none => "expected a non-negative index, found None"
  | .index (some t) => "expected a non-negative index, found Some(" ++ t.text ++ ")"
  | .bracket => "expected `]`"
  | .comma found => "expected `,`, found " ++ found.text

/-- The parameter a token refers to. -/
def ParamRef.ofToken : Token → Except SpecFault ParamRef
  | .ident x => .ok (.name x)
  | .int i => if i < 0 then .error (.token (.int i)) else .ok (.position i.toInt.toNat)
  | t => .error (.token t)

/-- The tokens after a part of a list, never more than before. -/
abbrev Shorter (ts : List Token) := { rest : List Token // rest.length ≤ ts.length }

/-- An index. -/
def takeIndex : (ts : List Token) → Except SpecFault (Nat × Shorter ts)
  | [] => .error (.index none)
  | .int i :: rest =>
    if i < 0 then .error (.index (some (.int i)))
    else .ok (i.toInt.toNat, ⟨rest, by simp⟩)
  | t :: _ => .error (.index (some t))

/-- The second end of a range, if there is a colon; else it is the first. -/
def takeUpper (lo : Nat) : (ts : List Token) → Except SpecFault (Nat × Shorter ts)
  | .colon :: rest => do
    let (hi, after) ← takeIndex rest
    return (hi, ⟨after.1, by have := after.2; simp; omega⟩)
  | ts => .ok (lo, ⟨ts, Nat.le_refl _⟩)

/-- A closing bracket. -/
def takeBracket : (ts : List Token) → Except SpecFault (Shorter ts)
  | .rightBracket :: rest => .ok ⟨rest, by simp⟩
  | _ => .error .bracket

/-- An element or range of elements in brackets, if there is one. -/
def takeRange : (ts : List Token) → Except SpecFault (Option (Nat × Nat) × Shorter ts)
  | .leftBracket :: ts => do
    let (lo, afterLo) ← takeIndex ts
    let (hi, afterHi) ← takeUpper lo afterLo.1
    let rest ← takeBracket afterHi.1
    return (some (lo, hi), ⟨rest.1, by
      have h₁ := rest.2
      have h₂ := afterHi.2
      have h₃ := afterLo.2
      simp
      omega⟩)
  | ts => .ok (none, ⟨ts, Nat.le_refl _⟩)

/-- Reads tokens into entries; a comma may follow the last. -/
def Spec.ofTokens : List Token → Except SpecFault (List Spec)
  | [] => .ok []
  | t :: ts => do
    let param ← ParamRef.ofToken t
    let (range, after) ← takeRange ts
    match _h : after.1 with
    | [] => return [⟨param, range⟩]
    | .comma :: rest => return ⟨param, range⟩ :: (← Spec.ofTokens rest)
    | found :: _ => throw (.comma found)
termination_by ts => ts.length
decreasing_by
  have := after.2
  simp [_h] at this
  simp
  omega

/-- Reads a list of independent variables. -/
def Spec.list (text : String) : Except SpecFault (List Spec) :=
  match Listing.tokens text with
  | .error span => .error (.character span.start)
  | .ok ts => Spec.ofTokens (ts.map (·.1))

end Fluxion.Request
