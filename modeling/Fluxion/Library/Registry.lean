import Fluxion.Library.Prelude

/-!
Derivatives given in the source. A definition `f_pushforward` or `f_pullback` in the namespace of
derivatives belongs to the overloads of `f` whose parameters it fits.
-/

namespace Fluxion.Library

/-- The two kinds of derivatives: along the parameters, and back from the result. -/
inductive DerivativeKind where
  | pushforward
  | pullback
deriving DecidableEq, Repr

namespace DerivativeKind

/-- The kind as shown in messages. -/
def text : DerivativeKind → String
  | .pushforward => "Pushforward"
  | .pullback => "Pullback"

/-- What a name of the kind ends with. -/
def ending : DerivativeKind → String
  | .pushforward => "_pushforward"
  | .pullback => "_pullback"

end DerivativeKind

/-- The parameter types of a pushforward. -/
def pushforwardParams (s : Signature) : List Ty := s.params ++ s.params.filterMap Ty.tangent?

/-- The parameter types of a pullback. -/
def pullbackParams (s : Signature) : List Ty :=
  s.params ++ (if s.ret = .float then [.float] else []) ++ s.params.filterMap Ty.adjoint?

/-- The parameter types of a derivative of a function. -/
def DerivativeKind.params : DerivativeKind → Signature → List Ty
  | .pushforward => pushforwardParams
  | .pullback => pullbackParams

/-- What is known about a function. -/
structure Entry where
  primal : Signature
  pushforward : Option Func
  pullback : Option Func
deriving Repr

namespace Entry

/-- The derivative of a kind. -/
def get? (e : Entry) : DerivativeKind → Option Func
  | .pushforward => e.pushforward
  | .pullback => e.pullback

/-- The entry with another derivative. -/
def set (e : Entry) (kind : DerivativeKind) (derivative : Func) : Entry :=
  match kind with
  | .pushforward => { e with pushforward := some derivative }
  | .pullback => { e with pullback := some derivative }

end Entry

/-- Why a derivative is refused. -/
inductive RegistryError where
  | badName (name : String)
  | noMatchingOverload (derivative primal : String)
  | duplicate (derivative : String) (primal : Signature) (kind : DerivativeKind)
deriving DecidableEq, Repr

/-- The message of a refusal. -/
def RegistryError.message : RegistryError → String
  | .badName name =>
    "`" ++ name ++ "` is not named `" ++ derivativeSpace ++ "::<function>_pushforward` or `_pullback`"
  | .noMatchingOverload derivative primal =>
    "`" ++ derivative ++ "` matches no overload of `" ++ primal ++ "`"
  | .duplicate derivative primal kind =>
    "`" ++ derivative ++ "` redefines the " ++ kind.text ++ " of " ++ primal.text

/-- The entries under the name of each function. -/
structure Registry where
  slots : List (String × List Entry)
deriving Repr

namespace Registry

/-- Nothing is known. -/
def empty : Registry := ⟨[]⟩

/-- The entries under a name. -/
def slot (r : Registry) (name : String) : List Entry := (r.slots.lookup name).getD []

/-- Replaces the entries under a name. -/
def setSlot (r : Registry) (name : String) (entries : List Entry) : Registry :=
  if r.slots.any (·.1 == name) then
    ⟨r.slots.map fun (key, old) => (key, if key == name then entries else old)⟩
  else ⟨r.slots ++ [(name, entries)]⟩

/-- The entry of a function. -/
def entry? (r : Registry) (primal : Signature) : Option Entry :=
  (r.slot primal.name).find? (·.primal == primal)

/-- The derivative of a function. -/
def get? (r : Registry) (kind : DerivativeKind) (primal : Signature) : Option Func :=
  (r.entry? primal).bind (·.get? kind)

/-- The number of functions with an entry. -/
def size (r : Registry) : Nat := (r.slots.map (·.2.length)).foldr (· + ·) 0

/-- The name after a beginning. -/
def dropStart? (start : List Char) (name : List Char) : Option (List Char) :=
  if start.isPrefixOf name then some (name.drop start.length) else none

/-- The name before an ending. -/
def dropEnd? (ending : List Char) (name : List Char) : Option (List Char) :=
  (dropStart? ending.reverse name.reverse).map List.reverse

/-- The function a derivative belongs to, and of which kind it is. -/
def splitName (name : String) : Option (String × DerivativeKind) := do
  let localName ← dropStart? (derivativeSpace ++ "::").toList name.toList
  let named (kind : DerivativeKind) : Option (String × DerivativeKind) :=
    (dropEnd? kind.ending.toList localName).map fun f => (String.ofList f, kind)
  (named .pushforward).or (named .pullback)

/-- Adds a derivative to the entry of each given function in turn. The first function that has one
already is the error; the functions before it keep what they got. -/
def record (derivative : Func) (kind : DerivativeKind) (entries : List Entry) :
    List Signature → List Entry × Option Signature
  | [] => (entries, none)
  | s :: rest =>
    match entries.find? (·.primal == s) with
    | none => record derivative kind (entries ++ [Entry.set ⟨s, none, none⟩ kind derivative]) rest
    | some e =>
      if (e.get? kind).isSome then (entries, some s)
      else
        let entries := entries.map fun e =>
          if e.primal == s then e.set kind derivative else e
        record derivative kind entries rest

/-- The signatures of the overloads that a derivative fits. -/
def matching (p : Program) (derivative : Func) (primal : String) (kind : DerivativeKind) :
    List Signature :=
  ((p.overloads primal).map Func.signature).filter fun s =>
    kind.params s == derivative.params.map (·.ty.erased)

/-- Registers a derivative for each overload it fits; gives the registry also after an error. -/
def register (r : Registry) (p : Program) (derivative : Func) :
    Registry × Except RegistryError Unit :=
  match splitName derivative.name with
  | none => (r, .error (.badName derivative.name))
  | some (primal, kind) =>
    match matching p derivative primal kind with
    | [] => (r, .error (.noMatchingOverload derivative.name primal))
    | signatures =>
      let (entries, taken) := record derivative kind (r.slot primal) signatures
      let r := r.setSlot primal entries
      match taken with
      | none => (r, .ok ())
      | some s => (r, .error (.duplicate derivative.name s kind))

/-- Registers the derivatives among the given functions of a program. -/
def registerAll (p : Program) (r : Registry) : List Func → Except RegistryError Registry
  | [] => .ok r
  | f :: rest =>
    if (splitName f.name).isSome then
      match r.register p f with
      | (r, .ok ()) => registerAll p r rest
      | (_, .error e) => .error e
    else registerAll p r rest

/-- All derivatives that a program gives. -/
def ofProgram (p : Program) : Except RegistryError Registry := registerAll p empty p

end Registry

end Fluxion.Library
