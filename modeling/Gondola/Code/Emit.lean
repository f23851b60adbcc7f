import Gondola.Code.Fragment
import Gondola.Layout
import Gondola.Typing.Table

/-! Writing a program in a target language: the parts that all targets share. -/
namespace Gondola

namespace Signature

/-- The place of an argument: the parameter with its label, or else its own position. -/
def slot (s : Signature) (position : Nat) (label : Option String) : Nat :=
  (label.bind s.position?).getD position

def fillSlots {α : Type} (s : Signature) :
    Nat → List (Option String × α) → List (Option α) → List (Option α)
  | _, [], slots => slots
  | i, (label, a) :: rest, slots => s.fillSlots (i + 1) rest (slots.set (s.slot i label) (some a))

def order {α : Type} (s : Signature) (args : List (Option String × α)) : List α :=
  (s.fillSlots 0 args (List.replicate args.length none)).filterMap id

end Signature

def Argument.labelled (a : Argument) : Option String × Expr := (a.label.map Ident.name, a.value)

namespace TypeTable

/-- The signature of a callee, unless a call of it builds a struct. -/
def signatureOf? (t : TypeTable) (callee : Expr) : Option Signature :=
  match t.typeOf? callee with
  | some (.function ps ls r) => some ⟨ps, ls, r⟩
  | _ => none

/-- Whether the target's own output shows a value as all other targets do. -/
def printsPlainly (t : TypeTable) (e : Expr) : Bool :=
  match t.typeOf? e with
  | some .int | some .string => true
  | _ => false

def isMap (t : TypeTable) (e : Expr) : Bool :=
  match t.typeOf? e with
  | some (.map ..) => true
  | _ => false

def builtinSymbol? (t : TypeTable) (callee : Expr) : Option (Node × Ident) :=
  match callee with
  | .symbol n x => if t.builtins.contains n.id then some (n, x) else none
  | _ => none

end TypeTable

/-- Code for an operand that has to bind at least as tightly as `min`. -/
def operandCode (level min : Precedence) (code : String) : String :=
  if level < min then "(" ++ code ++ ")" else code

def braced (code : String) : String := "\x7b" ++ code ++ "\x7d"

def callCode (callee : String) (args : List String) : String :=
  callee ++ "(" ++ commaSeparated args ++ ")"

/-- The types of a program and the spellings of the names in scope. -/
structure Context where
  types : TypeTable
  names : Names

def Context.use {ν : Type} (cx : Context) (n : Node) (x : Ident) : Fragment ν Unit :=
  Fragment.use ⟨n, x, cx.names⟩

def Context.spelled {ν : Type} (cx : Context) (n : Node) (x : Ident) : Fragment ν String := do
  cx.use n x
  return cx.names.spell x.name

/-- The names in scope, and what else a target keeps track of. -/
structure Writer (ε : Type) where
  names : Names
  extra : ε
  deriving Repr

abbrev Emit (ε ν : Type) := StateT (Writer ε) (Fragment ν)

namespace Emit

variable {ε ν α : Type}

def need (n : ν) : Emit ε ν Unit := fun w => do
  Fragment.need n
  return ((), w)

def render (f : Names → Fragment ν α) : Emit ε ν α := fun w => do
  let a ← f w.names
  return (a, w)

def space : Emit ε ν Namespace := fun w => return (w.names.space, w)

def declare (name : Ident) : Emit ε ν String := fun w =>
  let (text, names) := w.names.declare name
  return (text, { w with names := names })

def declareAll : List Ident → Emit ε ν (List String)
  | [] => return []
  | name :: rest => do
    let text ← declare name
    let texts ← declareAll rest
    return text :: texts

def param (name : Ident) : Emit ε ν String := fun w =>
  let (text, names) := w.names.param name
  return (text, { w with names := names })

def params : List Ident → Emit ε ν (List String)
  | [] => return []
  | name :: rest => do
    let text ← param name
    let texts ← params rest
    return text :: texts

def temp (stem : String) : Emit ε ν String := fun w =>
  let (text, names) := w.names.temp stem
  return (text, { w with names := names })

def mapNames (f : Names → Names) : Emit ε ν Unit := modify fun w => { w with names := f w.names }

def inScope (body : Emit ε ν α) : Emit ε ν α := do
  mapNames Names.enter
  let a ← body
  mapNames Names.leave
  return a

def inFunction (body : Emit ε ν α) : Emit ε ν α := do
  mapNames Names.enterFunction
  let a ← body
  mapNames Names.leaveFunction
  return a

def run (space : Namespace) (extra : ε) (body : Emit ε ν α) : Fragment ν α := do
  let (a, _) ← body ⟨{ space := space }, extra⟩
  return a

end Emit

end Gondola
