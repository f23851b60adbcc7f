import Gondola.Program

/-! Spellings of a program's names in a target language. Different names are spelled differently, and
no name is spelled like a reserved word or like a name that the output makes up for itself. -/
namespace Gondola

/-- The words that a target keeps for itself, and the start of the names of its library. -/
structure Namespace where
  reserved : List String
  library : Option String := none
  deriving Repr

namespace Namespace

/-- Whether a name starts like those of the library. Case does not count. -/
def inLibrary (ns : Namespace) (name : String) : Bool :=
  match ns.library with
  | none => false
  | some start => (name.toList.take start.length).map Char.toLower == start.toList

/-- Names that need an underscore more: those with a meaning of their own, and those that a name
with an underscore more could be taken for. -/
def taken (ns : Namespace) (name : String) : Bool :=
  ns.reserved.contains name || name.toList.getLast? == some '_' || ns.inLibrary name

def ident (ns : Namespace) (name : String) : String :=
  if ns.taken name then name ++ "_" else name

/-- A spelling that no name of a program has. -/
def fresh (ns : Namespace) (stem : String) (n : Nat) : String :=
  match ns.library with
  | some start => start ++ stem ++ toString n
  | none => stem ++ "_" ++ toString n ++ "_"

end Namespace

/-- How a declared name is spelled, whether it was declared outside of every function, and where. -/
structure Spelling where
  text : String
  global : Bool
  origin : Ident
  deriving DecidableEq, Repr

/-- The names in scope, innermost scope first. A name that hides a visible one gets a fresh spelling:
targets differ in where a new name is visible. -/
structure Names where
  space : Namespace
  scopes : List (List (String × Spelling)) := [[]]
  inFunction : Bool := false
  next : Nat := 0
  deriving Repr

namespace Names

def enter (n : Names) : Names := { n with scopes := [] :: n.scopes }

/-- The outermost scope is never left. -/
def leave (n : Names) : Names :=
  match n.scopes with
  | _ :: s :: rest => { n with scopes := s :: rest }
  | _ => n

def enterFunction (n : Names) : Names := { n.enter with inFunction := true }

def leaveFunction (n : Names) : Names := { n.leave with inFunction := false }

def lookup? (n : Names) (name : String) : Option Spelling :=
  n.scopes.findSome? fun scope => scope.lookup name

def insert (n : Names) (name : Ident) (text : String) : Names :=
  let entry := (name.name, (⟨text, !n.inFunction, name⟩ : Spelling))
  match n.scopes with
  | [] => { n with scopes := [[entry]] }
  | scope :: rest => { n with scopes := (entry :: scope) :: rest }

/-- A name for something that the program does not name. -/
def temp (n : Names) (stem : String) : String × Names :=
  (n.space.fresh stem n.next, { n with next := n.next + 1 })

def declare (n : Names) (name : Ident) : String × Names :=
  match n.lookup? name.name with
  | some _ =>
    let (text, n') := n.temp name.name
    (text, n'.insert name text)
  | none =>
    let text := n.space.ident name.name
    (text, n.insert name text)

/-- Declares a parameter. It keeps its name, since nothing in the function can mean the name that it
hides. -/
def param (n : Names) (name : Ident) : String × Names :=
  let text := n.space.ident name.name
  (text, n.insert name text)

def spell (n : Names) (name : String) : String :=
  match n.lookup? name with
  | some s => s.text
  | none => n.space.ident name

def isGlobalFromFunction (n : Names) (name : String) : Bool :=
  n.inFunction && (n.lookup? name).any Spelling.global

end Names

end Gondola
