import Gondola.Ty
import Gondola.Program

/-! The types found in a program, by the numbers of its expressions. -/
namespace Gondola

structure TypeTable where
  types : List (Nat × Ty) := []
  builtins : List Nat := []
  /-- Where the name of a symbol that stands for no built-in was declared. -/
  declarations : List (Nat × Ident) := []
  functions : List (String × Signature) := []
  deriving Repr, Inhabited

namespace TypeTable

/-- The last type recorded for a number is the one that counts. -/
def typeAt? (t : TypeTable) (id : Nat) : Option Ty := t.types.lookup id

def typeOf? (t : TypeTable) (e : Expr) : Option Ty := t.typeAt? e.id

def isBuiltin (t : TypeTable) (e : Expr) : Bool := t.builtins.contains e.id

def declarationAt? (t : TypeTable) (id : Nat) : Option Ident := t.declarations.lookup id

def function? (t : TypeTable) (name : String) : Option Signature := t.functions.lookup name

def size (t : TypeTable) : Nat := (t.types.map Prod.fst).eraseDups.length

def record (t : TypeTable) (id : Nat) (type : Ty) : TypeTable :=
  { t with types := (id, type) :: t.types }

def markBuiltin (t : TypeTable) (id : Nat) : TypeTable := { t with builtins := id :: t.builtins }

def resolve (t : TypeTable) (id : Nat) (origin : Ident) : TypeTable :=
  { t with declarations := (id, origin) :: t.declarations }

def addFunction (t : TypeTable) (name : String) (s : Signature) : TypeTable :=
  { t with functions := (name, s) :: t.functions }

end TypeTable

end Gondola
