import Gondola.Scope
import Gondola.Typing.Annotation
import Gondola.Typing.Table

/-! The state of checking, and its steps. -/
namespace Gondola

/-- What a name in scope stands for, and where it was declared. -/
structure Declared where
  type : Ty
  origin : Ident
  deriving Repr

/-- The scopes open so far, with what their names stand for, and the types found so far. -/
structure Checker where
  scopes : Scopes Declared
  table : TypeTable := {}
  deriving Repr

abbrev Check := StateT Checker (Except (Failure TypeError))

namespace Checker

def builtinNames : List (String × Declared) :=
  builtins.map fun (name, type) => (name, ⟨type, ⟨name, {}⟩⟩)

/-- The built-ins stand in the outermost scope, so that a program may hide them. -/
def new : Checker :=
  { scopes := ⟨[{ names := builtinNames, parent := none }]⟩ }

def reject {α : Type} (span : Span) (e : TypeError) : Check α := throw (.rejected ⟨span, e⟩)

def ofScopes {α : Type} : Except ScopeError α → Except (Failure TypeError) α
  | .ok a => .ok a
  | .error _ => .error (.internal .missingScope)

def enter (parent : Nat) : Check Nat := fun c =>
  let (scope, scopes) := c.scopes.enter parent
  .ok (scope, { c with scopes := scopes })

def leave (scope : Nat) : Check Unit := fun c =>
  match ofScopes (c.scopes.leave scope) with
  | .error e => .error e
  | .ok scopes => .ok ((), { c with scopes := scopes })

def within {α : Type} (parent : Nat) (step : Nat → Check α) : Check α := do
  let scope ← enter parent
  let a ← step scope
  leave scope
  return a

def lookup (scope : Nat) (name : String) : Check (Option (Nat × Declared)) := fun c =>
  match ofScopes (c.scopes.lookup scope name) with
  | .error e => .error e
  | .ok found => .ok (found, c)

def define (scope : Nat) (name : Ident) (type : Ty) : Check Unit := fun c =>
  match ofScopes (c.scopes.define scope name.name ⟨type, name⟩) with
  | .error e => .error e
  | .ok (.error _) => .error (.rejected ⟨name.span, .redefinition name.name⟩)
  | .ok (.ok scopes) => .ok ((), { c with scopes := scopes })

def defineAll (scope : Nat) : List Ident → List Ty → Check Unit
  | name :: names, type :: types => do
    define scope name type
    defineAll scope names types
  | _, _ => return ()

def resolve (scope : Nat) (t : TypeExpr) : Check Ty := fun c =>
  match t.resolve fun name => (ofScopes (c.scopes.lookup scope name)).map (·.map (·.2.type)) with
  | .error e => .error e
  | .ok type => .ok (type, c)

def resolveAll (scope : Nat) : List TypeExpr → Check (List Ty)
  | [] => return []
  | t :: ts => do
    let type ← resolve scope t
    let types ← resolveAll scope ts
    return type :: types

def expect (expected actual : Ty) (span : Span) : Check Unit :=
  if expected.compatible actual then return () else reject span (.mismatch expected actual)

def unify (current next : Ty) (span : Span) : Check Ty :=
  match current.unify next with
  | some t => return t
  | none => reject span (.mismatch current next)

def record (id : Nat) (type : Ty) : Check Unit :=
  modify fun c => { c with table := c.table.record id type }

def recorded (n : Node) (infer : Check Ty) : Check Ty := do
  let type ← infer
  record n.id type
  return type

end Checker

end Gondola
