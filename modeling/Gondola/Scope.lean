/-! Nested scopes. Scopes stand in an arena and point to their parent by position. Leaving a scope
discards it and every scope that was entered after it, and their positions are used again. -/
namespace Gondola

structure Scope (α : Type) where
  names : List (String × α) := []
  parent : Option Nat
  deriving Repr

structure Scopes (α : Type) where
  arena : List (Scope α)
  deriving Repr

inductive ScopeError where
  /-- There is no scope at this position. -/
  | missing
  /-- The outermost scope cannot be left. -/
  | root
  /-- The parents form a cycle. -/
  | cyclic
  deriving DecidableEq, Repr

namespace Scopes

variable {α : Type}

def new : Scopes α := ⟨[{ parent := none }]⟩

def root : Nat := 0

def enter (s : Scopes α) (parent : Nat) : Nat × Scopes α :=
  (s.arena.length, ⟨s.arena ++ [{ parent := some parent }]⟩)

def leave (s : Scopes α) (scope : Nat) : Except ScopeError (Scopes α) :=
  if scope = root then .error .root else .ok ⟨s.arena.take scope⟩

/-- Binds a name in a scope. Gives the value back if the scope itself binds the name already; a binding
further out is hidden. -/
def define (s : Scopes α) (scope : Nat) (name : String) (value : α) :
    Except ScopeError (Except α (Scopes α)) :=
  match s.arena[scope]? with
  | none => .error .missing
  | some here =>
    match here.names.lookup name with
    | some _ => .ok (.error value)
    | none => .ok (.ok ⟨s.arena.set scope { here with names := (name, value) :: here.names }⟩)

def lookupFrom (arena : List (Scope α)) (name : String) :
    Nat → Nat → Except ScopeError (Option (Nat × α))
  | 0, _ => .error .cyclic
  | n + 1, scope =>
    match arena[scope]? with
    | none => .error .missing
    | some here =>
      match here.names.lookup name with
      | some value => .ok (some (scope, value))
      | none =>
        match here.parent with
        | none => .ok none
        | some parent => lookupFrom arena name n parent

/-- The nearest binding of a name, with the scope that holds it. -/
def lookup (s : Scopes α) (scope : Nat) (name : String) : Except ScopeError (Option (Nat × α)) :=
  lookupFrom s.arena name (s.arena.length + 1) scope

end Scopes

end Gondola
