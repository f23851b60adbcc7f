import Gondola.Code.Names

/-! Parts of the output, each with what it needs from elsewhere (helpers to define, types to declare) and
with the symbols of the program that it writes. -/
namespace Gondola

/-- A symbol of the program that the output writes, and the names in scope there. -/
structure Use where
  node : Node
  name : Ident
  names : Names
  deriving Repr

/-- A value with its needs and uses, in the order in which they came up. -/
structure Fragment (ν α : Type) where
  value : α
  needs : List ν := []
  uses : List Use := []

namespace Fragment

variable {ν α β : Type}

instance : Monad (Fragment ν) where
  pure a := ⟨a, [], []⟩
  bind x f :=
    let y := f x.value
    ⟨y.value, x.needs ++ y.needs, x.uses ++ y.uses⟩

@[simp] theorem value_pure (a : α) : (pure a : Fragment ν α).value = a := rfl

@[simp] theorem needs_pure (a : α) : (pure a : Fragment ν α).needs = [] := rfl

@[simp] theorem value_bind (x : Fragment ν α) (f : α → Fragment ν β) :
    (x >>= f).value = (f x.value).value := rfl

@[simp] theorem needs_bind (x : Fragment ν α) (f : α → Fragment ν β) :
    (x >>= f).needs = x.needs ++ (f x.value).needs := rfl

@[simp] theorem uses_pure (a : α) : (pure a : Fragment ν α).uses = [] := rfl

@[simp] theorem uses_bind (x : Fragment ν α) (f : α → Fragment ν β) :
    (x >>= f).uses = x.uses ++ (f x.value).uses := rfl

def need (n : ν) : Fragment ν Unit := ⟨(), [n], []⟩

def use (u : Use) : Fragment ν Unit := ⟨(), [], [u]⟩

def sequence : List (Fragment ν α) → Fragment ν (List α)
  | [] => return []
  | x :: xs => do
    let a ← x
    let as ← sequence xs
    return a :: as

end Fragment

end Gondola
