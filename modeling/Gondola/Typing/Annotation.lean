import Gondola.Program
import Gondola.Typing.Error

/-! The type that an annotation stands for. -/
namespace Gondola

/-- How annotations find the types of names that are not built in. -/
abbrev TypeLookup := String → Except (Failure TypeError) (Option Ty)

def noNames : TypeLookup := fun _ => .ok none

namespace TypeExpr

def reject {α : Type} (span : Span) (e : TypeError) : Except (Failure TypeError) α :=
  .error (.rejected ⟨span, e⟩)

/-- A type that is neither a list nor a map, by its name alone. -/
def resolveName (lookup : TypeLookup) (name : Ident) : Except (Failure TypeError) Ty :=
  match Ty.atomic? name.name with
  | some t => .ok t
  | none =>
    match lookup name.name with
    | .error e => .error e
    | .ok (some (.metatype t)) => .ok t
    | .ok (some _) => reject name.span (.notAType name.name)
    | .ok none => reject name.span (.undefinedType name.name)

/-- Lists and maps take arguments and cannot be hidden. All other names take none, and what a name
stands for is asked before its arguments are counted. -/
def resolve (lookup : TypeLookup) : TypeExpr → Except (Failure TypeError) Ty
  | mk name args span =>
    if name.name = "list" then
      match args with
      | [item] =>
        match resolve lookup item with
        | .error e => .error e
        | .ok t => .ok (.list t)
      | _ => reject span (.typeArity name.name 1 args.length)
    else if name.name = "map" then
      match args with
      | [key, value] =>
        match resolve lookup key with
        | .error e => .error e
        | .ok k =>
          match resolve lookup value with
          | .error e => .error e
          | .ok v => .ok (.map k v)
      | _ => reject span (.typeArity name.name 2 args.length)
    else
      match resolveName lookup name with
      | .error e => .error e
      | .ok t => if args.isEmpty then .ok t else reject span (.typeArity name.name 0 args.length)

end TypeExpr

end Gondola
