/-! Types. `any` stands for a type that is not known, and fits every other one. -/
namespace Gondola

inductive Ty where
  | bool
  | int
  | string
  | void
  /-- A type that is not known: what built-ins take, and what an empty literal holds. -/
  | any
  | list (item : Ty)
  | map (key value : Ty)
  /-- The labels name the parameters for keyword arguments. They do not tell types apart. -/
  | function (params : List Ty) (labels : List (Option String)) (result : Ty)
  | struct (name : String) (fields : List (String × Ty))
  | enum (name : String) (cases : List (String × List Ty))
  /-- The type of a type's name where a value is wanted. -/
  | metatype (type : Ty)
  deriving Repr, Inhabited

structure Signature where
  params : List Ty
  labels : List (Option String)
  result : Ty
  deriving Repr, Inhabited

namespace Ty

mutual
/-- Equality up to labels. -/
def same : Ty → Ty → Bool
  | bool, b => match b with | bool => true | _ => false
  | int, b => match b with | int => true | _ => false
  | string, b => match b with | string => true | _ => false
  | void, b => match b with | void => true | _ => false
  | any, b => match b with | any => true | _ => false
  | list t, b => match b with | list u => same t u | _ => false
  | map k v, b => match b with | map k' v' => same k k' && same v v' | _ => false
  | function ps _ r, b =>
    match b with | function ps' _ r' => sameAll ps ps' && same r r' | _ => false
  | struct n fs, b => match b with | struct n' fs' => n == n' && sameFields fs fs' | _ => false
  | enum n cs, b => match b with | enum n' cs' => n == n' && sameCases cs cs' | _ => false
  | metatype t, b => match b with | metatype u => same t u | _ => false
def sameAll : List Ty → List Ty → Bool
  | [], us => us.isEmpty
  | t :: ts, us => match us with | [] => false | u :: us => same t u && sameAll ts us
def sameFields : List (String × Ty) → List (String × Ty) → Bool
  | [], gs => gs.isEmpty
  | (n, t) :: fs, gs =>
    match gs with | [] => false | (m, u) :: gs => n == m && same t u && sameFields fs gs
def sameCases : List (String × List Ty) → List (String × List Ty) → Bool
  | [], ds => ds.isEmpty
  | (n, ts) :: cs, ds =>
    match ds with | [] => false | (m, us) :: ds => n == m && sameAll ts us && sameCases cs ds
end

instance : BEq Ty := ⟨same⟩

mutual
/-- Whether a value of the second type may stand where the first is wanted: the two agree wherever
both are known. -/
def compatible : Ty → Ty → Bool
  | any, _ => true
  | bool, b => match b with | any | bool => true | _ => false
  | int, b => match b with | any | int => true | _ => false
  | string, b => match b with | any | string => true | _ => false
  | void, b => match b with | any | void => true | _ => false
  | list t, b => match b with | any => true | list u => compatible t u | _ => false
  | map k v, b =>
    match b with
    | any => true
    | map k' v' => compatible k k' && compatible v v'
    | _ => false
  | function ps _ r, b =>
    match b with
    | any => true
    | function ps' _ r' => compatible r r' && compatibleAll ps ps'
    | _ => false
  | struct n fs, b =>
    match b with
    | any => true
    | struct n' fs' => n == n' && compatibleFields fs fs'
    | _ => false
  | enum n cs, b =>
    match b with
    | any => true
    | enum n' cs' => n == n' && sameCases cs cs'
    | _ => false
  | metatype t, b => match b with | any => true | metatype u => compatible t u | _ => false
def compatibleAll : List Ty → List Ty → Bool
  | [], us => us.isEmpty
  | t :: ts, us => match us with | [] => false | u :: us => compatible t u && compatibleAll ts us
def compatibleFields : List (String × Ty) → List (String × Ty) → Bool
  | [], gs => gs.isEmpty
  | (n, t) :: fs, gs =>
    match gs with
    | [] => false
    | (m, u) :: gs => n == m && compatible t u && compatibleFields fs gs
end

/-- The type that two compatible values share. An unknown type gives way to the other one. -/
def unify (a b : Ty) : Option Ty :=
  if a.compatible b then
    match a with
    | any => some b
    | _ => some a
  else none

mutual
def text : Ty → String
  | bool => "bool"
  | int => "int"
  | string => "string"
  | void => "void"
  | any => "any"
  | list t => "list<" ++ t.text ++ ">"
  | map k v => "map<" ++ k.text ++ ", " ++ v.text ++ ">"
  | function ps _ r => "fn(" ++ textAll ps ++ ") -> " ++ r.text
  | struct n _ => n
  | enum n _ => n
  | metatype t => "type " ++ t.text
def textAll : List Ty → String
  | [] => ""
  | t :: ts => t.text ++ textRest ts
def textRest : List Ty → String
  | [] => ""
  | t :: ts => ", " ++ t.text ++ textRest ts
end

def atomic? (name : String) : Option Ty :=
  [("bool", bool), ("int", int), ("string", string), ("void", void)].lookup name

end Ty

namespace Signature

def type (s : Signature) : Ty := .function s.params s.labels s.result

def position? (s : Signature) (label : String) : Option Nat :=
  s.labels.findIdx? (· == some label)

def print : Signature := ⟨[.any], [some "value"], .void⟩

end Signature

def builtins : List (String × Ty) := [("print", Signature.print.type)]

end Gondola
