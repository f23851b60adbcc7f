import Gondola.Typing.Check

/-! The types of expressions. -/
namespace Gondola

namespace BinaryOp

def operandType (op : BinaryOp) : Ty := if op.isLogical then .bool else .int

def resultType (op : BinaryOp) : Ty := if op.isComparison then .bool else op.operandType

end BinaryOp

def UnaryOp.type : UnaryOp → Ty
  | neg => .int
  | not => .bool

namespace Ty

/-- The type of a case of an enum: the enum itself if the case holds nothing, or else a function that
builds it. -/
def caseType (enum : String) (cases : List (String × List Ty)) (params : List Ty) : Ty :=
  if params.isEmpty then .enum enum cases
  else .function params (params.map fun _ => none) (.enum enum cases)

end Ty

namespace Checker

def symbolType (scope : Nat) (n : Node) (x : Ident) : Check Ty := do
  match ← lookup scope x.name with
  | none => reject x.span (.undefinedSymbol x.name)
  | some (found, d) =>
    if found = Scopes.root then
      modify fun c => { c with table := c.table.markBuiltin n.id }
    else
      modify fun c => { c with table := c.table.resolve n.id d.origin }
    return d.type

def fieldType (base : Ty) (baseSpan : Span) (x : Ident) : Check Ty :=
  match base with
  | .struct s fields =>
    match fields.lookup x.name with
    | some type => return type
    | none => reject x.span (.undefinedField (.struct s fields) x.name)
  | .metatype (.enum e cases) =>
    match cases.lookup x.name with
    | some params => return Ty.caseType e cases params
    | none => reject x.span (.undefinedCase e x.name)
  | other => reject baseSpan (.noFields other)

/-- The parameter that an argument binds: the one with its label, or the one at its position as long
as no argument before it had a label. -/
def parameterOf (sig : Signature) (position : Nat) (afterKeyword : Bool) (a : Argument) : Check Nat :=
  match a.label with
  | none => if afterKeyword then reject a.value.span .positionalAfterKeyword else return position
  | some label =>
    match sig.position? label.name with
    | some p => return p
    | none => reject label.span (.unknownKeyword label.name)

def argumentName (a : Argument) (position : Nat) : String :=
  match a.label with
  | some label => label.name
  | none => "#" ++ toString (position + 1)

def indexType (base place : Ty) (baseSpan placeSpan : Span) : Check Ty :=
  match base with
  | .list item => do
    expect .int place placeSpan
    return item
  | .map key value => do
    expect key place placeSpan
    return value
  | other => reject baseSpan (.notIndexable other)

def missingField? (given : List String) (fields : List (String × Ty)) : Option String :=
  (fields.find? fun f => !given.contains f.1).map Prod.fst

mutual
/-- Finds and records the type of an expression and of all its parts. -/
def checkExpr (scope : Nat) : Expr → Check Ty
  | .int n _ => recorded n (return .int)
  | .string n _ => recorded n (return .string)
  | .bool n _ => recorded n (return .bool)
  | .symbol n x => recorded n (symbolType scope n x)
  | .binary n op l r => recorded n do
    let lt ← checkExpr scope l
    expect op.operandType lt l.span
    let rt ← checkExpr scope r
    expect op.operandType rt r.span
    return op.resultType
  | .unary n op e => recorded n do
    let t ← checkExpr scope e
    expect op.type t e.span
    return op.type
  | .call n c as => recorded n do
    match ← checkExpr scope c with
    | .function ps ls r =>
      if as.length = ps.length then
        checkArguments scope ⟨ps, ls, r⟩ 0 [] false as
        return r
      else reject n.span (.arity ps.length as.length)
    | .metatype (.struct s fields) =>
      let given ← checkFields scope s fields [] as
      match missingField? given fields with
      | some field => reject n.span (.missingField s field)
      | none => return .struct s fields
    | other => reject c.span (.notCallable other)
  | .list n es => recorded n do
    let item ← checkItems scope .any es
    return .list item
  | .map n es => recorded n do
    let (key, value) ← checkEntries scope .any .any es
    return .map key value
  | .index n b i => recorded n do
    let bt ← checkExpr scope b
    let it ← checkExpr scope i
    indexType bt it b.span i.span
  | .field n b x => recorded n do
    let bt ← checkExpr scope b
    fieldType bt b.span x
/-- Arguments of a function from the one at `position` on. `bound` holds the parameters that have an
argument already. -/
def checkArguments (scope : Nat) (sig : Signature) (position : Nat) (bound : List Nat)
    (afterKeyword : Bool) : List Argument → Check Unit
  | [] => return ()
  | ⟨label, value⟩ :: as => do
    let p ← parameterOf sig position afterKeyword ⟨label, value⟩
    match sig.params[p]? with
    | none => throw (.internal .missingParameter)
    | some expected =>
      if bound.contains p then
        reject value.span (.duplicateArgument (argumentName ⟨label, value⟩ p))
      else
        let actual ← checkExpr scope value
        expect expected actual value.span
        checkArguments scope sig (position + 1) (p :: bound) (afterKeyword || label.isSome) as
/-- Arguments of a construction after the fields in `given`. All of them carry labels. -/
def checkFields (scope : Nat) (struct : String) (fields : List (String × Ty))
    (given : List String) : List Argument → Check (List String)
  | [] => return given
  | ⟨none, value⟩ :: _ => reject value.span (.positionalConstruction struct)
  | ⟨some label, value⟩ :: as =>
    match fields.lookup label.name with
    | none => reject label.span (.undefinedField (.struct struct fields) label.name)
    | some expected => do
      if given.contains label.name then
        reject label.span (.duplicateArgument label.name)
      else
        let actual ← checkExpr scope value
        expect expected actual value.span
        checkFields scope struct fields (label.name :: given) as
def checkItems (scope : Nat) (current : Ty) : List Expr → Check Ty
  | [] => return current
  | e :: es => do
    let t ← checkExpr scope e
    let next ← unify current t e.span
    checkItems scope next es
def checkEntries (scope : Nat) (key value : Ty) : List (Expr × Expr) → Check (Ty × Ty)
  | [] => return (key, value)
  | (k, v) :: es => do
    let kt ← checkExpr scope k
    let key' ← unify key kt k.span
    let vt ← checkExpr scope v
    let value' ← unify value vt v.span
    checkEntries scope key' value' es
end

end Checker

end Gondola
