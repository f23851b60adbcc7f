import Gondola.Typing.Expr

/-! Statements: what they declare, and what they ask of their expressions. -/
namespace Gondola

namespace Checker

def checkCondition (scope : Nat) (cond : Expr) : Check Unit := do
  let t ← checkExpr scope cond
  expect .bool t cond.span

/-- The type of a new variable: the annotation if there is one, or else the type of its value. -/
def variableType (scope : Nat) (written : Option TypeExpr) (value : Expr) : Check Ty := do
  let actual ← checkExpr scope value
  match written with
  | none => return actual
  | some t =>
    let expected ← resolve scope t
    expect expected actual value.span
    return expected

def checkLet (scope : Nat) (name : Ident) (written : Option TypeExpr) (value : Expr) :
    Check Unit := do
  match ← variableType scope written value with
  | .void => reject value.span (.voidBinding name.name)
  | type => define scope name type

/-- The names of types are no places. -/
def checkAssign (scope : Nat) (target value : Expr) : Check Unit := do
  let expected ← checkExpr scope target
  match target, expected with
  | .symbol _ x, .metatype _ => reject target.span (.assignToType x.name)
  | _, _ =>
    let actual ← checkExpr scope value
    expect expected actual value.span

def checkReturn (scope : Nat) (result : Option Ty) (span : Span) (value : Option Expr) :
    Check Unit := do
  match result with
  | none => reject span .returnOutsideFunction
  | some expected =>
    match value with
    | none => expect expected .void span
    | some e =>
      let actual ← checkExpr scope e
      expect expected actual e.span

def itemType (scope : Nat) (iterable : Expr) : Check Ty := do
  match ← checkExpr scope iterable with
  | .list item => return item
  | other => reject iterable.span (.notIterable other)

def defineLoopVars (scope : Nat) (vars : LoopVars) (item : Ty) : Check Unit := do
  match vars.index with
  | none => define scope vars.item item
  | some index =>
    define scope index .int
    define scope vars.item item

/-- The types that a pattern's names are bound to. `seen` holds the cases of the arms before. -/
def patternTypes (enum : String) (cases : List (String × List Ty)) (seen : List String)
    (p : Pattern) : Check (List Ty) :=
  match cases.lookup p.name.name with
  | none => reject p.name.span (.undefinedCase enum p.name.name)
  | some params =>
    if seen.contains p.name.name then reject p.name.span (.duplicateCase p.name.name)
    else if p.bindings.length = params.length then return params
    else reject p.name.span (.patternArity p.name.name params.length p.bindings.length)

def structFields (scope : Nat) (done : List (String × Ty)) :
    List Binding → Check (List (String × Ty))
  | [] => return done
  | ⟨name, type⟩ :: rest => do
    if done.any (fun f => f.1 == name.name) then reject name.span (.redefinition name.name)
    else
      let t ← resolve scope type
      structFields scope (done ++ [(name.name, t)]) rest

def checkStruct (scope : Nat) (d : StructDecl) : Check Unit := do
  let fields ← structFields scope [] d.fields
  define scope d.name (.metatype (.struct d.name.name fields))

def enumCases (scope : Nat) (done : List (String × List Ty)) :
    List EnumCase → Check (List (String × List Ty))
  | [] => return done
  | ⟨name, params⟩ :: rest => do
    if done.any (fun c => c.1 == name.name) then reject name.span (.redefinition name.name)
    else
      let ts ← resolveAll scope params
      enumCases scope (done ++ [(name.name, ts)]) rest

def checkEnum (scope : Nat) (d : EnumDecl) : Check Unit := do
  let cases ← enumCases scope [] d.cases
  define scope d.name (.metatype (.enum d.name.name cases))

def resultType (scope : Nat) : Option TypeExpr → Check Ty
  | none => return .void
  | some t => resolve scope t

/-- Declares a function. Its name is bound before its body is checked, so that it may call itself. -/
def declareFunction (scope : Nat) (f : FunctionDecl) : Check Signature := do
  let types ← resolveAll scope (f.params.map Binding.type)
  let result ← resultType scope f.result
  let sig : Signature := ⟨types, f.params.map fun p => some p.name.name, result⟩
  define scope f.name sig.type
  modify fun c => { c with table := c.table.addFunction f.name.name sig }
  return sig

mutual
/-- Checks a statement in a scope. `result` is what the function around it returns, if there is one. -/
def checkStmt (scope : Nat) (result : Option Ty) : Stmt → Check Unit
  | .letVar _ x t e => checkLet scope x t e
  | .assign _ t e => checkAssign scope t e
  | .ret s e => checkReturn scope result s e
  | .expr _ e => do
    let _ ← checkExpr scope e
  | .ifElse _ cs o => do
    checkClauses scope result cs
    checkOtherwise scope result o
  | .whileLoop _ c b => do
    checkCondition scope c
    within scope fun inner => checkBlock inner result b
  | .forEach _ vs e b => do
    let item ← itemType scope e
    within scope fun inner => do
      defineLoopVars inner vs item
      checkBlock inner result b
  | .matchOn _ e as o => do
    match ← checkExpr scope e with
    | .enum name cases =>
      checkArms scope result name cases [] as
      checkOtherwise scope result o
    | other => reject e.span (.notAnEnum other)
  | .struct _ d => checkStruct scope d
  | .enum _ d => checkEnum scope d
def checkClauses (scope : Nat) (result : Option Ty) : List Clause → Check Unit
  | [] => return ()
  | ⟨c, b⟩ :: cs => do
    checkCondition scope c
    within scope fun inner => checkBlock inner result b
    checkClauses scope result cs
def checkArms (scope : Nat) (result : Option Ty) (enum : String) (cases : List (String × List Ty))
    (seen : List String) : List Arm → Check Unit
  | [] => return ()
  | ⟨p, b⟩ :: as => do
    let types ← patternTypes enum cases seen p
    within scope fun inner => do
      defineAll inner p.bindings types
      checkBlock inner result b
    checkArms scope result enum cases (p.name.name :: seen) as
def checkOtherwise (scope : Nat) (result : Option Ty) : Option (List Stmt) → Check Unit
  | none => return ()
  | some b => within scope fun inner => checkBlock inner result b
def checkBlock (scope : Nat) (result : Option Ty) : List Stmt → Check Unit
  | [] => return ()
  | s :: ss => do
    checkStmt scope result s
    checkBlock scope result ss
end

def checkFunction (scope : Nat) (f : FunctionDecl) : Check Unit := do
  let sig ← declareFunction scope f
  within scope fun inner => do
    defineAll inner (f.params.map Binding.name) sig.params
    checkBlock inner (some sig.result) f.body

def checkTopLevel (scope : Nat) : List Item → Check Unit
  | [] => return ()
  | .function _ f :: rest => do
    checkFunction scope f
    checkTopLevel scope rest
  | .stmt s :: rest => do
    checkStmt scope none s
    checkTopLevel scope rest

def checkProgram (p : Program) : Check Unit := do
  let scope ← enter Scopes.root
  checkTopLevel scope p.items

end Checker

end Gondola
