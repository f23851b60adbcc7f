import Gondola.Parser.Expr

/-! Reading statements, blocks and programs. -/
namespace Gondola.Parser

def bindingWithin (bound : Nat) : Parse Binding := do
  let name ← ident
  let _ ← consume (.mark .colon)
  let type ← typeExpr bound
  return ⟨name, type⟩

def typeAfter (marks : List TokenKind) (bound : Nat) : Parse (Option TypeExpr) := do
  match ← takeAny marks with
  | some _ =>
    let type ← typeExpr bound
    return some type
  | none => return none

def payloadOf {α : Type} (item : Parse α) (bound : Nat) : Parse (List α) := do
  match ← take (.mark .lparen) with
  | some _ =>
    let (items, _) ← listOf (.mark .rparen) item bound
    return items
  | none => return []

def enumCaseWithin (bound : Nat) : Parse EnumCase := do
  let name ← ident
  let params ← payloadOf (typeExpr bound) bound
  return ⟨name, params⟩

def structFrom (bound : Nat) (t : Token) : Parse Stmt := do
  let name ← ident
  let _ ← consume (.mark .lbrace)
  let (fields, stop) ← listOf (.mark .rbrace) (bindingWithin bound) bound
  return .struct (t.span.through stop.span) ⟨name, fields⟩

def enumFrom (bound : Nat) (t : Token) : Parse Stmt := do
  let name ← ident
  let _ ← consume (.mark .lbrace)
  let (cases, stop) ← listOf (.mark .rbrace) (enumCaseWithin bound) bound
  return .enum (t.span.through stop.span) ⟨name, cases⟩

/-- A semicolon. It may be left out before a closing brace and at the end of input. -/
def terminator : Parse Unit := do
  let t ← advance
  match t.kind with
  | .mark .semicolon => return ()
  | .mark .rbrace | .eof => pushBack t
  | _ => unexpected t (.token (.mark .semicolon))

/-- The statements of a block up to its closing brace, and the place of the brace. -/
def stmtsBy (stmt : Parse Stmt) : Nat → Parse (Block × Span)
  | 0 => endless
  | n + 1 => do
    let t ← advance
    match t.kind with
    | .mark .rbrace => return ([], t.span)
    | .eof => unexpected t (.token (.mark .rbrace))
    | _ =>
      pushBack t
      let s ← stmt
      let (ss, stop) ← stmtsBy stmt n
      return (s :: ss, stop)

def blockBy (stmt : Parse Stmt) (bound : Nat) : Parse (Block × Span) := do
  let _ ← consume (.mark .lbrace)
  stmtsBy stmt bound

def clauseBy (stmt : Parse Stmt) (bound : Nat) : Parse (Clause × Span) := do
  let cond ← exprWithin bound
  let (body, stop) ← blockBy stmt bound
  return (⟨cond, body⟩, stop)

inductive Continuation where
  | clause | final | stop
  deriving DecidableEq, Repr

def continuation : Parse Continuation := do
  match ← take (.keyword .elifKw) with
  | some _ => return .clause
  | none =>
    match ← take (.keyword .elseKw) with
    | none => return .stop
    | some _ =>
      match ← take (.keyword .ifKw) with
      | some _ => return .clause
      | none => return .final

/-- The clauses after one that ended at `stop`, the last block if there is one, and where it ends. -/
def clausesBy (stmt : Parse Stmt) (bound : Nat) :
    Nat → Span → Parse (List Clause × Option Block × Span)
  | 0, _ => endless
  | n + 1, stop => do
    match ← continuation with
    | .clause =>
      let (c, stop') ← clauseBy stmt bound
      let (cs, otherwise, last) ← clausesBy stmt bound n stop'
      return (c :: cs, otherwise, last)
    | .final =>
      let (body, last) ← blockBy stmt bound
      return ([], some body, last)
    | .stop => return ([], none, stop)

def patternWithin (bound : Nat) : Parse Pattern := do
  let name ← ident
  let bindings ← payloadOf ident bound
  return ⟨name, bindings⟩

/-- The arms of a match up to its closing brace. A default arm is the last one. -/
def armsBy (stmt : Parse Stmt) (bound : Nat) : Nat → Parse (List Arm × Option Block × Span)
  | 0 => endless
  | n + 1 => do
    let t ← advance
    match t.kind with
    | .mark .rbrace => return ([], none, t.span)
    | .keyword .caseKw =>
      let pattern ← patternWithin bound
      let (body, _) ← blockBy stmt bound
      let (arms, otherwise, stop) ← armsBy stmt bound n
      return (⟨pattern, body⟩ :: arms, otherwise, stop)
    | .keyword .defaultKw =>
      let (body, _) ← blockBy stmt bound
      let stop ← consume (.mark .rbrace)
      return ([], some body, stop.span)
    | _ => unexpected t .matchArm

def letFrom (bound : Nat) (t : Token) : Parse Stmt := do
  let name ← ident
  let type ← typeAfter [.mark .colon] bound
  let _ ← consume (.mark .assign)
  let value ← exprWithin bound
  terminator
  return .letVar (t.span.through value.span) name type value

def returnFrom (bound : Nat) (t : Token) : Parse Stmt := do
  let next ← advance
  pushBack next
  match next.kind with
  | .mark .semicolon | .mark .rbrace | .eof =>
    terminator
    return .ret t.span none
  | _ =>
    let value ← exprWithin bound
    terminator
    return .ret (t.span.through value.span) (some value)

def ifFrom (stmt : Parse Stmt) (bound : Nat) (t : Token) : Parse Stmt := do
  let (first, stop) ← clauseBy stmt bound
  let (rest, otherwise, last) ← clausesBy stmt bound bound stop
  return .ifElse (t.span.through last) (first :: rest) otherwise

def whileFrom (stmt : Parse Stmt) (bound : Nat) (t : Token) : Parse Stmt := do
  let cond ← exprWithin bound
  let (body, stop) ← blockBy stmt bound
  return .whileLoop (t.span.through stop) cond body

/-- One name is the item; of two, the first is the index. -/
def loopVars : Parse LoopVars := do
  let first ← ident
  match ← take (.mark .comma) with
  | some _ =>
    let second ← ident
    return ⟨some first, second⟩
  | none => return ⟨none, first⟩

def forFrom (stmt : Parse Stmt) (bound : Nat) (t : Token) : Parse Stmt := do
  let vars ← loopVars
  let _ ← consume (.keyword .inKw)
  let iterable ← exprWithin bound
  let (body, stop) ← blockBy stmt bound
  return .forEach (t.span.through stop) vars iterable body

def matchFrom (stmt : Parse Stmt) (bound : Nat) (t : Token) : Parse Stmt := do
  let scrutinee ← exprWithin bound
  let _ ← consume (.mark .lbrace)
  let (arms, otherwise, stop) ← armsBy stmt bound bound
  return .matchOn (t.span.through stop) scrutinee arms otherwise

/-- A statement that starts with an expression: the expression itself, or an assignment to it. -/
def simpleFrom (bound : Nat) (t : Token) : Parse Stmt := do
  let e ← exprFrom bound t .lowest
  match ← take (.mark .assign) with
  | some _ =>
    if e.isPlace then
      let value ← exprWithin bound
      terminator
      return .assign (e.span.through value.span) e value
    else fail e.span .invalidTarget
  | none =>
    terminator
    return .expr e.span e

/-- A statement whose blocks hold statements read by `stmt`. -/
def stmtBy (stmt : Parse Stmt) (bound : Nat) : Parse Stmt := do
  let t ← advance
  match t.kind with
  | .keyword .letKw => letFrom bound t
  | .keyword .returnKw => returnFrom bound t
  | .keyword .ifKw => ifFrom stmt bound t
  | .keyword .whileKw => whileFrom stmt bound t
  | .keyword .forKw => forFrom stmt bound t
  | .keyword .matchKw => matchFrom stmt bound t
  | .keyword .structKw => structFrom bound t
  | .keyword .enumKw => enumFrom bound t
  | .keyword .fnKw => fail t.span .nestedFunction
  | _ => simpleFrom bound t

def stmtWithin : Nat → Parse Stmt
  | 0 => endless
  | n + 1 => stmtBy (stmtWithin n) n

def functionFrom (bound : Nat) (t : Token) : Parse Item := do
  let name ← ident
  let _ ← consume (.mark .lparen)
  let (params, _) ← listOf (.mark .rparen) (bindingWithin bound) bound
  let result ← typeAfter [.mark .colon, .mark .arrow] bound
  let (body, stop) ← blockBy (stmtWithin bound) bound
  return .function (t.span.through stop) ⟨name, params, result, body⟩

def itemsWithin (bound : Nat) : Nat → Parse (List Item)
  | 0 => endless
  | n + 1 => do
    let t ← advance
    match t.kind with
    | .eof => return []
    | .keyword .fnKw =>
      let f ← functionFrom bound t
      let rest ← itemsWithin bound n
      return f :: rest
    | _ =>
      pushBack t
      let s ← stmtWithin bound
      let rest ← itemsWithin bound n
      return .stmt s :: rest

end Gondola.Parser
