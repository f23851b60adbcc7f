import Gondola.Parser.State

/-! Reading types and expressions. An expression is read from its first token on: a primary, then every
operator that binds tighter than the context, each with the operand to its right. The number that the
recursive functions count down bounds the steps; it never runs out for a text no longer than it. -/
namespace Gondola.Parser

/-- One or more types between commas up to the closing angle bracket. -/
def typeArgs (type : Parse TypeExpr) : Nat → Parse (List TypeExpr × Token)
  | 0 => endless
  | n + 1 => do
    let t ← type
    match ← take (.mark .greater) with
    | some stop => return ([t], stop)
    | none =>
      let _ ← consume (.mark .comma)
      let (ts, stop) ← typeArgs type n
      return (t :: ts, stop)

def typeExpr : Nat → Parse TypeExpr
  | 0 => endless
  | n + 1 => do
    let name ← ident
    match ← take (.mark .less) with
    | none => return .mk name [] name.span
    | some _ =>
      let (args, stop) ← typeArgs (typeExpr n) n
      return .mk name args (name.span.through stop.span)

def maxInt : Nat := 9223372036854775807

def digitsValue (cs : List Char) : Nat := cs.foldl (fun n c => 10 * n + (c.toNat - '0'.toNat)) 0

def binaryOp? : TokenKind → Option BinaryOp
  | .keyword .orKw => some .or
  | .keyword .andKw => some .and
  | .mark .eqEq => some .eq
  | .mark .notEq => some .ne
  | .mark .less => some .lt
  | .mark .lessEq => some .le
  | .mark .greater => some .gt
  | .mark .greaterEq => some .ge
  | .mark .plus => some .add
  | .mark .minus => some .sub
  | .mark .star => some .mul
  | .mark .slash => some .div
  | .mark .percent => some .rem
  | _ => none

/-- How strongly a token binds to the expression on its left, if it can extend one at all. -/
def extensionPrecedence? : TokenKind → Option Precedence
  | .mark .lparen | .mark .lbracket | .mark .dot => some .call
  | k => (binaryOp? k).map BinaryOp.precedence

/-- How to read an expression that starts with a given token, in a context that takes only tighter
operators than the given level. -/
abbrev ExprReader := Token → Precedence → Parse Expr

def exprBy (read : ExprReader) (min : Precedence) : Parse Expr := do
  let t ← advance
  read t min

def entryBy (read : ExprReader) : Parse (Expr × Expr) := do
  let key ← exprBy read .lowest
  let _ ← consume (.mark .colon)
  let value ← exprBy read .lowest
  return (key, value)

/-- An argument. A name with a colon after it is the label of a keyword argument. -/
def argumentBy (read : ExprReader) : Parse Argument := do
  let first ← advance
  if first.kind = .identifier then
    let next ← advance
    if next.kind = .mark .colon then
      let value ← exprBy read .lowest
      return ⟨some ⟨first.text, first.span⟩, value⟩
    else
      pushBack next
      let value ← read first .lowest
      return ⟨none, value⟩
  else
    let value ← read first .lowest
    return ⟨none, value⟩

def unaryBy (read : ExprReader) (op : UnaryOp) (t : Token) : Parse Expr := do
  let operand ← exprBy read .unary
  let n ← node (t.span.through operand.span)
  return .unary n op operand

/-- What starts an expression: a literal, a name, a bracket or a unary operator. Parentheses leave no
node of their own and only widen the place of what they hold. -/
def primary (read : ExprReader) (bound : Nat) (t : Token) : Parse Expr :=
  match t.kind with
  | .identifier => do
    let n ← node t.span
    return .symbol n ⟨t.text, t.span⟩
  | .int => do
    let value := digitsValue t.text.toList
    if value ≤ maxInt then
      let n ← node t.span
      return .int n value
    else fail t.span (.intOutOfRange t.text)
  | .string => do
    let n ← node t.span
    return .string n t.text
  | .keyword .trueKw => do
    let n ← node t.span
    return .bool n true
  | .keyword .falseKw => do
    let n ← node t.span
    return .bool n false
  | .mark .lparen => do
    let e ← exprBy read .lowest
    let stop ← consume (.mark .rparen)
    return e.relocate (t.span.through stop.span)
  | .mark .lbracket => do
    let (items, stop) ← listOf (.mark .rbracket) (exprBy read .lowest) bound
    let n ← node (t.span.through stop.span)
    return .list n items
  | .mark .lbrace => do
    let (entries, stop) ← listOf (.mark .rbrace) (entryBy read) bound
    let n ← node (t.span.through stop.span)
    return .map n entries
  | .mark .minus => unaryBy read .neg t
  | .keyword .notKw => unaryBy read .not t
  | _ => unexpected t .expression

def extend (read : ExprReader) (bound : Nat) (t : Token) (lhs : Expr) (level : Precedence) :
    Parse Expr :=
  match t.kind with
  | .mark .lparen => do
    let (args, stop) ← listOf (.mark .rparen) (argumentBy read) bound
    let n ← node (lhs.span.through stop.span)
    return .call n lhs args
  | .mark .lbracket => do
    let place ← exprBy read .lowest
    let stop ← consume (.mark .rbracket)
    let n ← node (lhs.span.through stop.span)
    return .index n lhs place
  | .mark .dot => do
    let name ← ident
    let n ← node (lhs.span.through name.span)
    return .field n lhs name
  | k =>
    match binaryOp? k with
    | none => throw (.internal .notAnOperator)
    | some op => do
      let rhs ← exprBy read level
      let n ← node (lhs.span.through rhs.span)
      return .binary n op lhs rhs

/-- Extends `lhs` for as long as the next token binds tighter than `min`. Operators of one level
therefore group to the left. -/
def extendAll (read : ExprReader) (bound : Nat) (min : Precedence) : Nat → Expr → Parse Expr
  | 0, _ => endless
  | n + 1, lhs => do
    let t ← advance
    match extensionPrecedence? t.kind with
    | some level =>
      if min < level then
        let lhs' ← extend read bound t lhs level
        extendAll read bound min n lhs'
      else
        pushBack t
        return lhs
    | none =>
      pushBack t
      return lhs

def exprFrom : Nat → ExprReader
  | 0, _, _ => endless
  | n + 1, t, min => do
    let lhs ← primary (exprFrom n) n t
    extendAll (exprFrom n) n min n lhs

def exprWithin (bound : Nat) : Parse Expr := exprBy (exprFrom bound) .lowest

end Gondola.Parser
