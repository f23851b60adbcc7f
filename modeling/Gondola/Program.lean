import Gondola.Operator
import Gondola.Span

/-! Programs as trees. Every node has its place in the source, and every expression a number that
tells it apart from the others of the same program. -/
namespace Gondola

structure Ident where
  name : String
  span : Span
  deriving DecidableEq, Repr, Inhabited

/-- A written type: a name, with arguments in angle brackets if there are any. -/
inductive TypeExpr where
  | mk (name : Ident) (args : List TypeExpr) (span : Span)
  deriving Repr, Inhabited

namespace TypeExpr

def name : TypeExpr → Ident
  | mk name _ _ => name

def args : TypeExpr → List TypeExpr
  | mk _ args _ => args

def span : TypeExpr → Span
  | mk _ _ span => span

mutual
def text : TypeExpr → String
  | mk name [] _ => name.name
  | mk name (arg :: args) _ => name.name ++ "<" ++ arg.text ++ textRest args ++ ">"
def textRest : List TypeExpr → String
  | [] => ""
  | arg :: args => ", " ++ arg.text ++ textRest args
end

end TypeExpr

/-- What every expression carries beside its shape. -/
structure Node where
  id : Nat
  span : Span
  deriving DecidableEq, Repr, Inhabited

mutual
inductive Expr where
  | int (node : Node) (value : Nat)
  | string (node : Node) (text : String)
  | bool (node : Node) (value : Bool)
  | symbol (node : Node) (name : Ident)
  | binary (node : Node) (op : BinaryOp) (lhs rhs : Expr)
  | unary (node : Node) (op : UnaryOp) (operand : Expr)
  | call (node : Node) (callee : Expr) (args : List Argument)
  | list (node : Node) (items : List Expr)
  | map (node : Node) (entries : List (Expr × Expr))
  | index (node : Node) (base place : Expr)
  | field (node : Node) (base : Expr) (name : Ident)

/-- An argument of a call, by position or by the name of a parameter. -/
structure Argument where
  label : Option Ident
  value : Expr
end

instance : Inhabited Expr := ⟨.bool default false⟩

namespace Expr

def node : Expr → Node
  | int n _ | string n _ | bool n _ | symbol n _ | binary n _ _ _ | unary n _ _ | call n _ _
  | list n _ | map n _ | index n _ _ | field n _ _ => n

def id (e : Expr) : Nat := e.node.id

def span (e : Expr) : Span := e.node.span

/-- The same expression in another place, as parentheses around it put it. -/
def relocate (s : Span) : Expr → Expr
  | int n v => int { n with span := s } v
  | string n t => string { n with span := s } t
  | bool n v => bool { n with span := s } v
  | symbol n x => symbol { n with span := s } x
  | binary n op l r => binary { n with span := s } op l r
  | unary n op e => unary { n with span := s } op e
  | call n c as => call { n with span := s } c as
  | list n es => list { n with span := s } es
  | map n es => map { n with span := s } es
  | index n b i => index { n with span := s } b i
  | field n b x => field { n with span := s } b x

def precedence : Expr → Precedence
  | binary _ op _ _ => op.precedence
  | unary .. => .unary
  | call .. | index .. | field .. => .call
  | int .. | string .. | bool .. | symbol .. | list .. | map .. => .atom

/-- Symbols, entries of containers and fields are what can stand left of an assignment. -/
def isPlace : Expr → Bool
  | symbol .. | index .. | field .. => true
  | _ => false

end Expr

structure Binding where
  name : Ident
  type : TypeExpr
  deriving Repr, Inhabited

structure EnumCase where
  name : Ident
  params : List TypeExpr
  deriving Repr, Inhabited

structure StructDecl where
  name : Ident
  fields : List Binding
  deriving Repr, Inhabited

structure EnumDecl where
  name : Ident
  cases : List EnumCase
  deriving Repr, Inhabited

/-- The names a loop binds on each round: the item, and its index if that is asked for. -/
structure LoopVars where
  index : Option Ident
  item : Ident
  deriving DecidableEq, Repr, Inhabited

def LoopVars.names (v : LoopVars) : List Ident := v.index.toList ++ [v.item]

/-- The head of a match arm: a case, with a name for each of its values. -/
structure Pattern where
  name : Ident
  bindings : List Ident
  deriving DecidableEq, Repr, Inhabited

mutual
inductive Stmt where
  | letVar (span : Span) (name : Ident) (type : Option TypeExpr) (value : Expr)
  | assign (span : Span) (target value : Expr)
  | ret (span : Span) (value : Option Expr)
  | expr (span : Span) (value : Expr)
  | ifElse (span : Span) (clauses : List Clause) (otherwise : Option (List Stmt))
  | whileLoop (span : Span) (cond : Expr) (body : List Stmt)
  | forEach (span : Span) (vars : LoopVars) (iterable : Expr) (body : List Stmt)
  | matchOn (span : Span) (scrutinee : Expr) (arms : List Arm) (otherwise : Option (List Stmt))
  | struct (span : Span) (decl : StructDecl)
  | enum (span : Span) (decl : EnumDecl)

structure Clause where
  cond : Expr
  body : List Stmt

structure Arm where
  pattern : Pattern
  body : List Stmt
end

instance : Inhabited Stmt := ⟨.ret default none⟩

abbrev Block := List Stmt

def Stmt.span : Stmt → Span
  | letVar s .. | assign s .. | ret s .. | expr s .. | ifElse s .. | whileLoop s .. | forEach s ..
  | matchOn s .. | struct s .. | enum s .. => s

structure FunctionDecl where
  name : Ident
  params : List Binding
  result : Option TypeExpr
  body : Block

/-- What a program is made of. Functions stand at the top level only. -/
inductive Item where
  | function (span : Span) (decl : FunctionDecl)
  | stmt (stmt : Stmt)

structure Program where
  items : List Item

end Gondola
