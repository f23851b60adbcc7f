import Gondola.Layout
import Gondola.Program
import Gondola.Text.Quoted

/-! The outline of a tree: one node a line, children one step deeper than their parent. An outline can
show the types of the expressions; `typeText` gives the type's text for the number of an expression. -/
namespace Gondola

namespace Outline

def place (typeText : Nat → Option String) (n : Node) : String :=
  match typeText n.id with
  | some t => " (" ++ n.span.range ++ " %: " ++ t ++ ")"
  | none => " (" ++ n.span.range ++ ")"

def bindingText (b : Binding) : String := b.name.name ++ ": " ++ b.type.text

def payload (items : List String) : String :=
  match items with
  | [] => ""
  | _ => "(" ++ commaSeparated items ++ ")"

mutual
def expr (typeText : Nat → Option String) : Expr → List Line
  | .int n v => [.at0 ("int " ++ toString v ++ place typeText n)]
  | .string n t => [.at0 ("string " ++ Text.quoted t ++ place typeText n)]
  | .bool n v => [.at0 ("bool " ++ (if v then "true" else "false") ++ place typeText n)]
  | .symbol n x => [.at0 ("symbol " ++ x.name ++ place typeText n)]
  | .binary n op l r =>
    .at0 ("infix " ++ op.name ++ place typeText n) :: indented (expr typeText l ++ expr typeText r)
  | .unary n op e => .at0 ("prefix " ++ op.name ++ place typeText n) :: indented (expr typeText e)
  | .call n c as =>
    .at0 ("call" ++ place typeText n) :: indented (expr typeText c ++ arguments typeText as)
  | .list n es => .at0 ("list" ++ place typeText n) :: indented (items typeText es)
  | .map n es => .at0 ("map" ++ place typeText n) :: indented (entries typeText es)
  | .index n b i =>
    .at0 ("index" ++ place typeText n) :: indented (expr typeText b ++ expr typeText i)
  | .field n b x => .at0 ("field " ++ x.name ++ place typeText n) :: indented (expr typeText b)
def arguments (typeText : Nat → Option String) : List Argument → List Line
  | [] => []
  | ⟨none, e⟩ :: as => expr typeText e ++ arguments typeText as
  | ⟨some x, e⟩ :: as =>
    .at0 ("keyword " ++ x.name) :: (indented (expr typeText e) ++ arguments typeText as)
def items (typeText : Nat → Option String) : List Expr → List Line
  | [] => []
  | e :: es => expr typeText e ++ items typeText es
def entries (typeText : Nat → Option String) : List (Expr × Expr) → List Line
  | [] => []
  | (k, v) :: es =>
    .at0 "entry" :: (indented (expr typeText k ++ expr typeText v) ++ entries typeText es)
end

def optional (typeText : Nat → Option String) : Option Expr → List Line
  | none => []
  | some e => expr typeText e

def header (word : String) (s : Span) : Line := .at0 (word ++ " (" ++ s.range ++ ")")

def typeSuffix : Option TypeExpr → String
  | none => ""
  | some t => ": " ++ t.text

mutual
def stmt (typeText : Nat → Option String) : Stmt → List Line
  | .letVar s x t e => header ("let " ++ x.name ++ typeSuffix t) s :: indented (expr typeText e)
  | .assign s t e => header "assign" s :: indented (expr typeText t ++ expr typeText e)
  | .ret s e => header "return" s :: indented (optional typeText e)
  | .expr _ e => expr typeText e
  | .ifElse s cs o =>
    header "if" s :: indented (clauses typeText cs ++ otherwise typeText "else" o)
  | .whileLoop s c b => header "while" s :: indented (expr typeText c ++ block typeText b)
  | .forEach s vs e b =>
    header ("for " ++ commaSeparated (vs.names.map Ident.name)) s ::
      indented (expr typeText e ++ block typeText b)
  | .matchOn s e as o =>
    header "match" s ::
      indented (expr typeText e ++ (arms typeText as ++ otherwise typeText "default" o))
  | .struct s d =>
    header ("struct " ++ d.name.name) s :: indented (d.fields.map fun b => .at0 (bindingText b))
  | .enum s d =>
    header ("enum " ++ d.name.name) s ::
      indented (d.cases.map fun c => .at0 (c.name.name ++ payload (c.params.map TypeExpr.text)))
def clauses (typeText : Nat → Option String) : List Clause → List Line
  | [] => []
  | ⟨c, b⟩ :: cs =>
    .at0 "cond" :: (indented (expr typeText c) ++
      (.at0 "then" :: (indented (block typeText b) ++ clauses typeText cs)))
def arms (typeText : Nat → Option String) : List Arm → List Line
  | [] => []
  | ⟨p, b⟩ :: as =>
    .at0 ("case " ++ p.name.name ++ payload (p.bindings.map Ident.name)) ::
      (indented (block typeText b) ++ arms typeText as)
def otherwise (typeText : Nat → Option String) (word : String) : Option (List Stmt) → List Line
  | none => []
  | some b => .at0 word :: indented (block typeText b)
def block (typeText : Nat → Option String) : List Stmt → List Line
  | [] => []
  | s :: ss => stmt typeText s ++ block typeText ss
end

def item (typeText : Nat → Option String) : Item → List Line
  | .function s f =>
    header ("fn " ++ f.name.name ++ "(" ++ commaSeparated (f.params.map bindingText) ++ ")" ++
      typeSuffix f.result) s :: indented (block typeText f.body)
  | .stmt s => stmt typeText s

def width : Nat := 2

end Outline

def noTypes (_ : Nat) : Option String := none

def Expr.outline (e : Expr) (typeText : Nat → Option String) : String :=
  renderLines Outline.width (Outline.expr typeText e)

def Program.outline (p : Program) (typeText : Nat → Option String) : String :=
  renderLines Outline.width (p.items.flatMap (Outline.item typeText))

end Gondola
