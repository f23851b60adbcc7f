import Gondola.Program

/-! Trees without places and numbers: what is left of a program when only its shape and its texts
count. -/
namespace Gondola

def Ident.bare (x : Ident) : Ident := { x with span := default }

mutual
def TypeExpr.bare : TypeExpr → TypeExpr
  | .mk name args _ => .mk name.bare (TypeExpr.bareAll args) default
def TypeExpr.bareAll : List TypeExpr → List TypeExpr
  | [] => []
  | t :: ts => t.bare :: TypeExpr.bareAll ts
end

namespace Expr

mutual
def bare : Expr → Expr
  | .int _ v => .int default v
  | .string _ t => .string default t
  | .bool _ b => .bool default b
  | .symbol _ x => .symbol default x.bare
  | .binary _ op l r => .binary default op l.bare r.bare
  | .unary _ op e => .unary default op e.bare
  | .call _ c as => .call default c.bare (bareArguments as)
  | .list _ es => .list default (bareItems es)
  | .map _ es => .map default (bareEntries es)
  | .index _ b i => .index default b.bare i.bare
  | .field _ b x => .field default b.bare x.bare
def bareArguments : List Argument → List Argument
  | [] => []
  | ⟨label, value⟩ :: as => ⟨label.map Ident.bare, value.bare⟩ :: bareArguments as
def bareItems : List Expr → List Expr
  | [] => []
  | e :: es => e.bare :: bareItems es
def bareEntries : List (Expr × Expr) → List (Expr × Expr)
  | [] => []
  | (k, v) :: es => (k.bare, v.bare) :: bareEntries es
end

end Expr

def Argument.bare (a : Argument) : Argument := ⟨a.label.map Ident.bare, a.value.bare⟩

def Binding.bare (b : Binding) : Binding := ⟨b.name.bare, b.type.bare⟩

def EnumCase.bare (c : EnumCase) : EnumCase := ⟨c.name.bare, c.params.map TypeExpr.bare⟩

def StructDecl.bare (d : StructDecl) : StructDecl := ⟨d.name.bare, d.fields.map Binding.bare⟩

def EnumDecl.bare (d : EnumDecl) : EnumDecl := ⟨d.name.bare, d.cases.map EnumCase.bare⟩

def LoopVars.bare (v : LoopVars) : LoopVars := ⟨v.index.map Ident.bare, v.item.bare⟩

def Pattern.bare (p : Pattern) : Pattern := ⟨p.name.bare, p.bindings.map Ident.bare⟩

namespace Stmt

mutual
def bare : Stmt → Stmt
  | .letVar _ x t e => .letVar default x.bare (t.map TypeExpr.bare) e.bare
  | .assign _ t e => .assign default t.bare e.bare
  | .ret _ e => .ret default (e.map Expr.bare)
  | .expr _ e => .expr default e.bare
  | .ifElse _ cs o => .ifElse default (bareClauses cs) (bareOtherwise o)
  | .whileLoop _ c b => .whileLoop default c.bare (bareBlock b)
  | .forEach _ vs e b => .forEach default vs.bare e.bare (bareBlock b)
  | .matchOn _ e as o => .matchOn default e.bare (bareArms as) (bareOtherwise o)
  | .struct _ d => .struct default d.bare
  | .enum _ d => .enum default d.bare
def bareClauses : List Clause → List Clause
  | [] => []
  | ⟨c, b⟩ :: cs => ⟨c.bare, bareBlock b⟩ :: bareClauses cs
def bareArms : List Arm → List Arm
  | [] => []
  | ⟨p, b⟩ :: as => ⟨p.bare, bareBlock b⟩ :: bareArms as
def bareOtherwise : Option Block → Option Block
  | none => none
  | some b => some (bareBlock b)
def bareBlock : Block → Block
  | [] => []
  | s :: ss => s.bare :: bareBlock ss
end

end Stmt

def FunctionDecl.bare (f : FunctionDecl) : FunctionDecl :=
  ⟨f.name.bare, f.params.map Binding.bare, f.result.map TypeExpr.bare, Stmt.bareBlock f.body⟩

def Item.bare : Item → Item
  | .function _ f => .function default f.bare
  | .stmt s => .stmt s.bare

def Program.bare (p : Program) : Program := ⟨p.items.map Item.bare⟩

theorem TypeExpr.bareAll_eq_map (ts : List TypeExpr) : bareAll ts = ts.map bare := by
  induction ts with
  | nil => rfl
  | cons t ts ih => rw [bareAll, ih, List.map_cons]

namespace Expr

theorem bareItems_eq_map (es : List Expr) : bareItems es = es.map bare := by
  induction es with
  | nil => rfl
  | cons e es ih => rw [bareItems, ih, List.map_cons]

theorem bareArguments_eq_map (as : List Argument) : bareArguments as = as.map Argument.bare := by
  induction as with
  | nil => rfl
  | cons a as ih =>
    obtain ⟨label, value⟩ := a
    rw [bareArguments, ih, List.map_cons, Argument.bare]

theorem bareEntries_eq_map (es : List (Expr × Expr)) :
    bareEntries es = es.map (Prod.map bare bare) := by
  induction es with
  | nil => rfl
  | cons e es ih => rw [bareEntries, ih, List.map_cons, Prod.map]

@[simp] theorem bare_relocate (s : Span) (e : Expr) : (e.relocate s).bare = e.bare := by
  cases e <;> simp only [relocate, bare]

@[simp] theorem isPlace_bare (e : Expr) : e.bare.isPlace = e.isPlace := by
  cases e <;> simp only [bare, isPlace]

end Expr

end Gondola
