import Gondola.Program

/-! The numbers of the expressions of a program, each after those of its parts and all of them in the
order of the source. -/
namespace Gondola

namespace Expr

mutual
def ids : Expr → List Nat
  | .int n _ | .string n _ | .bool n _ | .symbol n _ => [n.id]
  | .binary n _ l r => l.ids ++ r.ids ++ [n.id]
  | .unary n _ e => e.ids ++ [n.id]
  | .call n c as => c.ids ++ argumentIds as ++ [n.id]
  | .list n es => itemIds es ++ [n.id]
  | .map n es => entryIds es ++ [n.id]
  | .index n b i => b.ids ++ i.ids ++ [n.id]
  | .field n b _ => b.ids ++ [n.id]
def argumentIds : List Argument → List Nat
  | [] => []
  | ⟨_, value⟩ :: as => value.ids ++ argumentIds as
def itemIds : List Expr → List Nat
  | [] => []
  | e :: es => e.ids ++ itemIds es
def entryIds : List (Expr × Expr) → List Nat
  | [] => []
  | (k, v) :: es => k.ids ++ v.ids ++ entryIds es
end

end Expr

namespace Stmt

mutual
def ids : Stmt → List Nat
  | .letVar _ _ _ e => e.ids
  | .assign _ t e => t.ids ++ e.ids
  | .ret _ none => []
  | .ret _ (some e) => e.ids
  | .expr _ e => e.ids
  | .ifElse _ cs o => clauseIds cs ++ otherwiseIds o
  | .whileLoop _ c b => c.ids ++ blockIds b
  | .forEach _ _ e b => e.ids ++ blockIds b
  | .matchOn _ e as o => e.ids ++ armIds as ++ otherwiseIds o
  | .struct .. | .enum .. => []
def clauseIds : List Clause → List Nat
  | [] => []
  | ⟨c, b⟩ :: cs => c.ids ++ blockIds b ++ clauseIds cs
def armIds : List Arm → List Nat
  | [] => []
  | ⟨_, b⟩ :: as => blockIds b ++ armIds as
def otherwiseIds : Option Block → List Nat
  | none => []
  | some b => blockIds b
def blockIds : Block → List Nat
  | [] => []
  | s :: ss => s.ids ++ blockIds ss
end

end Stmt

def Item.ids : Item → List Nat
  | .function _ f => Stmt.blockIds f.body
  | .stmt s => s.ids

def Program.ids (p : Program) : List Nat := p.items.flatMap Item.ids

namespace Expr

theorem itemIds_eq_flatMap (es : List Expr) : itemIds es = es.flatMap ids := by
  induction es with
  | nil => rfl
  | cons e es ih => rw [itemIds, ih, List.flatMap_cons]

theorem argumentIds_eq_flatMap (as : List Argument) :
    argumentIds as = as.flatMap fun a => a.value.ids := by
  induction as with
  | nil => rfl
  | cons a as ih =>
    obtain ⟨label, value⟩ := a
    rw [argumentIds, ih, List.flatMap_cons]

theorem entryIds_eq_flatMap (es : List (Expr × Expr)) :
    entryIds es = es.flatMap fun e => e.1.ids ++ e.2.ids := by
  induction es with
  | nil => rfl
  | cons e es ih => rw [entryIds, ih, List.flatMap_cons]

theorem ids_relocate (s : Span) (e : Expr) : (e.relocate s).ids = e.ids := by
  cases e <;> simp only [relocate, ids]

end Expr

end Gondola
