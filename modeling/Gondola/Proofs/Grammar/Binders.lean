import Gondola.Proofs.Grammar

/-! The names that a program binds, and the tokens that they stand on. -/
namespace Gondola

namespace Stmt

mutual
/-- The names that a statement binds to values and types, at any depth, in the order of the text. -/
def binders : Stmt → List Ident
  | .letVar _ x _ _ => [x]
  | .assign .. | .ret .. | .expr .. => []
  | .ifElse _ cs o => clauseBinders cs ++ otherwiseBinders o
  | .whileLoop _ _ b => blockBinders b
  | .forEach _ v _ b => v.names ++ blockBinders b
  | .matchOn _ _ as o => armBinders as ++ otherwiseBinders o
  | .struct _ d => [d.name]
  | .enum _ d => [d.name]
def clauseBinders : List Clause → List Ident
  | [] => []
  | ⟨_, b⟩ :: cs => blockBinders b ++ clauseBinders cs
def armBinders : List Arm → List Ident
  | [] => []
  | ⟨p, b⟩ :: as => p.bindings ++ blockBinders b ++ armBinders as
def otherwiseBinders : Option (List Stmt) → List Ident
  | none => []
  | some b => blockBinders b
def blockBinders : List Stmt → List Ident
  | [] => []
  | s :: ss => s.binders ++ blockBinders ss
end

end Stmt

/-- The names that a function binds for itself: its parameters, and what its body declares. -/
def FunctionDecl.binders (f : FunctionDecl) : List Ident :=
  f.params.map Binding.name ++ Stmt.blockBinders f.body

def Item.binders : Item → List Ident
  | .function _ f => f.name :: f.binders
  | .stmt s => s.binders

def Stmt.declares : Stmt → List Ident
  | .letVar _ x _ _ => [x]
  | .struct _ d => [d.name]
  | .enum _ d => [d.name]
  | .assign .. | .ret .. | .expr .. | .ifElse .. | .whileLoop .. | .forEach .. | .matchOn .. => []

def Item.declares : Item → List Ident
  | .function _ f => [f.name]
  | .stmt s => s.declares

def Program.topLevel (p : Program) : List Ident := p.items.flatMap Item.declares

/-- Names that stand on some of the tokens, in their order. -/
def Carries (ts : List Token) (xs : List Ident) : Prop := (xs.map Ident.span).Sublist (ts.map Token.span)

section Carries

variable {ts us : List Token} {xs ys : List Ident}

theorem carries_nil (ts : List Token) : Carries ts [] := List.nil_sublist _

theorem carries_name (t : Token) : Carries [t] [⟨t.text, t.span⟩] := List.Sublist.refl _

theorem Carries.append (h : Carries ts xs) (h' : Carries us ys) : Carries (ts ++ us) (xs ++ ys) := by
  unfold Carries
  rw [List.map_append, List.map_append]
  exact List.Sublist.append h h'

theorem Carries.append_left (h : Carries us xs) (ts : List Token) : Carries (ts ++ us) xs := (carries_nil ts).append h

theorem Carries.append_right (h : Carries ts xs) (us : List Token) : Carries (ts ++ us) xs := by
  simpa using h.append (carries_nil us)

theorem Carries.cons (h : Carries ts xs) (t : Token) : Carries (t :: ts) xs := h.append_left [t]

theorem Grammar.Sequence.carries {α : Type} {G : List Token → α → Prop} {names : α → List Ident} {as : List α}
    (h : Sequence G ts as) (hG : ∀ us a, G us a → Carries us (names a)) : Carries ts (as.flatMap names) := by
  induction h with
  | nil => exact carries_nil []
  | last ha => simpa using hG _ _ ha
  | cons ha _ _ ih => exact (hG _ _ ha).append (ih.cons _)

theorem Grammar.Payload.carries {α : Type} {G : List Token → α → Prop} {names : α → List Ident} {as : List α}
    (h : Payload G ts as) (hG : ∀ us a, G us a → Carries us (names a)) : Carries ts (as.flatMap names) := by
  cases h with
  | absent => exact carries_nil []
  | present _ hs _ => exact ((hs.carries hG).cons _).append_right _

end Carries

end Gondola
