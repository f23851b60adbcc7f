import Gondola.Proofs.Program.Numbering

/-! All statements of a program, at any depth, and all expressions: those that stand in its statements, and the
parts of each of them at any depth. -/
namespace Gondola

variable {es : List (Expr × Expr)} {f : Expr} {e : Expr × Expr} {s : Stmt}

namespace Expr

mutual
def parts : Expr → List Expr
  | .int n v => [.int n v]
  | .string n t => [.string n t]
  | .bool n b => [.bool n b]
  | .symbol n x => [.symbol n x]
  | .binary n op l r => .binary n op l r :: (l.parts ++ r.parts)
  | .unary n op e => .unary n op e :: e.parts
  | .call n c as => .call n c as :: (c.parts ++ argumentParts as)
  | .list n es => .list n es :: itemParts es
  | .map n es => .map n es :: entryParts es
  | .index n b i => .index n b i :: (b.parts ++ i.parts)
  | .field n b x => .field n b x :: b.parts
def argumentParts : List Argument → List Expr
  | [] => []
  | ⟨_, value⟩ :: as => value.parts ++ argumentParts as
def itemParts : List Expr → List Expr
  | [] => []
  | e :: es => e.parts ++ itemParts es
def entryParts : List (Expr × Expr) → List Expr
  | [] => []
  | (k, v) :: es => k.parts ++ v.parts ++ entryParts es
end

/-- The direct parts of an expression that it takes the value of: all but the callee of a call. -/
def operands : Expr → List Expr
  | .int .. | .string .. | .bool .. | .symbol .. => []
  | .binary _ _ l r => [l, r]
  | .unary _ _ e => [e]
  | .call _ _ as => as.map Argument.value
  | .list _ es => es
  | .map _ es => es.flatMap fun e => [e.1, e.2]
  | .index _ b i => [b, i]
  | .field _ b _ => [b]

def children : Expr → List Expr
  | .call _ c as => c :: as.map Argument.value
  | .int .. | .string .. | .bool .. | .symbol .. => []
  | .binary _ _ l r => [l, r]
  | .unary _ _ e => [e]
  | .list _ es => es
  | .map _ es => es.flatMap fun e => [e.1, e.2]
  | .index _ b i => [b, i]
  | .field _ b _ => [b]

theorem mem_parts_self (e : Expr) : e ∈ e.parts := by
  cases e <;> exact List.mem_cons_self

theorem mem_argumentParts {e : Expr} {as : List Argument} :
    e ∈ argumentParts as ↔ ∃ a ∈ as, e ∈ a.value.parts := by
  induction as with
  | nil => simp [argumentParts]
  | cons a as ih =>
    obtain ⟨label, value⟩ := a
    simp [argumentParts, ih]

theorem mem_itemParts {e : Expr} {es : List Expr} :
    e ∈ itemParts es ↔ ∃ f ∈ es, e ∈ f.parts := by
  induction es with
  | nil => simp [itemParts]
  | cons f es ih => simp [itemParts, ih]

theorem mem_entryParts {e : Expr} : e ∈ entryParts es ↔ ∃ f ∈ es, e ∈ f.1.parts ∨ e ∈ f.2.parts := by
  induction es with
  | nil => simp [entryParts]
  | cons f es ih => simp [entryParts, ih, or_assoc]

theorem mem_parts_iff {e : Expr} : f ∈ e.parts ↔ f = e ∨ ∃ c ∈ e.children, f ∈ c.parts := by
  cases e with
  | int | string | bool | symbol => simp [parts, children]
  | binary | unary | index | field => simp [parts, children]
  | call =>
    simp only [parts, children, List.mem_cons, List.mem_append, mem_argumentParts, List.mem_map]
    grind
  | list => simp [parts, children, mem_itemParts]
  | map =>
    simp only [parts, children, List.mem_cons, mem_entryParts, List.mem_flatMap]
    grind

theorem sizeOf_lt_of_child {e c : Expr} (h : c ∈ e.children) : sizeOf c < sizeOf e := by
  cases e with
  | int | string | bool | symbol => cases h
  | binary | unary | index | field =>
    simp only [children, List.mem_cons, List.not_mem_nil, or_false] at h
    grind
  | call n c as =>
    rcases List.mem_cons.mp h with rfl | h
    · grind
    · obtain ⟨⟨_, value⟩, ha, rfl⟩ := List.mem_map.mp h
      grind [List.sizeOf_lt_of_mem ha]
  | list n es =>
    have hlt : sizeOf c < sizeOf es := List.sizeOf_lt_of_mem h
    grind
  | map n es =>
    obtain ⟨⟨k, v⟩, he, h⟩ := List.mem_flatMap.mp h
    grind [List.sizeOf_lt_of_mem he]

theorem induction_children {P : Expr → Prop} (h : ∀ e, (∀ c ∈ e.children, P c) → P e) (e : Expr) : P e :=
  h e fun c _ => induction_children h c
termination_by e
decreasing_by exact sizeOf_lt_of_child ‹_›

theorem mem_children_of_operand {e : Expr} (h : f ∈ e.operands) : f ∈ e.children := by
  cases e with
  | call => exact List.mem_cons_of_mem _ h
  | _ => exact h

theorem mem_parts_of_operand {e : Expr} (h : f ∈ e.operands) : f ∈ e.parts :=
  mem_parts_iff.mpr (.inr ⟨f, mem_children_of_operand h, mem_parts_self f⟩)

theorem key_mem_children (n : Node) (he : e ∈ es) : e.1 ∈ (Expr.map n es).children :=
  List.mem_flatMap.mpr ⟨e, he, List.mem_cons_self⟩

theorem value_mem_children (n : Node) (he : e ∈ es) : e.2 ∈ (Expr.map n es).children :=
  List.mem_flatMap.mpr ⟨e, he, List.mem_cons_of_mem _ (List.mem_singleton_self _)⟩

theorem key_mem_operands (n : Node) (he : e ∈ es) : e.1 ∈ (Expr.map n es).operands :=
  key_mem_children n he

theorem value_mem_operands (n : Node) (he : e ∈ es) : e.2 ∈ (Expr.map n es).operands :=
  value_mem_children n he

theorem mem_parts_trans {e g : Expr} (hf : f ∈ e.parts) (he : e ∈ g.parts) : f ∈ g.parts := by
  induction g using induction_children with
  | h g ih =>
    rcases mem_parts_iff.mp he with rfl | ⟨c, hc, he⟩
    · exact hf
    · exact mem_parts_iff.mpr (.inr ⟨c, hc, ih c hc he⟩)

theorem perm_cons {ids : List Nat} {fs : List Expr} (h : ids.Perm (fs.map id)) (e : Expr) :
    (ids ++ [e.id]).Perm ((e :: fs).map id) :=
  (List.perm_append_singleton _ _).trans (h.cons _)

theorem perm_append {ids ids' : List Nat} {fs gs : List Expr} (h : ids.Perm (fs.map id))
    (h' : ids'.Perm (gs.map id)) : (ids ++ ids').Perm ((fs ++ gs).map id) := by
  rw [List.map_append]
  exact h.append h'

mutual
theorem ids_perm : ∀ e : Expr, e.ids.Perm (e.parts.map id)
  | .int .. | .string .. | .bool .. | .symbol .. => .refl _
  | .binary n op l r => perm_cons (perm_append l.ids_perm r.ids_perm) (.binary n op l r)
  | .unary n op e => perm_cons e.ids_perm (.unary n op e)
  | .call n c as => perm_cons (perm_append c.ids_perm (argumentIds_perm as)) (.call n c as)
  | .list n es => perm_cons (itemIds_perm es) (.list n es)
  | .map n es => perm_cons (entryIds_perm es) (.map n es)
  | .index n b i => perm_cons (perm_append b.ids_perm i.ids_perm) (.index n b i)
  | .field n b x => perm_cons b.ids_perm (.field n b x)
theorem argumentIds_perm : ∀ as : List Argument, (argumentIds as).Perm ((argumentParts as).map id)
  | [] => .nil
  | ⟨_, value⟩ :: as => perm_append value.ids_perm (argumentIds_perm as)
theorem itemIds_perm : ∀ es : List Expr, (itemIds es).Perm ((itemParts es).map id)
  | [] => .nil
  | e :: es => perm_append e.ids_perm (itemIds_perm es)
theorem entryIds_perm : ∀ es : List (Expr × Expr), (entryIds es).Perm ((entryParts es).map id)
  | [] => .nil
  | (k, v) :: es => perm_append (perm_append k.ids_perm v.ids_perm) (entryIds_perm es)
end

end Expr

namespace Stmt

mutual
def parts : Stmt → List Expr
  | .letVar _ _ _ e => e.parts
  | .assign _ t e => t.parts ++ e.parts
  | .ret _ none => []
  | .ret _ (some e) => e.parts
  | .expr _ e => e.parts
  | .ifElse _ cs o => clauseParts cs ++ otherwiseParts o
  | .whileLoop _ c b => c.parts ++ blockParts b
  | .forEach _ _ e b => e.parts ++ blockParts b
  | .matchOn _ e as o => e.parts ++ armParts as ++ otherwiseParts o
  | .struct .. | .enum .. => []
def clauseParts : List Clause → List Expr
  | [] => []
  | ⟨c, b⟩ :: cs => c.parts ++ blockParts b ++ clauseParts cs
def armParts : List Arm → List Expr
  | [] => []
  | ⟨_, b⟩ :: as => blockParts b ++ armParts as
def otherwiseParts : Option Block → List Expr
  | none => []
  | some b => blockParts b
def blockParts : Block → List Expr
  | [] => []
  | s :: ss => s.parts ++ blockParts ss
end

def exprs : Stmt → List Expr
  | .letVar _ _ _ e => [e]
  | .assign _ t e => [t, e]
  | .ret _ e => e.toList
  | .expr _ e => [e]
  | .ifElse _ cs _ => cs.map Clause.cond
  | .whileLoop _ c _ => [c]
  | .forEach _ _ e _ => [e]
  | .matchOn _ e _ _ => [e]
  | .struct .. | .enum .. => []

mutual
def nested : Stmt → List Stmt
  | .ifElse _ cs o => clauseStmts cs ++ otherwiseStmts o
  | .whileLoop _ _ b | .forEach _ _ _ b => blockStmts b
  | .matchOn _ _ as o => armStmts as ++ otherwiseStmts o
  | .letVar .. | .assign .. | .ret .. | .expr .. | .struct .. | .enum .. => []
def clauseStmts : List Clause → List Stmt
  | [] => []
  | ⟨_, b⟩ :: cs => blockStmts b ++ clauseStmts cs
def armStmts : List Arm → List Stmt
  | [] => []
  | ⟨_, b⟩ :: as => blockStmts b ++ armStmts as
def otherwiseStmts : Option Block → List Stmt
  | none => []
  | some b => blockStmts b
def blockStmts : Block → List Stmt
  | [] => []
  | s :: ss => s :: (s.nested ++ blockStmts ss)
end

theorem blockStmts_singleton (s : Stmt) : blockStmts [s] = s :: s.nested := by
  rw [blockStmts, blockStmts, List.append_nil]

theorem mem_clauseStmts {cs : List Clause} : s ∈ clauseStmts cs ↔ ∃ c ∈ cs, s ∈ blockStmts c.body := by
  induction cs with
  | nil => simp [clauseStmts]
  | cons c cs ih =>
    obtain ⟨cond, body⟩ := c
    simp [clauseStmts, ih]

theorem mem_armStmts {as : List Arm} : s ∈ armStmts as ↔ ∃ a ∈ as, s ∈ blockStmts a.body := by
  induction as with
  | nil => simp [armStmts]
  | cons a as ih =>
    obtain ⟨pattern, body⟩ := a
    simp [armStmts, ih]

/-- The expression is a part of one that stands in one of the statements. -/
def HasPart (stmts : List Stmt) (f : Expr) : Prop := ∃ s ∈ stmts, ∃ e ∈ s.exprs, f ∈ e.parts

theorem hasPart_nil : ¬ HasPart [] f := nofun

theorem hasPart_cons {ss : List Stmt} : HasPart (s :: ss) f ↔ (∃ e ∈ s.exprs, f ∈ e.parts) ∨ HasPart ss f := by
  simp only [HasPart, List.mem_cons, or_and_right, exists_or, exists_eq_left]

theorem hasPart_append {ss ss' : List Stmt} : HasPart (ss ++ ss') f ↔ HasPart ss f ∨ HasPart ss' f := by
  simp only [HasPart, List.mem_append, or_and_right, exists_or]

mutual
theorem mem_parts : ∀ {s : Stmt}, f ∈ s.parts ↔ HasPart (s :: s.nested) f
  | .letVar .. | .expr .. | .assign .. | .ret _ none | .ret _ (some _) | .struct .. | .enum .. => by
    simp [parts, nested, hasPart_cons, hasPart_nil, exprs]
  | .ifElse .. => by
    simp only [parts, nested, hasPart_cons, hasPart_append, exprs, List.mem_append, List.mem_map,
      mem_clauseParts, mem_otherwiseParts]
    grind
  | .whileLoop .. | .forEach .. => by simp [parts, nested, hasPart_cons, exprs, mem_blockParts]
  | .matchOn .. => by
    simp [parts, nested, hasPart_cons, hasPart_append, exprs, mem_armParts, mem_otherwiseParts]
theorem mem_clauseParts : ∀ {cs : List Clause}, f ∈ clauseParts cs ↔
    (∃ c ∈ cs, f ∈ c.cond.parts) ∨ HasPart (clauseStmts cs) f
  | [] => by simp [clauseParts, clauseStmts, hasPart_nil]
  | ⟨_, _⟩ :: _ => by
    simp only [clauseParts, clauseStmts, List.mem_append, mem_blockParts, mem_clauseParts,
      List.mem_cons, or_and_right, exists_or, exists_eq_left, hasPart_append]
    grind
theorem mem_armParts : ∀ {as : List Arm}, f ∈ armParts as ↔ HasPart (armStmts as) f
  | [] => by simp [armParts, armStmts, hasPart_nil]
  | ⟨_, _⟩ :: _ => by simp [armParts, armStmts, hasPart_append, mem_blockParts, mem_armParts]
theorem mem_otherwiseParts : ∀ {o : Option Block}, f ∈ otherwiseParts o ↔ HasPart (otherwiseStmts o) f
  | none => by simp [otherwiseParts, otherwiseStmts, hasPart_nil]
  | some _ => mem_blockParts
theorem mem_blockParts : ∀ {b : Block}, f ∈ blockParts b ↔ HasPart (blockStmts b) f
  | [] => by simp [blockParts, blockStmts, hasPart_nil]
  | _ :: _ => by
    rw [blockParts, blockStmts, List.mem_append, mem_parts, mem_blockParts, ← hasPart_append]
    rfl
end

mutual
theorem ids_perm : ∀ s : Stmt, s.ids.Perm (s.parts.map Expr.id)
  | .letVar _ _ _ e | .expr _ e | .ret _ (some e) => e.ids_perm
  | .ret _ none | .struct .. | .enum .. => .nil
  | .assign _ t e => Expr.perm_append t.ids_perm e.ids_perm
  | .ifElse _ cs o => Expr.perm_append (clauseIds_perm cs) (otherwiseIds_perm o)
  | .whileLoop _ c b | .forEach _ _ c b => Expr.perm_append c.ids_perm (blockIds_perm b)
  | .matchOn _ e as o =>
    Expr.perm_append (Expr.perm_append e.ids_perm (armIds_perm as)) (otherwiseIds_perm o)
theorem clauseIds_perm : ∀ cs : List Clause, (clauseIds cs).Perm ((clauseParts cs).map Expr.id)
  | [] => .nil
  | ⟨c, b⟩ :: cs => Expr.perm_append (Expr.perm_append c.ids_perm (blockIds_perm b)) (clauseIds_perm cs)
theorem armIds_perm : ∀ as : List Arm, (armIds as).Perm ((armParts as).map Expr.id)
  | [] => .nil
  | ⟨_, b⟩ :: as => Expr.perm_append (blockIds_perm b) (armIds_perm as)
theorem otherwiseIds_perm : ∀ o : Option Block, (otherwiseIds o).Perm ((otherwiseParts o).map Expr.id)
  | none => .nil
  | some b => blockIds_perm b
theorem blockIds_perm : ∀ b : Block, (blockIds b).Perm ((blockParts b).map Expr.id)
  | [] => .nil
  | s :: ss => Expr.perm_append s.ids_perm (blockIds_perm ss)
end

end Stmt

def Item.parts : Item → List Expr
  | .function _ f => Stmt.blockParts f.body
  | .stmt s => s.parts

def Item.stmts : Item → List Stmt
  | .function _ f => Stmt.blockStmts f.body
  | .stmt s => s :: s.nested

namespace Program

def parts (p : Program) : List Expr := p.items.flatMap Item.parts

def stmts (p : Program) : List Stmt := p.items.flatMap Item.stmts

/-- Everything that a program takes the value of: all of its expressions but the callees of calls. -/
def values (p : Program) : List Expr := p.stmts.flatMap Stmt.exprs ++ p.parts.flatMap Expr.operands

theorem mem_parts {p : Program} : f ∈ p.parts ↔ Stmt.HasPart p.stmts f := by
  have hitem (i : Item) : f ∈ i.parts ↔ Stmt.HasPart i.stmts f := by
    cases i with
    | function => exact Stmt.mem_blockParts
    | stmt => exact Stmt.mem_parts
  simp only [parts, stmts, List.mem_flatMap, hitem, Stmt.HasPart]
  grind

theorem mem_parts_trans {p : Program} {e : Expr} (he : e ∈ p.parts) (hf : f ∈ e.parts) : f ∈ p.parts := by
  obtain ⟨s, hs, g, hg, heg⟩ := mem_parts.mp he
  exact mem_parts.mpr ⟨s, hs, g, hg, Expr.mem_parts_trans hf heg⟩

theorem ids_perm (p : Program) : p.ids.Perm (p.parts.map Expr.id) := by
  rw [ids, parts]
  induction p.items with
  | nil => exact .nil
  | cons i is ih =>
    refine Expr.perm_append ?_ ih
    cases i with
    | function _ f => exact Stmt.blockIds_perm f.body
    | stmt s => exact s.ids_perm

theorem length_ids (p : Program) : p.ids.length = p.parts.length := by
  rw [p.ids_perm.length_eq, List.length_map]

end Program

end Gondola
