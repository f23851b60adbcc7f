import Gondola.Proofs.Program.Numbering
import Gondola.Proofs.Program.Placement

/-! A tree consists of its shape with its texts, the numbers of its expressions, and its places. -/
namespace Gondola

/-- All places are one and the same. -/
def nowhere (_ : Span) : Span := {}

/-! Names, types and declarations have no numbers. -/

mutual
theorem TypeExpr.bare_nowhere : ∀ t : TypeExpr, t.bare = t.mapSpan nowhere
  | .mk name args span => by
    rw [bare, mapSpan, bareAll_nowhere args]
    rfl
theorem TypeExpr.bareAll_nowhere : ∀ ts : List TypeExpr, bareAll ts = mapSpanAll nowhere ts
  | [] => rfl
  | t :: ts => by rw [bareAll, mapSpanAll, bare_nowhere t, bareAll_nowhere ts]
end

theorem TypeExpr.bare_eq_mapSpan : bare = mapSpan nowhere := funext bare_nowhere

theorem Binding.bare_eq_mapSpan : bare = mapSpan nowhere := by
  funext b
  rw [bare, TypeExpr.bare_nowhere]
  rfl

theorem EnumCase.bare_eq_mapSpan : bare = mapSpan nowhere := by
  funext c
  rw [bare, TypeExpr.bare_eq_mapSpan]
  rfl

theorem StructDecl.bare_nowhere (d : StructDecl) : d.bare = d.mapSpan nowhere := by
  rw [bare, Binding.bare_eq_mapSpan]
  rfl

theorem EnumDecl.bare_nowhere (d : EnumDecl) : d.bare = d.mapSpan nowhere := by
  rw [bare, EnumCase.bare_eq_mapSpan]
  rfl

/-- The first of the numbers is that of the node. -/
def Node.number (n : Node) (ids : List Nat) : Node := { n with id := ids.headD 0 }

namespace Expr

mutual
/-- The expression with the given numbers, and the numbers that are left. -/
def number : Expr → List Nat → Expr × List Nat
  | .int n v, ids => (.int (n.number ids) v, ids.tail)
  | .string n t, ids => (.string (n.number ids) t, ids.tail)
  | .bool n b, ids => (.bool (n.number ids) b, ids.tail)
  | .symbol n x, ids => (.symbol (n.number ids) x, ids.tail)
  | .binary n op l r, ids =>
    let (l, ids) := l.number ids
    let (r, ids) := r.number ids
    (.binary (n.number ids) op l r, ids.tail)
  | .unary n op e, ids =>
    let (e, ids) := e.number ids
    (.unary (n.number ids) op e, ids.tail)
  | .call n c as, ids =>
    let (c, ids) := c.number ids
    let (as, ids) := numberArguments as ids
    (.call (n.number ids) c as, ids.tail)
  | .list n es, ids =>
    let (es, ids) := numberItems es ids
    (.list (n.number ids) es, ids.tail)
  | .map n es, ids =>
    let (es, ids) := numberEntries es ids
    (.map (n.number ids) es, ids.tail)
  | .index n b i, ids =>
    let (b, ids) := b.number ids
    let (i, ids) := i.number ids
    (.index (n.number ids) b i, ids.tail)
  | .field n b x, ids =>
    let (b, ids) := b.number ids
    (.field (n.number ids) b x, ids.tail)
def numberArguments : List Argument → List Nat → List Argument × List Nat
  | [], ids => ([], ids)
  | ⟨label, value⟩ :: as, ids =>
    let (value, ids) := value.number ids
    let (as, ids) := numberArguments as ids
    (⟨label, value⟩ :: as, ids)
def numberItems : List Expr → List Nat → List Expr × List Nat
  | [], ids => ([], ids)
  | e :: es, ids =>
    let (e, ids) := e.number ids
    let (es, ids) := numberItems es ids
    (e :: es, ids)
def numberEntries : List (Expr × Expr) → List Nat → List (Expr × Expr) × List Nat
  | [], ids => ([], ids)
  | (k, v) :: es, ids =>
    let (k, ids) := k.number ids
    let (v, ids) := v.number ids
    let (es, ids) := numberEntries es ids
    ((k, v) :: es, ids)
end

mutual
theorem number_bare : ∀ (e : Expr) (rest : List Nat), e.bare.number (e.ids ++ rest) = (e.mapSpan nowhere, rest)
  | .int .., _ | .string .., _ | .bool .., _ | .symbol .., _ => rfl
  | .binary _ _ l r, _ | .index _ l r, _ => by
    simp only [bare, ids, number, List.append_assoc, number_bare l, number_bare r]
    rfl
  | .unary _ _ e, _ | .field _ e _, _ => by
    simp only [bare, ids, number, List.append_assoc, number_bare e]
    rfl
  | .call _ c as, _ => by
    simp only [bare, ids, number, List.append_assoc, number_bare c, numberArguments_bare as]
    rfl
  | .list _ es, _ => by
    simp only [bare, ids, number, List.append_assoc, numberItems_bare es]
    rfl
  | .map _ es, _ => by
    simp only [bare, ids, number, List.append_assoc, numberEntries_bare es]
    rfl
theorem numberArguments_bare : ∀ (as : List Argument) (rest : List Nat),
    numberArguments (bareArguments as) (argumentIds as ++ rest) = (mapSpanArguments nowhere as, rest)
  | [], _ => rfl
  | ⟨_, v⟩ :: as, _ => by
    simp only [bareArguments, argumentIds, numberArguments, List.append_assoc, number_bare v, numberArguments_bare as]
    rfl
theorem numberItems_bare : ∀ (es : List Expr) (rest : List Nat),
    numberItems (bareItems es) (itemIds es ++ rest) = (mapSpanItems nowhere es, rest)
  | [], _ => rfl
  | e :: es, _ => by
    simp only [bareItems, itemIds, numberItems, List.append_assoc, number_bare e, numberItems_bare es, mapSpanItems]
theorem numberEntries_bare : ∀ (es : List (Expr × Expr)) (rest : List Nat),
    numberEntries (bareEntries es) (entryIds es ++ rest) = (mapSpanEntries nowhere es, rest)
  | [], _ => rfl
  | (k, v) :: es, _ => by
    simp only [bareEntries, entryIds, numberEntries, List.append_assoc, number_bare k, number_bare v,
      numberEntries_bare es, mapSpanEntries]
end

end Expr

namespace Stmt

mutual
def number : Stmt → List Nat → Stmt × List Nat
  | .letVar s x t e, ids =>
    let (e, ids) := e.number ids
    (.letVar s x t e, ids)
  | .assign s t e, ids =>
    let (t, ids) := t.number ids
    let (e, ids) := e.number ids
    (.assign s t e, ids)
  | .ret s none, ids => (.ret s none, ids)
  | .ret s (some e), ids =>
    let (e, ids) := e.number ids
    (.ret s (some e), ids)
  | .expr s e, ids =>
    let (e, ids) := e.number ids
    (.expr s e, ids)
  | .ifElse s cs o, ids =>
    let (cs, ids) := numberClauses cs ids
    let (o, ids) := numberOtherwise o ids
    (.ifElse s cs o, ids)
  | .whileLoop s c b, ids =>
    let (c, ids) := c.number ids
    let (b, ids) := numberBlock b ids
    (.whileLoop s c b, ids)
  | .forEach s v e b, ids =>
    let (e, ids) := e.number ids
    let (b, ids) := numberBlock b ids
    (.forEach s v e b, ids)
  | .matchOn s e as o, ids =>
    let (e, ids) := e.number ids
    let (as, ids) := numberArms as ids
    let (o, ids) := numberOtherwise o ids
    (.matchOn s e as o, ids)
  | .struct s d, ids => (.struct s d, ids)
  | .enum s d, ids => (.enum s d, ids)
def numberClauses : List Clause → List Nat → List Clause × List Nat
  | [], ids => ([], ids)
  | ⟨c, b⟩ :: cs, ids =>
    let (c, ids) := c.number ids
    let (b, ids) := numberBlock b ids
    let (cs, ids) := numberClauses cs ids
    (⟨c, b⟩ :: cs, ids)
def numberArms : List Arm → List Nat → List Arm × List Nat
  | [], ids => ([], ids)
  | ⟨p, b⟩ :: as, ids =>
    let (b, ids) := numberBlock b ids
    let (as, ids) := numberArms as ids
    (⟨p, b⟩ :: as, ids)
def numberOtherwise : Option Block → List Nat → Option Block × List Nat
  | none, ids => (none, ids)
  | some b, ids =>
    let (b, ids) := numberBlock b ids
    (some b, ids)
def numberBlock : Block → List Nat → Block × List Nat
  | [], ids => ([], ids)
  | s :: ss, ids =>
    let (s, ids) := s.number ids
    let (ss, ids) := numberBlock ss ids
    (s :: ss, ids)
end

mutual
theorem number_bare : ∀ (s : Stmt) (rest : List Nat), s.bare.number (s.ids ++ rest) = (s.mapSpan nowhere, rest)
  | .letVar _ _ _ e, _ => by
    simp only [bare, ids, number, Expr.number_bare e, TypeExpr.bare_eq_mapSpan]
    rfl
  | .expr _ e, _ | .ret _ (some e), _ => by
    simp only [bare, Option.map_some, ids, number, Expr.number_bare e]
    rfl
  | .ret _ none, _ => rfl
  | .assign _ t e, _ => by
    simp only [bare, ids, number, List.append_assoc, Expr.number_bare t, Expr.number_bare e]
    rfl
  | .ifElse _ cs o, _ => by
    simp only [bare, ids, number, List.append_assoc, numberClauses_bare cs, numberOtherwise_bare o]
    rfl
  | .whileLoop _ e b, _ | .forEach _ _ e b, _ => by
    simp only [bare, ids, number, List.append_assoc, Expr.number_bare e, numberBlock_bare b]
    rfl
  | .matchOn _ e as o, _ => by
    simp only [bare, ids, number, List.append_assoc, Expr.number_bare e, numberArms_bare as, numberOtherwise_bare o]
    rfl
  | .struct _ d, _ => by
    rw [bare, d.bare_nowhere]
    rfl
  | .enum _ d, _ => by
    rw [bare, d.bare_nowhere]
    rfl
theorem numberClauses_bare : ∀ (cs : List Clause) (rest : List Nat),
    numberClauses (bareClauses cs) (clauseIds cs ++ rest) = (mapSpanClauses nowhere cs, rest)
  | [], _ => rfl
  | ⟨c, b⟩ :: cs, _ => by
    simp only [bareClauses, clauseIds, numberClauses, List.append_assoc, Expr.number_bare c, numberBlock_bare b,
      numberClauses_bare cs, mapSpanClauses]
theorem numberArms_bare : ∀ (as : List Arm) (rest : List Nat),
    numberArms (bareArms as) (armIds as ++ rest) = (mapSpanArms nowhere as, rest)
  | [], _ => rfl
  | ⟨_, b⟩ :: as, _ => by
    simp only [bareArms, armIds, numberArms, List.append_assoc, numberBlock_bare b, numberArms_bare as]
    rfl
theorem numberOtherwise_bare : ∀ (o : Option Block) (rest : List Nat),
    numberOtherwise (bareOtherwise o) (otherwiseIds o ++ rest) = (mapSpanOtherwise nowhere o, rest)
  | none, _ => rfl
  | some b, _ => by simp only [bareOtherwise, otherwiseIds, numberOtherwise, numberBlock_bare b, mapSpanOtherwise]
theorem numberBlock_bare : ∀ (b : Block) (rest : List Nat),
    numberBlock (bareBlock b) (blockIds b ++ rest) = (mapSpanBlock nowhere b, rest)
  | [], _ => rfl
  | s :: ss, _ => by
    simp only [bareBlock, blockIds, numberBlock, List.append_assoc, number_bare s, numberBlock_bare ss, mapSpanBlock]
end

end Stmt

def Item.number : Item → List Nat → Item × List Nat
  | .function s f, ids =>
    let (body, ids) := Stmt.numberBlock f.body ids
    (.function s { f with body }, ids)
  | .stmt s, ids =>
    let (s, ids) := s.number ids
    (.stmt s, ids)

theorem Item.number_bare (i : Item) (rest : List Nat) : i.bare.number (i.ids ++ rest) = (i.mapSpan nowhere, rest) := by
  cases i with
  | function _ f =>
    simp only [bare, FunctionDecl.bare, ids, number, Stmt.numberBlock_bare, Binding.bare_eq_mapSpan,
      TypeExpr.bare_eq_mapSpan]
    rfl
  | stmt s => simp only [bare, ids, number, s.number_bare, mapSpan]

namespace Program

def numberItems : List Item → List Nat → List Item
  | [], _ => []
  | i :: is, ids =>
    let (i, ids) := i.number ids
    i :: numberItems is ids

theorem numberItems_bare (is : List Item) (rest : List Nat) :
    numberItems (is.map Item.bare) (is.flatMap Item.ids ++ rest) = is.map (Item.mapSpan nowhere) := by
  induction is with
  | nil => rfl
  | cons i is ih =>
    simp only [List.map_cons, List.flatMap_cons, List.append_assoc, numberItems, i.number_bare, ih]

/-- Programs of one shape that are numbered in order differ in their places only. -/
theorem mapSpan_nowhere {p q : Program} (hb : p.bare = q.bare) (hp : p.ids = List.range p.ids.length)
    (hq : q.ids = List.range q.ids.length) : p.mapSpan nowhere = q.mapSpan nowhere := by
  have restore {p : Program} (hp : p.ids = List.range p.ids.length) {n : Nat} (hn : p.ids.length ≤ n) :
      p.mapSpan nowhere = ⟨numberItems p.bare.items (List.range n)⟩ := by
    have hids : p.ids = (List.range n).take p.ids.length := by
      rw [List.take_range, Nat.min_eq_left hn]
      exact hp
    have hsplit := numberItems_bare p.items ((List.range n).drop p.ids.length)
    rw [show p.items.flatMap Item.ids = _ from hids, List.take_append_drop] at hsplit
    exact congrArg Program.mk hsplit.symm
  rw [restore hp (Nat.le_max_left p.ids.length q.ids.length), hb, ← restore hq (Nat.le_max_right _ _)]

end Program

end Gondola
