import Gondola.Proofs.Program.Bare

/-! Trees in other places: every span is changed by one function, and all else stays. -/
namespace Gondola

def Ident.mapSpan (σ : Span → Span) (x : Ident) : Ident := { x with span := σ x.span }

def Node.mapSpan (σ : Span → Span) (n : Node) : Node := { n with span := σ n.span }

namespace TypeExpr

mutual
def mapSpan (σ : Span → Span) : TypeExpr → TypeExpr
  | mk name args span => mk (name.mapSpan σ) (mapSpanAll σ args) (σ span)
def mapSpanAll (σ : Span → Span) : List TypeExpr → List TypeExpr
  | [] => []
  | t :: ts => t.mapSpan σ :: mapSpanAll σ ts
end

theorem mapSpanAll_eq_map (σ : Span → Span) (ts : List TypeExpr) :
    mapSpanAll σ ts = ts.map (mapSpan σ) := by
  induction ts with
  | nil => rfl
  | cons t ts ih => rw [mapSpanAll, ih, List.map_cons]

end TypeExpr

namespace Expr

mutual
def mapSpan (σ : Span → Span) : Expr → Expr
  | int n v => int (n.mapSpan σ) v
  | string n t => string (n.mapSpan σ) t
  | bool n b => bool (n.mapSpan σ) b
  | symbol n x => symbol (n.mapSpan σ) (x.mapSpan σ)
  | binary n op l r => binary (n.mapSpan σ) op (l.mapSpan σ) (r.mapSpan σ)
  | unary n op e => unary (n.mapSpan σ) op (e.mapSpan σ)
  | call n c as => call (n.mapSpan σ) (c.mapSpan σ) (mapSpanArguments σ as)
  | list n es => list (n.mapSpan σ) (mapSpanItems σ es)
  | map n es => map (n.mapSpan σ) (mapSpanEntries σ es)
  | index n b i => index (n.mapSpan σ) (b.mapSpan σ) (i.mapSpan σ)
  | field n b x => field (n.mapSpan σ) (b.mapSpan σ) (x.mapSpan σ)
def mapSpanArguments (σ : Span → Span) : List Argument → List Argument
  | [] => []
  | ⟨label, value⟩ :: as => ⟨label.map (Ident.mapSpan σ), value.mapSpan σ⟩ :: mapSpanArguments σ as
def mapSpanItems (σ : Span → Span) : List Expr → List Expr
  | [] => []
  | e :: es => e.mapSpan σ :: mapSpanItems σ es
def mapSpanEntries (σ : Span → Span) : List (Expr × Expr) → List (Expr × Expr)
  | [] => []
  | (k, v) :: es => (k.mapSpan σ, v.mapSpan σ) :: mapSpanEntries σ es
end

end Expr

def Argument.mapSpan (σ : Span → Span) (a : Argument) : Argument :=
  ⟨a.label.map (Ident.mapSpan σ), a.value.mapSpan σ⟩

namespace Expr

variable (σ : Span → Span)

theorem mapSpanArguments_eq_map (as : List Argument) :
    mapSpanArguments σ as = as.map (Argument.mapSpan σ) := by
  induction as with
  | nil => rfl
  | cons a as ih =>
    obtain ⟨label, value⟩ := a
    rw [mapSpanArguments, ih, List.map_cons, Argument.mapSpan]

theorem mapSpanItems_eq_map (es : List Expr) : mapSpanItems σ es = es.map (mapSpan σ) := by
  induction es with
  | nil => rfl
  | cons e es ih => rw [mapSpanItems, ih, List.map_cons]

theorem mapSpanEntries_eq_map (es : List (Expr × Expr)) :
    mapSpanEntries σ es = es.map (Prod.map (mapSpan σ) (mapSpan σ)) := by
  induction es with
  | nil => rfl
  | cons e es ih => rw [mapSpanEntries, ih, List.map_cons, Prod.map]

@[simp] theorem node_mapSpan (e : Expr) : (e.mapSpan σ).node = e.node.mapSpan σ := by
  cases e <;> rfl

@[simp] theorem id_mapSpan (e : Expr) : (e.mapSpan σ).id = e.id := by
  rw [id, node_mapSpan]
  rfl

@[simp] theorem span_mapSpan (e : Expr) : (e.mapSpan σ).span = σ e.span := by
  rw [span, node_mapSpan]
  rfl

@[simp] theorem isPlace_mapSpan (e : Expr) : (e.mapSpan σ).isPlace = e.isPlace := by
  cases e <;> rfl

@[simp] theorem precedence_mapSpan (e : Expr) : (e.mapSpan σ).precedence = e.precedence := by
  cases e <;> rfl

theorem mapSpan_relocate (s : Span) (e : Expr) :
    (e.relocate s).mapSpan σ = (e.mapSpan σ).relocate (σ s) := by
  cases e <;> rfl

end Expr

def Binding.mapSpan (σ : Span → Span) (b : Binding) : Binding := ⟨b.name.mapSpan σ, b.type.mapSpan σ⟩

def EnumCase.mapSpan (σ : Span → Span) (c : EnumCase) : EnumCase :=
  ⟨c.name.mapSpan σ, c.params.map (TypeExpr.mapSpan σ)⟩

def StructDecl.mapSpan (σ : Span → Span) (d : StructDecl) : StructDecl :=
  ⟨d.name.mapSpan σ, d.fields.map (Binding.mapSpan σ)⟩

def EnumDecl.mapSpan (σ : Span → Span) (d : EnumDecl) : EnumDecl :=
  ⟨d.name.mapSpan σ, d.cases.map (EnumCase.mapSpan σ)⟩

theorem EnumDecl.map_cases_mapSpan {α : Type} (σ : Span → Span) (d : EnumDecl) (f : String → Bool → α) :
    ((d.mapSpan σ).cases.map fun c => f c.name.name (!c.params.isEmpty)) =
      d.cases.map fun c => f c.name.name (!c.params.isEmpty) := by
  simp only [mapSpan, List.map_map]
  apply List.map_congr_left
  intro c _
  simp [EnumCase.mapSpan, Ident.mapSpan]

def LoopVars.mapSpan (σ : Span → Span) (v : LoopVars) : LoopVars :=
  ⟨v.index.map (Ident.mapSpan σ), v.item.mapSpan σ⟩

theorem LoopVars.names_mapSpan (σ : Span → Span) (v : LoopVars) :
    (v.mapSpan σ).names = v.names.map (Ident.mapSpan σ) := by
  obtain ⟨index, item⟩ := v
  cases index <;> rfl

def Pattern.mapSpan (σ : Span → Span) (p : Pattern) : Pattern :=
  ⟨p.name.mapSpan σ, p.bindings.map (Ident.mapSpan σ)⟩

namespace Stmt

mutual
def mapSpan (σ : Span → Span) : Stmt → Stmt
  | letVar s x t e => letVar (σ s) (x.mapSpan σ) (t.map (TypeExpr.mapSpan σ)) (e.mapSpan σ)
  | assign s t e => assign (σ s) (t.mapSpan σ) (e.mapSpan σ)
  | ret s e => ret (σ s) (e.map (Expr.mapSpan σ))
  | expr s e => expr (σ s) (e.mapSpan σ)
  | ifElse s cs o => ifElse (σ s) (mapSpanClauses σ cs) (mapSpanOtherwise σ o)
  | whileLoop s c b => whileLoop (σ s) (c.mapSpan σ) (mapSpanBlock σ b)
  | forEach s vs e b => forEach (σ s) (vs.mapSpan σ) (e.mapSpan σ) (mapSpanBlock σ b)
  | matchOn s e as o => matchOn (σ s) (e.mapSpan σ) (mapSpanArms σ as) (mapSpanOtherwise σ o)
  | struct s d => struct (σ s) (d.mapSpan σ)
  | enum s d => enum (σ s) (d.mapSpan σ)
def mapSpanClauses (σ : Span → Span) : List Clause → List Clause
  | [] => []
  | ⟨c, b⟩ :: cs => ⟨c.mapSpan σ, mapSpanBlock σ b⟩ :: mapSpanClauses σ cs
def mapSpanArms (σ : Span → Span) : List Arm → List Arm
  | [] => []
  | ⟨p, b⟩ :: as => ⟨p.mapSpan σ, mapSpanBlock σ b⟩ :: mapSpanArms σ as
def mapSpanOtherwise (σ : Span → Span) : Option Block → Option Block
  | none => none
  | some b => some (mapSpanBlock σ b)
def mapSpanBlock (σ : Span → Span) : Block → Block
  | [] => []
  | s :: ss => s.mapSpan σ :: mapSpanBlock σ ss
end

end Stmt

def Clause.mapSpan (σ : Span → Span) (c : Clause) : Clause :=
  ⟨c.cond.mapSpan σ, Stmt.mapSpanBlock σ c.body⟩

theorem Stmt.mapSpanClauses_cons (σ : Span → Span) (c : Clause) (cs : List Clause) :
    mapSpanClauses σ (c :: cs) = c.mapSpan σ :: mapSpanClauses σ cs := by
  cases c
  rfl

def FunctionDecl.mapSpan (σ : Span → Span) (f : FunctionDecl) : FunctionDecl :=
  ⟨f.name.mapSpan σ, f.params.map (Binding.mapSpan σ), f.result.map (TypeExpr.mapSpan σ),
    Stmt.mapSpanBlock σ f.body⟩

theorem FunctionDecl.map_name_params_mapSpan (σ : Span → Span) (f : FunctionDecl) :
    (f.mapSpan σ).params.map Binding.name = (f.params.map Binding.name).map (Ident.mapSpan σ) := by
  simp only [mapSpan, List.map_map]
  rfl

def Item.mapSpan (σ : Span → Span) : Item → Item
  | .function s f => .function (σ s) (f.mapSpan σ)
  | .stmt s => .stmt (s.mapSpan σ)

def Program.mapSpan (σ : Span → Span) (p : Program) : Program := ⟨p.items.map (Item.mapSpan σ)⟩

/-! Without its places a tree is the same in any place. -/

section Bare

variable (σ : Span → Span)

@[simp] theorem Ident.bare_mapSpan (x : Ident) : (x.mapSpan σ).bare = x.bare := rfl

theorem Ident.bare_comp_mapSpan : Ident.bare ∘ Ident.mapSpan σ = Ident.bare := rfl

namespace TypeExpr

mutual
theorem bare_mapSpan : ∀ t : TypeExpr, (t.mapSpan σ).bare = t.bare
  | mk name args span => by rw [mapSpan, bare, bareAll_mapSpan args, bare, Ident.bare_mapSpan]
theorem bareAll_mapSpan : ∀ ts : List TypeExpr, bareAll (mapSpanAll σ ts) = bareAll ts
  | [] => rfl
  | t :: ts => by rw [mapSpanAll, bareAll, bare_mapSpan t, bareAll_mapSpan ts, bareAll]
end

theorem bare_comp_mapSpan : bare ∘ mapSpan σ = bare := funext (bare_mapSpan σ)

end TypeExpr

namespace Expr

mutual
theorem bare_mapSpan : ∀ e : Expr, (e.mapSpan σ).bare = e.bare
  | int .. | string .. | bool .. | symbol .. => rfl
  | binary n op l r => by rw [mapSpan, bare, bare_mapSpan l, bare_mapSpan r, bare]
  | unary n op e => by rw [mapSpan, bare, bare_mapSpan e, bare]
  | call n c as => by rw [mapSpan, bare, bare_mapSpan c, bareArguments_mapSpan as, bare]
  | list n es => by rw [mapSpan, bare, bareItems_mapSpan es, bare]
  | map n es => by rw [mapSpan, bare, bareEntries_mapSpan es, bare]
  | index n b i => by rw [mapSpan, bare, bare_mapSpan b, bare_mapSpan i, bare]
  | field n b x => by rw [mapSpan, bare, bare_mapSpan b, Ident.bare_mapSpan, bare]
theorem bareArguments_mapSpan : ∀ as : List Argument, bareArguments (mapSpanArguments σ as) = bareArguments as
  | [] => rfl
  | ⟨label, value⟩ :: as => by
    rw [mapSpanArguments, bareArguments, Option.map_map, Ident.bare_comp_mapSpan, bare_mapSpan value,
      bareArguments_mapSpan as, bareArguments]
theorem bareItems_mapSpan : ∀ es : List Expr, bareItems (mapSpanItems σ es) = bareItems es
  | [] => rfl
  | e :: es => by rw [mapSpanItems, bareItems, bare_mapSpan e, bareItems_mapSpan es, bareItems]
theorem bareEntries_mapSpan :
    ∀ es : List (Expr × Expr), bareEntries (mapSpanEntries σ es) = bareEntries es
  | [] => rfl
  | (k, v) :: es => by
    rw [mapSpanEntries, bareEntries, bare_mapSpan k, bare_mapSpan v, bareEntries_mapSpan es, bareEntries]
end

theorem bare_comp_mapSpan : bare ∘ mapSpan σ = bare := funext (bare_mapSpan σ)

end Expr

theorem Binding.bare_comp_mapSpan : Binding.bare ∘ Binding.mapSpan σ = Binding.bare := by
  funext b
  simp only [Function.comp_apply, Binding.mapSpan, Binding.bare, Ident.bare_mapSpan, TypeExpr.bare_mapSpan]

theorem EnumCase.bare_comp_mapSpan : EnumCase.bare ∘ EnumCase.mapSpan σ = EnumCase.bare := by
  funext c
  simp only [Function.comp_apply, EnumCase.mapSpan, EnumCase.bare, Ident.bare_mapSpan, List.map_map,
    TypeExpr.bare_comp_mapSpan]

theorem StructDecl.bare_mapSpan (d : StructDecl) : (d.mapSpan σ).bare = d.bare := by
  simp only [StructDecl.mapSpan, StructDecl.bare, Ident.bare_mapSpan, List.map_map, Binding.bare_comp_mapSpan]

theorem EnumDecl.bare_mapSpan (d : EnumDecl) : (d.mapSpan σ).bare = d.bare := by
  simp only [EnumDecl.mapSpan, EnumDecl.bare, Ident.bare_mapSpan, List.map_map, EnumCase.bare_comp_mapSpan]

theorem LoopVars.bare_mapSpan (v : LoopVars) : (v.mapSpan σ).bare = v.bare := by
  simp only [LoopVars.mapSpan, LoopVars.bare, Ident.bare_mapSpan, Option.map_map, Ident.bare_comp_mapSpan]

theorem Pattern.bare_mapSpan (p : Pattern) : (p.mapSpan σ).bare = p.bare := by
  simp only [Pattern.mapSpan, Pattern.bare, Ident.bare_mapSpan, List.map_map, Ident.bare_comp_mapSpan]

namespace Stmt

mutual
theorem bare_mapSpan : ∀ s : Stmt, (s.mapSpan σ).bare = s.bare
  | letVar _ x t e => by
    rw [mapSpan, bare, Ident.bare_mapSpan, Option.map_map, TypeExpr.bare_comp_mapSpan, Expr.bare_mapSpan, bare]
  | assign _ t e => by rw [mapSpan, bare, Expr.bare_mapSpan, Expr.bare_mapSpan, bare]
  | ret _ e => by rw [mapSpan, bare, Option.map_map, Expr.bare_comp_mapSpan, bare]
  | expr _ e => by rw [mapSpan, bare, Expr.bare_mapSpan, bare]
  | ifElse _ cs o => by rw [mapSpan, bare, bareClauses_mapSpan cs, bareOtherwise_mapSpan o, bare]
  | whileLoop _ c b => by rw [mapSpan, bare, Expr.bare_mapSpan, bareBlock_mapSpan b, bare]
  | forEach _ vs e b => by
    rw [mapSpan, bare, LoopVars.bare_mapSpan, Expr.bare_mapSpan, bareBlock_mapSpan b, bare]
  | matchOn _ e as o => by
    rw [mapSpan, bare, Expr.bare_mapSpan, bareArms_mapSpan as, bareOtherwise_mapSpan o, bare]
  | struct _ d => by rw [mapSpan, bare, StructDecl.bare_mapSpan, bare]
  | enum _ d => by rw [mapSpan, bare, EnumDecl.bare_mapSpan, bare]
theorem bareClauses_mapSpan : ∀ cs : List Clause, bareClauses (mapSpanClauses σ cs) = bareClauses cs
  | [] => rfl
  | ⟨c, b⟩ :: cs => by
    rw [mapSpanClauses, bareClauses, Expr.bare_mapSpan, bareBlock_mapSpan b, bareClauses_mapSpan cs,
      bareClauses]
theorem bareArms_mapSpan : ∀ as : List Arm, bareArms (mapSpanArms σ as) = bareArms as
  | [] => rfl
  | ⟨p, b⟩ :: as => by
    rw [mapSpanArms, bareArms, Pattern.bare_mapSpan, bareBlock_mapSpan b, bareArms_mapSpan as, bareArms]
theorem bareOtherwise_mapSpan : ∀ o : Option Block, bareOtherwise (mapSpanOtherwise σ o) = bareOtherwise o
  | none => rfl
  | some b => by rw [mapSpanOtherwise, bareOtherwise, bareBlock_mapSpan b, bareOtherwise]
theorem bareBlock_mapSpan : ∀ b : Block, bareBlock (mapSpanBlock σ b) = bareBlock b
  | [] => rfl
  | s :: ss => by rw [mapSpanBlock, bareBlock, bare_mapSpan s, bareBlock_mapSpan ss, bareBlock]
end

end Stmt

theorem Item.bare_comp_mapSpan : Item.bare ∘ Item.mapSpan σ = Item.bare := by
  funext i
  cases i with
  | function s f =>
    simp only [Function.comp_apply, Item.mapSpan, Item.bare, FunctionDecl.mapSpan, FunctionDecl.bare, Ident.bare_mapSpan,
      List.map_map, Option.map_map, Binding.bare_comp_mapSpan, TypeExpr.bare_comp_mapSpan, Stmt.bareBlock_mapSpan]
  | stmt s => rw [Function.comp_apply, Item.mapSpan, Item.bare, Stmt.bare_mapSpan, Item.bare]

end Bare

end Gondola
