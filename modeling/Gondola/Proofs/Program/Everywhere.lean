import Gondola.Proofs.Program.Parts
import Gondola.Proofs.Program.Placement
import Mathlib.Data.List.Basic

/-! Properties of all places in a tree: those of its expressions, statements, names and written types. -/
namespace Gondola

variable {P : Span → Prop}

inductive TypeExpr.Everywhere (P : Span → Prop) : TypeExpr → Prop
  | mk {name args span} (hname : P name.span) (hargs : ∀ a ∈ args, Everywhere P a) (hspan : P span) :
      Everywhere P (.mk name args span)

inductive Expr.Everywhere (P : Span → Prop) : Expr → Prop
  | int {n v} (hn : P n.span) : Everywhere P (.int n v)
  | string {n t} (hn : P n.span) : Everywhere P (.string n t)
  | bool {n b} (hn : P n.span) : Everywhere P (.bool n b)
  | symbol {n x} (hn : P n.span) (hx : P x.span) : Everywhere P (.symbol n x)
  | binary {n op l r} (hn : P n.span) (hl : Everywhere P l) (hr : Everywhere P r) :
      Everywhere P (.binary n op l r)
  | unary {n op e} (hn : P n.span) (he : Everywhere P e) : Everywhere P (.unary n op e)
  | call {n c as} (hn : P n.span) (hc : Everywhere P c)
      (hlabels : ∀ a ∈ as, ∀ x, a.label = some x → P x.span)
      (has : ∀ a ∈ as, Everywhere P a.value) : Everywhere P (.call n c as)
  | list {n es} (hn : P n.span) (hes : ∀ e ∈ es, Everywhere P e) : Everywhere P (.list n es)
  | map {n es} (hn : P n.span) (hks : ∀ e ∈ es, Everywhere P e.1) (hvs : ∀ e ∈ es, Everywhere P e.2) :
      Everywhere P (.map n es)
  | index {n b i} (hn : P n.span) (hb : Everywhere P b) (hi : Everywhere P i) :
      Everywhere P (.index n b i)
  | field {n b x} (hn : P n.span) (hb : Everywhere P b) (hx : P x.span) : Everywhere P (.field n b x)

structure Binding.Everywhere (P : Span → Prop) (b : Binding) : Prop where
  name : P b.name.span
  type : b.type.Everywhere P

structure EnumCase.Everywhere (P : Span → Prop) (c : EnumCase) : Prop where
  name : P c.name.span
  params : ∀ t ∈ c.params, t.Everywhere P

structure Pattern.Everywhere (P : Span → Prop) (p : Pattern) : Prop where
  name : P p.name.span
  bindings : ∀ x ∈ p.bindings, P x.span

inductive Stmt.Everywhere (P : Span → Prop) : Stmt → Prop
  | letVar {s x a e} (hs : P s) (hx : P x.span) (ha : ∀ t, a = some t → t.Everywhere P)
      (he : e.Everywhere P) : Everywhere P (.letVar s x a e)
  | assign {s t e} (hs : P s) (ht : t.Everywhere P) (he : e.Everywhere P) : Everywhere P (.assign s t e)
  | ret {s v} (hs : P s) (hv : ∀ e, v = some e → e.Everywhere P) : Everywhere P (.ret s v)
  | expr {s e} (hs : P s) (he : e.Everywhere P) : Everywhere P (.expr s e)
  | ifElse {s cs o} (hs : P s) (hcs : ∀ c ∈ cs, c.cond.Everywhere P)
      (hbs : ∀ c ∈ cs, ∀ s ∈ c.body, Everywhere P s)
      (ho : ∀ b, o = some b → ∀ s ∈ b, Everywhere P s) : Everywhere P (.ifElse s cs o)
  | whileLoop {s c b} (hs : P s) (hc : c.Everywhere P) (hb : ∀ s ∈ b, Everywhere P s) :
      Everywhere P (.whileLoop s c b)
  | forEach {s v e b} (hs : P s) (hv : ∀ x ∈ v.names, P x.span) (he : e.Everywhere P)
      (hb : ∀ s ∈ b, Everywhere P s) : Everywhere P (.forEach s v e b)
  | matchOn {s e as o} (hs : P s) (he : e.Everywhere P) (hps : ∀ a ∈ as, a.pattern.Everywhere P)
      (hbs : ∀ a ∈ as, ∀ s ∈ a.body, Everywhere P s)
      (ho : ∀ b, o = some b → ∀ s ∈ b, Everywhere P s) : Everywhere P (.matchOn s e as o)
  | struct {s d} (hs : P s) (hd : P d.name.span) (hfs : ∀ b ∈ d.fields, b.Everywhere P) :
      Everywhere P (.struct s d)
  | enum {s d} (hs : P s) (hd : P d.name.span) (hcs : ∀ c ∈ d.cases, c.Everywhere P) :
      Everywhere P (.enum s d)

inductive Item.Everywhere (P : Span → Prop) : Item → Prop
  | function {s f} (hs : P s) (hf : P f.name.span) (hps : ∀ b ∈ f.params, b.Everywhere P)
      (hr : ∀ t, f.result = some t → t.Everywhere P) (hb : ∀ s ∈ f.body, s.Everywhere P) :
      Everywhere P (.function s f)
  | stmt {s} (hs : s.Everywhere P) : Everywhere P (.stmt s)

def Program.Everywhere (P : Span → Prop) (p : Program) : Prop := ∀ i ∈ p.items, i.Everywhere P

/-! A tree that two changes of places turn into the same one has only places on which they agree. -/
section Agreeing

variable {σ τ : Span → Span}

abbrev AgreeOnly (σ τ : Span → Span) (P : Span → Prop) : Prop := ∀ s, σ s = τ s → P s

theorem Ident.place_of_mapSpan (hP : AgreeOnly σ τ P) {x : Ident} (h : x.mapSpan σ = x.mapSpan τ) : P x.span :=
  hP _ (Ident.mk.inj h).2

theorem Node.place_of_mapSpan (hP : AgreeOnly σ τ P) {n : Node} (h : n.mapSpan σ = n.mapSpan τ) : P n.span :=
  hP _ (Node.mk.inj h).2

mutual
theorem TypeExpr.everywhere_of_mapSpan (hP : AgreeOnly σ τ P) :
    ∀ t : TypeExpr, t.mapSpan σ = t.mapSpan τ → t.Everywhere P
  | .mk _ args _, h => by
    simp only [mapSpan, TypeExpr.mk.injEq] at h
    exact .mk (Ident.place_of_mapSpan hP h.1) (everywhere_of_mapSpanAll hP args h.2.1) (hP _ h.2.2)
theorem TypeExpr.everywhere_of_mapSpanAll (hP : AgreeOnly σ τ P) :
    ∀ ts : List TypeExpr, mapSpanAll σ ts = mapSpanAll τ ts → ∀ t ∈ ts, t.Everywhere P
  | [], _ => nofun
  | t :: ts, h => by
    obtain ⟨ht, hts⟩ := List.cons.inj h
    exact List.forall_mem_cons.mpr ⟨everywhere_of_mapSpan hP t ht, everywhere_of_mapSpanAll hP ts hts⟩
end

theorem TypeExpr.everywhere_of_map (hP : AgreeOnly σ τ P) {o : Option TypeExpr}
    (h : o.map (mapSpan σ) = o.map (mapSpan τ)) : ∀ t, o = some t → t.Everywhere P := by
  rintro t rfl
  exact t.everywhere_of_mapSpan hP (Option.some.inj h)

theorem Expr.everywhere_of_mapSpan (hP : AgreeOnly σ τ P) (e : Expr) (h : e.mapSpan σ = e.mapSpan τ) :
    e.Everywhere P := by
  have hplace {n : Node} := Node.place_of_mapSpan (n := n) hP
  have hname {x : Ident} := Ident.place_of_mapSpan (x := x) hP
  induction e using Expr.induction_children with
  | h e ih =>
    cases e with
    | int n v => exact .int (hplace (Expr.int.inj h).1)
    | string n t => exact .string (hplace (Expr.string.inj h).1)
    | bool n b => exact .bool (hplace (Expr.bool.inj h).1)
    | symbol n x =>
      simp only [mapSpan, Expr.symbol.injEq] at h
      exact .symbol (hplace h.1) (hname h.2)
    | binary n op l r =>
      simp only [mapSpan, Expr.binary.injEq] at h
      exact .binary (hplace h.1) (ih l List.mem_cons_self h.2.2.1)
        (ih r (List.mem_cons_of_mem _ List.mem_cons_self) h.2.2.2)
    | unary n op e =>
      simp only [mapSpan, Expr.unary.injEq] at h
      exact .unary (hplace h.1) (ih e List.mem_cons_self h.2.2)
    | call n c as =>
      simp only [mapSpan, mapSpanArguments_eq_map, Expr.call.injEq, List.map_inj_left, Argument.mapSpan,
        Argument.mk.injEq] at h
      refine .call (hplace h.1) (ih c List.mem_cons_self h.2.1) (fun a ha x hx => ?_) fun a ha => ?_
      · have hlabel := (h.2.2 a ha).1
        rw [hx] at hlabel
        exact hname (Option.some.inj hlabel)
      · exact ih _ (List.mem_cons_of_mem _ (List.mem_map_of_mem ha)) (h.2.2 a ha).2
    | list n es =>
      simp only [mapSpan, mapSpanItems_eq_map, Expr.list.injEq, List.map_inj_left] at h
      exact .list (hplace h.1) fun e he => ih e he (h.2 e he)
    | map n es =>
      simp only [mapSpan, mapSpanEntries_eq_map, Expr.map.injEq, List.map_inj_left, Prod.map, Prod.mk.injEq] at h
      exact .map (hplace h.1) (fun e he => ih _ (Expr.key_mem_children _ he) (h.2 e he).1)
        fun e he => ih _ (Expr.value_mem_children _ he) (h.2 e he).2
    | index n b i =>
      simp only [mapSpan, Expr.index.injEq] at h
      exact .index (hplace h.1) (ih b List.mem_cons_self h.2.1)
        (ih i (List.mem_cons_of_mem _ List.mem_cons_self) h.2.2)
    | field n b x =>
      simp only [mapSpan, Expr.field.injEq] at h
      exact .field (hplace h.1) (ih b List.mem_cons_self h.2.1) (hname h.2.2)

theorem Binding.everywhere_of_map (hP : AgreeOnly σ τ P) {bs : List Binding}
    (h : bs.map (mapSpan σ) = bs.map (mapSpan τ)) : ∀ b ∈ bs, b.Everywhere P := by
  intro b hb
  obtain ⟨hname, htype⟩ := Binding.mk.inj (List.map_inj_left.mp h b hb)
  exact ⟨Ident.place_of_mapSpan hP hname, b.type.everywhere_of_mapSpan hP htype⟩

theorem EnumCase.everywhere_of_map (hP : AgreeOnly σ τ P) {cs : List EnumCase}
    (h : cs.map (mapSpan σ) = cs.map (mapSpan τ)) : ∀ c ∈ cs, c.Everywhere P := by
  intro c hc
  obtain ⟨hname, hparams⟩ := EnumCase.mk.inj (List.map_inj_left.mp h c hc)
  exact ⟨Ident.place_of_mapSpan hP hname, fun t ht => t.everywhere_of_mapSpan hP (List.map_inj_left.mp hparams t ht)⟩

theorem Ident.places_of_map (hP : AgreeOnly σ τ P) {xs : List Ident} (h : xs.map (mapSpan σ) = xs.map (mapSpan τ)) :
    ∀ x ∈ xs, P x.span :=
  fun x hx => Ident.place_of_mapSpan hP (List.map_inj_left.mp h x hx)

theorem Pattern.everywhere_of_mapSpan (hP : AgreeOnly σ τ P) {p : Pattern} (h : p.mapSpan σ = p.mapSpan τ) :
    p.Everywhere P := by
  obtain ⟨hname, hbindings⟩ := Pattern.mk.inj h
  exact ⟨Ident.place_of_mapSpan hP hname, Ident.places_of_map hP hbindings⟩

namespace Stmt

mutual
theorem everywhere_of_mapSpan (hP : AgreeOnly σ τ P) : ∀ s : Stmt, s.mapSpan σ = s.mapSpan τ → s.Everywhere P
  | .letVar _ _ _ e, h => by
    simp only [mapSpan, Stmt.letVar.injEq] at h
    exact .letVar (hP _ h.1) (Ident.place_of_mapSpan hP h.2.1) (TypeExpr.everywhere_of_map hP h.2.2.1)
      (e.everywhere_of_mapSpan hP h.2.2.2)
  | .assign _ t e, h => by
    simp only [mapSpan, Stmt.assign.injEq] at h
    exact .assign (hP _ h.1) (t.everywhere_of_mapSpan hP h.2.1) (e.everywhere_of_mapSpan hP h.2.2)
  | .ret _ v, h => by
    simp only [mapSpan, Stmt.ret.injEq] at h
    refine .ret (hP _ h.1) ?_
    rintro e rfl
    exact e.everywhere_of_mapSpan hP (Option.some.inj h.2)
  | .expr _ e, h => by
    simp only [mapSpan, Stmt.expr.injEq] at h
    exact .expr (hP _ h.1) (e.everywhere_of_mapSpan hP h.2)
  | .ifElse _ cs o, h => by
    simp only [mapSpan, Stmt.ifElse.injEq] at h
    have hcs := clauses_of_mapSpan hP cs h.2.1
    exact .ifElse (hP _ h.1) (fun c hc => (hcs c hc).1) (fun c hc => (hcs c hc).2) (otherwise_of_mapSpan hP o h.2.2)
  | .whileLoop _ c b, h => by
    simp only [mapSpan, Stmt.whileLoop.injEq] at h
    exact .whileLoop (hP _ h.1) (c.everywhere_of_mapSpan hP h.2.1) (block_of_mapSpan hP b h.2.2)
  | .forEach _ v e b, h => by
    simp only [mapSpan, Stmt.forEach.injEq] at h
    have hnames := congrArg LoopVars.names h.2.1
    rw [LoopVars.names_mapSpan, LoopVars.names_mapSpan] at hnames
    exact .forEach (hP _ h.1) (Ident.places_of_map hP hnames) (e.everywhere_of_mapSpan hP h.2.2.1)
      (block_of_mapSpan hP b h.2.2.2)
  | .matchOn _ e as o, h => by
    simp only [mapSpan, Stmt.matchOn.injEq] at h
    have has := arms_of_mapSpan hP as h.2.2.1
    exact .matchOn (hP _ h.1) (e.everywhere_of_mapSpan hP h.2.1) (fun a ha => (has a ha).1)
      (fun a ha => (has a ha).2) (otherwise_of_mapSpan hP o h.2.2.2)
  | .struct _ d, h => by
    simp only [mapSpan, StructDecl.mapSpan, Stmt.struct.injEq, StructDecl.mk.injEq] at h
    exact .struct (hP _ h.1) (Ident.place_of_mapSpan hP h.2.1) (Binding.everywhere_of_map hP h.2.2)
  | .enum _ d, h => by
    simp only [mapSpan, EnumDecl.mapSpan, Stmt.enum.injEq, EnumDecl.mk.injEq] at h
    exact .enum (hP _ h.1) (Ident.place_of_mapSpan hP h.2.1) (EnumCase.everywhere_of_map hP h.2.2)
theorem clauses_of_mapSpan (hP : AgreeOnly σ τ P) : ∀ cs : List Clause, mapSpanClauses σ cs = mapSpanClauses τ cs →
    ∀ c ∈ cs, c.cond.Everywhere P ∧ ∀ s ∈ c.body, s.Everywhere P
  | [], _ => nofun
  | ⟨c, b⟩ :: cs, h => by
    simp only [mapSpanClauses, List.cons.injEq, Clause.mk.injEq] at h
    exact List.forall_mem_cons.mpr ⟨⟨c.everywhere_of_mapSpan hP h.1.1, block_of_mapSpan hP b h.1.2⟩,
      clauses_of_mapSpan hP cs h.2⟩
theorem arms_of_mapSpan (hP : AgreeOnly σ τ P) : ∀ as : List Arm, mapSpanArms σ as = mapSpanArms τ as →
    ∀ a ∈ as, a.pattern.Everywhere P ∧ ∀ s ∈ a.body, s.Everywhere P
  | [], _ => nofun
  | ⟨p, b⟩ :: as, h => by
    simp only [mapSpanArms, List.cons.injEq, Arm.mk.injEq] at h
    exact List.forall_mem_cons.mpr ⟨⟨Pattern.everywhere_of_mapSpan hP h.1.1, block_of_mapSpan hP b h.1.2⟩,
      arms_of_mapSpan hP as h.2⟩
theorem otherwise_of_mapSpan (hP : AgreeOnly σ τ P) : ∀ o : Option Block, mapSpanOtherwise σ o = mapSpanOtherwise τ o →
    ∀ b, o = some b → ∀ s ∈ b, s.Everywhere P
  | none, _ => nofun
  | some b, h => by
    rintro _ ⟨⟩
    exact block_of_mapSpan hP b (Option.some.inj h)
theorem block_of_mapSpan (hP : AgreeOnly σ τ P) :
    ∀ b : Block, mapSpanBlock σ b = mapSpanBlock τ b → ∀ s ∈ b, s.Everywhere P
  | [], _ => nofun
  | s :: ss, h => by
    obtain ⟨hs, hss⟩ := List.cons.inj h
    exact List.forall_mem_cons.mpr ⟨everywhere_of_mapSpan hP s hs, block_of_mapSpan hP ss hss⟩
end

end Stmt

theorem Program.everywhere_of_mapSpan (hP : AgreeOnly σ τ P) {p : Program} (h : p.mapSpan σ = p.mapSpan τ) :
    p.Everywhere P := by
  intro i hi
  have heq := List.map_inj_left.mp (Program.mk.inj h) i hi
  cases i with
  | function s f =>
    simp only [Item.mapSpan, FunctionDecl.mapSpan, Item.function.injEq, FunctionDecl.mk.injEq] at heq
    obtain ⟨hs, hname, hparams, hresult, hbody⟩ := heq
    exact .function (hP _ hs) (Ident.place_of_mapSpan hP hname) (Binding.everywhere_of_map hP hparams)
      (TypeExpr.everywhere_of_map hP hresult) (Stmt.block_of_mapSpan hP f.body hbody)
  | stmt s => exact .stmt (s.everywhere_of_mapSpan hP (Item.stmt.inj heq))

end Agreeing

end Gondola
