import Gondola.Code.JavaScript
import Gondola.Proofs.Code.Writes

/-! Names in JavaScript programs. The value of an assignment is written before its target, and both of them
under the same names. -/
namespace Gondola.JavaScript

open Typing
open Fragment (Same)

variable {σ : Span → Span}

section Exprs

variable {P : Use → Prop} {cx : Context}

theorem same_builtin {n : Node} {x : Ident} (h : P ⟨n, x, cx.names⟩) (n' : Node) (plain : Bool) :
    Same P (builtin cx n x plain) (builtin (cx.mapSpan σ) n' (x.mapSpan σ) plain) := by
  have hname : (x.mapSpan σ).name = x.name := rfl
  refine (Context.same_use h _ _ _).bind fun _ => ?_
  rw [hname]
  split
  · exact .pure _
  · split
    · exact .pure _
    · exact (Same.need _).bind fun _ => (Same.need _).bind fun _ => .pure _

theorem same_symbol {n : Node} {x : Ident} (h : P ⟨n, x, cx.names⟩) :
    Same P (symbol cx n x) (symbol (cx.mapSpan σ) (n.mapSpan σ) (x.mapSpan σ)) := by
  show Same P (if cx.types.builtins.contains n.id then _ else _)
    (if cx.types.builtins.contains n.id then _ else _)
  split
  · exact same_builtin h _ false
  · exact Context.same_spelled σ h

theorem same_fieldCode {a b : Option String × Code} (h : a.1 = b.1 ∧ Same P a.2 b.2) :
    Same P (fieldCode cx a) (fieldCode (cx.mapSpan σ) b) := by
  obtain ⟨label, x⟩ := a
  obtain ⟨label', y⟩ := b
  obtain ⟨rfl, hxy⟩ := h
  cases label with
  | none => exact hxy
  | some label => exact hxy.bind fun _ => .pure _

@[simp] theorem level_mapSpan (e : Expr) : level (e.mapSpan σ) = level e := by
  cases e with
  | binary n op l r => cases op <;> rfl
  | _ => rfl

theorem arguments_eq (as : List Argument) :
    arguments cx as = as.map fun a => (a.label.map Ident.name, expr cx a.value) := by
  induction as with
  | nil => rfl
  | cons a as ih =>
    obtain ⟨label, value⟩ := a
    rw [arguments, ih, List.map_cons]

theorem items_eq (es : List Expr) : items cx es = Fragment.sequence (es.map (expr cx)) := by
  induction es with
  | nil => rfl
  | cons e es ih => rw [items, ih, List.map_cons, Fragment.sequence]

theorem entries_eq (es : List (Expr × Expr)) :
    entries cx es = Fragment.sequence (es.map fun e => do
      let key ← expr cx e.1
      let value ← expr cx e.2
      return "[" ++ key ++ ", " ++ value ++ "]") := by
  induction es with
  | nil => rfl
  | cons e es ih => simp only [entries, ih, List.map_cons, Fragment.sequence, bind_assoc, pure_bind]

theorem same_expr (cx : Context) (e : Expr) (h : ∀ s ∈ e.symbols, P ⟨s.1, s.2, cx.names⟩) :
    Same P (expr cx e) (expr (cx.mapSpan σ) (e.mapSpan σ)) := by
  induction e using Expr.induction_children with
  | h e ih =>
    have hall : ∀ c ∈ e.children, Same P (expr cx c) (expr (cx.mapSpan σ) (c.mapSpan σ)) := fun c hc =>
      ih c hc fun s hs => h s (Expr.mem_symbols_iff.mpr (.inr ⟨c, hc, hs⟩))
    cases e with
    | int | string | bool => exact .pure _
    | symbol n x => exact same_symbol (h (n, x) List.mem_cons_self)
    | binary _ _ l r =>
      obtain ⟨hl, hr⟩ := List.forall_mem_cons.mp hall
      simp only [expr, Expr.mapSpan, level_mapSpan]
      exact hl.bind fun _ => (hr r List.mem_cons_self).bind fun _ => .pure _
    | unary _ _ e | field _ e _ =>
      simp only [expr, Expr.mapSpan, level_mapSpan]
      exact (hall e List.mem_cons_self).bind fun _ => .pure _
    | call _ c as =>
      obtain ⟨hc, has⟩ := List.forall_mem_cons.mp hall
      have hargs : List.Forall₂ (fun a b => a.1 = b.1 ∧ Same P a.2 b.2) (arguments cx as)
          (arguments (cx.mapSpan σ) (Expr.mapSpanArguments σ as)) := by
        rw [arguments_eq, arguments_eq, Expr.mapSpanArguments_eq_map, List.map_map]
        exact forall₂_map_self fun a ha => ⟨a.name_label_mapSpan σ, List.forall_mem_map.mp has a ha⟩
      have hsig : (cx.mapSpan σ).types.signatureOf? (c.mapSpan σ) = cx.types.signatureOf? c :=
        TypeTable.signatureOf?_mapSpan σ cx.types c
      have hsymbol : (cx.mapSpan σ).types.builtinSymbol? (c.mapSpan σ) =
          (cx.types.builtinSymbol? c).map (Prod.map (Node.mapSpan σ) (Ident.mapSpan σ)) :=
        TypeTable.builtinSymbol?_mapSpan σ cx.types c
      simp only [expr, Expr.mapSpan, level_mapSpan, hsig, hsymbol]
      cases cx.types.signatureOf? c with
      | some sig =>
        have hordered := Same.sequence (Signature.forall₂_order (s := sig) hargs)
        cases hb : cx.types.builtinSymbol? c with
        | some callee =>
          obtain ⟨n, x⟩ := callee
          obtain ⟨rfl, -⟩ := TypeTable.eq_symbol_of_builtinSymbol? hb
          have hplain : (sig.order ((Expr.mapSpanArguments σ as).map Argument.labelled)).all
              (cx.mapSpan σ).types.printsPlainly = _ := TypeTable.all_printsPlainly_mapSpan σ cx.types sig as
          simp only [Option.map_some, Prod.map, hplain]
          exact (same_builtin (h (n, x) List.mem_cons_self) _ _).bind fun _ => hordered.bind fun _ => .pure _
        | none => exact (hc.map _).bind fun _ => hordered.bind fun _ => .pure _
      | none =>
        have hfields : List.Forall₂ (Same P) ((arguments cx as).map (fieldCode cx))
            ((arguments (cx.mapSpan σ) (Expr.mapSpanArguments σ as)).map (fieldCode (cx.mapSpan σ))) := by
          rw [List.forall₂_map_left_iff, List.forall₂_map_right_iff]
          exact hargs.imp fun _ _ => same_fieldCode
        exact (Same.sequence hfields).bind fun _ => hc.bind fun _ => .pure _
    | list _ es =>
      simp only [expr, Expr.mapSpan, items_eq, Expr.mapSpanItems_eq_map, List.map_map]
      exact (Same.sequence (forall₂_map_self hall)).bind fun _ => .pure _
    | map _ es =>
      simp only [expr, Expr.mapSpan, entries_eq, Expr.mapSpanEntries_eq_map, List.map_map]
      refine (Same.sequence (forall₂_map_self fun e he => ?_)).bind fun _ => .pure _
      exact (hall _ (Expr.key_mem_children _ he)).bind fun _ =>
        (hall _ (Expr.value_mem_children _ he)).bind fun _ => .pure _
    | index _ b i =>
      obtain ⟨hb, hi⟩ := List.forall_mem_cons.mp hall
      have hmap : (cx.mapSpan σ).types.isMap (b.mapSpan σ) = cx.types.isMap b :=
        TypeTable.isMap_mapSpan σ cx.types b
      simp only [expr, Expr.mapSpan, level_mapSpan, hmap]
      exact hb.bind fun _ => (hi i List.mem_cons_self).bind fun _ => .pure _

end Exprs

section Stmts

variable {T : TypeTable} {Γ : Env}

theorem writes_exprCode {e : Expr} (he : WellTyped T Γ e) :
    Writes σ T omitsNothing Γ Γ (exprCode T e) (exprCode (T.mapSpan σ) (e.mapSpan σ)) := by
  apply writes_render
  intro names hm
  refine same_expr ⟨T, names⟩ e fun s hs => ?_
  exact (he.symbol hs).resolved hm fun _ _ _ => id

theorem writes_operandOf {e : Expr} (he : WellTyped T Γ e) :
    Writes σ T omitsNothing Γ Γ (operandOf T e) (operandOf (T.mapSpan σ) (e.mapSpan σ)) := by
  unfold operandOf
  rw [level_mapSpan]
  exact (writes_exprCode he).bind fun _ => .pure _

theorem writes_matchTemp : Writes σ T omitsNothing Γ Γ matchTemp matchTemp :=
  writes_quiet (fun _ => rfl) (fun _ => rfl) (fun _ => rfl) fun _ => rfl

theorem writes_structDecl (d : StructDecl) (t : Ty) :
    Writes σ T omitsNothing Γ (declare d.name t Γ) (structDecl d) (structDecl (d.mapSpan σ)) := by
  refine (writes_need _).bind fun _ => (writes_declare d.name t).bind fun _ => writes_space.bind fun _ => ?_
  simp only [StructDecl.mapSpan, List.map_map]
  exact .pure _

theorem writes_enumDecl (d : EnumDecl) (t : Ty) :
    Writes σ T omitsNothing Γ (declare d.name t Γ) (enumDecl d) (enumDecl (d.mapSpan σ)) := by
  refine (writes_need _).bind fun _ => (writes_declare d.name t).bind fun _ => writes_space.bind fun space => ?_
  rw [d.map_cases_mapSpan σ fun name holds => (name, space.ident name, holds)]
  exact .pure _

theorem writes_assignment {target value : Expr} (ht : WellTyped T Γ target) (he : WellTyped T Γ value) :
    Writes σ T omitsNothing Γ Γ (assignment T target value)
      (assignment (T.mapSpan σ) (target.mapSpan σ) (value.mapSpan σ)) := by
  refine (writes_exprCode he).bind fun _ => ?_
  cases target with
  | index n b i =>
    simp only [Expr.mapSpan, TypeTable.isMap_mapSpan]
    split
    · -- The base and the place of an entry are written apart.
      obtain ⟨hb, hi⟩ := ht.of_index
      exact (writes_operandOf hb).bind fun _ => (writes_exprCode hi).bind fun _ => .pure _
    · exact (writes_exprCode ht).bind fun _ => .pure _
  | _ => exact (writes_exprCode ht).bind fun _ => .pure _

end Stmts

section Blocks

variable {T : TypeTable}

mutual
theorem writes_stmt : ∀ {s : Stmt} {Γ Γ' : Env} {result : Option Ty},
    StmtTyped T Γ result s Γ' →
      Writes σ T omitsNothing Γ Γ' (stmt T s) (stmt (T.mapSpan σ) (s.mapSpan σ))
  | .letVar _ x _ e, _, _, _, .letVar he _ _ =>
    (writes_exprCode he).bind fun _ => (writes_declare x _).bind fun _ => .pure _
  | .assign _ t e, _, _, _, .assign ht _ _ he _ => writes_assignment ht he
  | .ret _ none, _, _, _, .ret _ => .pure _
  | .ret _ (some e), _, _, _, .retValue he _ => (writes_exprCode he).bind fun _ => .pure _
  | .expr _ e, _, _, _, .expr he => (writes_exprCode he).bind fun _ => .pure _
  | .ifElse _ cs o, _, _, _, .ifElse hcs _ hbs ho =>
    (writes_clauses cs hcs hbs true).bind fun _ => (writes_otherwise ho).bind fun _ => .pure _
  | .whileLoop _ c b, _, _, _, .whileLoop hc _ hb => by
    obtain ⟨_, hb⟩ := writes_block hb
    exact (writes_exprCode hc).bind fun _ => hb.inScope.bind fun _ => .pure _
  | .forEach _ v e b, _, _, _, .forEach he _ hb => by
    obtain ⟨_, hb⟩ := writes_block hb
    simp only [stmt, Stmt.mapSpan, LoopVars.names_mapSpan]
    exact (writes_operandOf he).bind fun _ => Writes.inScope
      ((writes_declareAll (length_names v _)).bind fun _ => hb.bind fun _ => .pure _)
  | .matchOn _ e as o, _, _, _, h@(.matchOn he _ _ _ _ ho) => by
    have has := writes_arms as h.arm
    have halone := writes_withoutArms ho
    have hlast := writes_otherwise ho
    refine writes_matchTemp.bind fun temp => (writes_exprCode he).bind fun _ =>
      (has temp true).bind fun _ => ?_
    -- Whether there are arms decides what the block of the last resort hangs on.
    rcases as with _ | ⟨⟨p, b⟩, as⟩
    · exact halone.bind fun _ => .pure _
    · exact (hlast.map _).bind fun _ => .pure _
  | .struct _ d, _, _, _, .struct _ => writes_structDecl d _
  | .enum _ d, _, _, _, .enum _ => writes_enumDecl d _
theorem writes_clauses : ∀ (cs : List Clause) {Γ : Env} {result : Option Ty},
    (∀ c ∈ cs, WellTyped T Γ c.cond) → (∀ c ∈ cs, BlockTyped T Γ result c.body) →
    ∀ first, Writes σ T omitsNothing Γ Γ (clauses T first cs)
      (clauses (T.mapSpan σ) first (Stmt.mapSpanClauses σ cs))
  | [], _, _, _, _, _ => .pure _
  | ⟨c, b⟩ :: cs, _, _, hcs, hbs, first => by
    obtain ⟨_, hb⟩ := writes_block (hbs ⟨c, b⟩ List.mem_cons_self)
    have hrest := writes_clauses cs (fun c hc => hcs c (List.mem_cons_of_mem _ hc))
      (fun c hc => hbs c (List.mem_cons_of_mem _ hc)) false
    exact (writes_exprCode (hcs ⟨c, b⟩ List.mem_cons_self)).bind fun _ => hb.inScope.bind fun _ =>
      hrest.bind fun _ => .pure _
theorem writes_arms : ∀ (as : List Arm) {Γ : Env} {result : Option Ty},
    (∀ a ∈ as, ∃ ts, a.pattern.bindings.length = ts.length ∧
      BlockTyped T (declareAll a.pattern.bindings ts Γ) result a.body) →
    ∀ temp first, Writes σ T omitsNothing Γ Γ (arms T temp first as)
      (arms (T.mapSpan σ) temp first (Stmt.mapSpanArms σ as))
  | [], _, _, _, _, _ => .pure _
  | ⟨p, b⟩ :: as, _, _, has, temp, first => by
    obtain ⟨ts, hlen, hb⟩ := has ⟨p, b⟩ List.mem_cons_self
    obtain ⟨_, hb⟩ := writes_block hb
    have harm := (writes_declareAll hlen).bind fun names => hb.bind fun body =>
      .pure (bindingLines temp names ++ body)
    have hrest := writes_arms as (fun a ha => has a (List.mem_cons_of_mem _ ha)) temp false
    exact harm.inScope.bind fun _ => hrest.bind fun _ => .pure _
theorem writes_otherwise : ∀ {o : Option (List Stmt)} {Γ : Env} {result : Option Ty},
    (∀ b, o = some b → BlockTyped T Γ result b) → Writes σ T omitsNothing Γ Γ (otherwise T o)
      (otherwise (T.mapSpan σ) (Stmt.mapSpanOtherwise σ o))
  | none, _, _, _ => .pure _
  | some b, _, _, h => by
    obtain ⟨_, hb⟩ := writes_block (h b rfl)
    exact hb.inScope.bind fun _ => .pure _
theorem writes_withoutArms : ∀ {o : Option (List Stmt)} {Γ : Env} {result : Option Ty},
    (∀ b, o = some b → BlockTyped T Γ result b) → Writes σ T omitsNothing Γ Γ (withoutArms T o)
      (withoutArms (T.mapSpan σ) (Stmt.mapSpanOtherwise σ o))
  | none, _, _, _ => .pure _
  | some b, _, _, h => by
    obtain ⟨_, hb⟩ := writes_block (h b rfl)
    exact hb.inScope.bind fun _ => .pure _
theorem writes_block : ∀ {b : List Stmt} {Γ : Env} {result : Option Ty},
    BlockTyped T Γ result b →
      ∃ Γ', Writes σ T omitsNothing Γ Γ' (block T b) (block (T.mapSpan σ) (Stmt.mapSpanBlock σ b))
  | [], Γ, _, _ => ⟨Γ, .pure _⟩
  | s :: ss, _, _, .cons h hs => by
    have hfirst := writes_stmt h
    obtain ⟨Γ', hrest⟩ := writes_block hs
    exact ⟨Γ', hfirst.bind fun _ => hrest.bind fun _ => .pure _⟩
end

theorem writes_function {Γ : Env} {f : FunctionDecl} {t : Ty} (h : FunctionTyped T Γ f t) :
    Writes σ T omitsNothing Γ (declare f.name t Γ) (function T f) (function (T.mapSpan σ) (f.mapSpan σ)) := by
  obtain ⟨sig, -, hlen, hb⟩ := h.body
  obtain ⟨_, hb⟩ := writes_block hb
  refine (writes_declare f.name t).bind fun _ => ?_
  rw [FunctionDecl.map_name_params_mapSpan]
  exact (Writes.inFunction ((writes_params hlen).bind fun _ => hb.bind fun _ => .pure _)).bind fun _ => .pure _

theorem writes_itemLines {Γ : Env} {is : List Item} (h : ItemsTyped T Γ is) :
    ∃ Γ', Writes σ T omitsNothing Γ Γ' (itemLines T is) (itemLines (T.mapSpan σ) (is.map (Item.mapSpan σ))) := by
  induction h with
  | nil => exact ⟨_, .pure _⟩
  | function hf _ ih =>
    obtain ⟨Γ', his⟩ := ih
    exact ⟨Γ', (writes_function hf).bind fun _ => his.bind fun _ => .pure _⟩
  | stmt hs _ ih =>
    obtain ⟨Γ', his⟩ := ih
    exact ⟨Γ', (writes_stmt hs).bind fun _ => his.bind fun _ => .pure _⟩

theorem generate_mapSpan (σ : Span → Span) {p : Program} (h : ProgramTyped T p) :
    generate (T.mapSpan σ) (p.mapSpan σ) = generate T p := by
  obtain ⟨_, hitems⟩ := writes_itemLines (σ := σ) h
  have hsame := hitems.run space 0
  unfold generate lines
  dsimp only [Program.mapSpan]
  rw [hsame.value, hsame.needs]

end Blocks

end Gondola.JavaScript
