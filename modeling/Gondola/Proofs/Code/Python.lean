import Gondola.Code.Python
import Gondola.Proofs.Code.Writes

/-! Names in Python programs. Every declaration has a binding, and a block has a scope of its own although
the language gives it none. -/
namespace Gondola.Python

open Typing
open Fragment (Same)

variable {σ : Span → Span}

section Exprs

variable {P : Use → Prop} {cx : Context}

theorem same_builtin {n : Node} {x : Ident} (h : P ⟨n, x, cx.names⟩) (n' : Node) (plain : Bool) :
    Same P (builtin cx n x plain) (builtin (cx.mapSpan σ) n' (x.mapSpan σ) plain) := by
  have hname : (x.mapSpan σ).name = x.name := rfl
  refine (Context.same_use h _ _ _).bind fun _ => ?_
  rw [hname]
  split
  · exact .pure _
  · split
    · exact .pure _
    · exact (Same.need _).bind fun _ => (Same.need _).bind fun _ => .pure _

theorem same_symbol {n : Node} {x : Ident} (h : P ⟨n, x, cx.names⟩) :
    Same P (symbol cx n x) (symbol (cx.mapSpan σ) (n.mapSpan σ) (x.mapSpan σ)) := by
  show Same P (if cx.types.builtins.contains n.id then _ else _)
    (if cx.types.builtins.contains n.id then _ else _)
  split
  · exact same_builtin h _ false
  · exact Context.same_spelled σ h

theorem same_argumentCode {a b : Option String × Code} (h : a.1 = b.1 ∧ Same P a.2 b.2) :
    Same P (argumentCode cx a) (argumentCode (cx.mapSpan σ) b) := by
  obtain ⟨label, x⟩ := a
  obtain ⟨label', y⟩ := b
  obtain ⟨rfl, hxy⟩ := h
  cases label with
  | none => exact hxy
  | some label => exact hxy.bind fun _ => .pure _

@[simp] theorem level_mapSpan (e : Expr) : level (e.mapSpan σ) = level e := by
  cases e <;> rfl

theorem builtinCallee?_mapSpan (c : Expr) : builtinCallee? (cx.mapSpan σ) (c.mapSpan σ) =
    (builtinCallee? cx c).map (Prod.map (Prod.map (Node.mapSpan σ) (Ident.mapSpan σ)) id) := by
  unfold builtinCallee?
  simp only [Context.mapSpan, TypeTable.builtinSymbol?_mapSpan, TypeTable.signatureOf?_mapSpan]
  cases cx.types.builtinSymbol? c with
  | none => rfl
  | some s => cases cx.types.signatureOf? c <;> rfl

theorem builtinCallee?_eq_some {c : Expr} {n : Node} {x : Ident} {sig : Signature}
    (h : builtinCallee? cx c = some ((n, x), sig)) : c = .symbol n x := by
  unfold builtinCallee? at h
  split at h
  · rename_i hb _
    obtain ⟨rfl, rfl⟩ := Prod.mk.inj (Option.some.inj h)
    exact (TypeTable.eq_symbol_of_builtinSymbol? hb).1
  · cases h

theorem arguments_eq (as : List Argument) :
    arguments cx as = as.map fun a => (a.label.map Ident.name, expr cx a.value) := by
  induction as with
  | nil => rfl
  | cons a as ih =>
    obtain ⟨label, value⟩ := a
    rw [arguments, ih, List.map_cons]

theorem items_eq (es : List Expr) : items cx es = Fragment.sequence (es.map (expr cx)) := by
  induction es with
  | nil => rfl
  | cons e es ih => rw [items, ih, List.map_cons, Fragment.sequence]

theorem entries_eq (es : List (Expr × Expr)) :
    entries cx es = Fragment.sequence (es.map fun e => do
      let key ← expr cx e.1
      let value ← expr cx e.2
      return key ++ ": " ++ value) := by
  induction es with
  | nil => rfl
  | cons e es ih => simp only [entries, ih, List.map_cons, Fragment.sequence, bind_assoc, pure_bind]

theorem same_expr (cx : Context) (e : Expr) (h : ∀ s ∈ e.symbols, P ⟨s.1, s.2, cx.names⟩) :
    Same P (expr cx e) (expr (cx.mapSpan σ) (e.mapSpan σ)) := by
  induction e using Expr.induction_children with
  | h e ih =>
    have hall : ∀ c ∈ e.children, Same P (expr cx c) (expr (cx.mapSpan σ) (c.mapSpan σ)) := fun c hc =>
      ih c hc fun s hs => h s (Expr.mem_symbols_iff.mpr (.inr ⟨c, hc, hs⟩))
    cases e with
    | int | string | bool => exact .pure _
    | symbol n x => exact same_symbol (h (n, x) List.mem_cons_self)
    | binary _ op l r =>
      obtain ⟨hl, hr⟩ := List.forall_mem_cons.mp hall
      have hr := hr r List.mem_cons_self
      simp only [expr, Expr.mapSpan, level_mapSpan]
      split
      · exact (Same.need _).bind fun _ => hl.bind fun _ => hr.bind fun _ => .pure _
      · exact hl.bind fun _ => hr.bind fun _ => .pure _
    | unary _ _ e | field _ e _ =>
      simp only [expr, Expr.mapSpan, level_mapSpan]
      exact (hall e List.mem_cons_self).bind fun _ => .pure _
    | call _ c as =>
      obtain ⟨hc, has⟩ := List.forall_mem_cons.mp hall
      have hargs : List.Forall₂ (fun a b => a.1 = b.1 ∧ Same P a.2 b.2) (arguments cx as)
          (arguments (cx.mapSpan σ) (Expr.mapSpanArguments σ as)) := by
        rw [arguments_eq, arguments_eq, Expr.mapSpanArguments_eq_map, List.map_map]
        exact forall₂_map_self fun a ha => ⟨a.name_label_mapSpan σ, List.forall_mem_map.mp has a ha⟩
      simp only [expr, Expr.mapSpan, level_mapSpan, builtinCallee?_mapSpan]
      cases hb : builtinCallee? cx c with
      | some callee =>
        obtain ⟨⟨n, x⟩, sig⟩ := callee
        obtain rfl := builtinCallee?_eq_some hb
        have hplain := TypeTable.all_printsPlainly_mapSpan σ cx.types sig as
        simp only [Option.map_some, Prod.map, id, Context.mapSpan, hplain]
        refine (same_builtin (h (n, x) List.mem_cons_self) _ _).bind fun _ => ?_
        exact (Same.sequence (Signature.forall₂_order hargs)).bind fun _ => .pure _
      | none =>
        have hcodes : List.Forall₂ (Same P) ((arguments cx as).map (argumentCode cx))
            ((arguments (cx.mapSpan σ) (Expr.mapSpanArguments σ as)).map (argumentCode (cx.mapSpan σ))) := by
          rw [List.forall₂_map_left_iff, List.forall₂_map_right_iff]
          exact hargs.imp fun _ _ => same_argumentCode
        exact (Same.sequence hcodes).bind fun _ => hc.bind fun _ => .pure _
    | list _ es =>
      simp only [expr, Expr.mapSpan, items_eq, Expr.mapSpanItems_eq_map, List.map_map]
      exact (Same.sequence (forall₂_map_self hall)).bind fun _ => .pure _
    | map _ es =>
      simp only [expr, Expr.mapSpan, entries_eq, Expr.mapSpanEntries_eq_map, List.map_map]
      refine (Same.sequence (forall₂_map_self fun e he => ?_)).bind fun _ => .pure _
      exact (hall _ (Expr.key_mem_children _ he)).bind fun _ =>
        (hall _ (Expr.value_mem_children _ he)).bind fun _ => .pure _
    | index _ b i =>
      obtain ⟨hb, hi⟩ := List.forall_mem_cons.mp hall
      simp only [expr, Expr.mapSpan, level_mapSpan]
      exact hb.bind fun _ => (hi i List.mem_cons_self).bind fun _ => .pure _

end Exprs

section Stmts

variable {T : TypeTable} {Γ : Env}

theorem writes_exprCode {e : Expr} (he : WellTyped T Γ e) :
    Writes σ T omitsNothing Γ Γ (exprCode T e) (exprCode (T.mapSpan σ) (e.mapSpan σ)) := by
  apply writes_render
  intro names hm
  refine same_expr ⟨T, names⟩ e fun s hs => ?_
  exact (he.symbol hs).resolved hm fun _ _ _ => id

theorem writes_noteGlobal (target : Expr) :
    Writes σ T omitsNothing Γ Γ (noteGlobal target) (noteGlobal (target.mapSpan σ)) := by
  cases target with
  | symbol n x =>
    refine writes_quiet (fun _ => rfl) (fun w => ?_) (fun w => ?_) fun _ => rfl
    · change (if w.names.isGlobalFromFunction _ then _ else w : Writer (List String)).names.scopes = _
      split <;> rfl
    · have hglobal := Names.isGlobalFromFunction_mapSpan σ w.names x.name
      have hspell := Names.spell_mapSpan σ w.names x.name
      show ((), if (w.names.mapSpan σ).isGlobalFromFunction x.name then
        { w.mapSpan σ with extra := insertSorted ((w.names.mapSpan σ).spell x.name) w.extra }
        else w.mapSpan σ) = ((), Writer.mapSpan σ (if w.names.isGlobalFromFunction x.name then _ else w))
      rw [hglobal, hspell]
      split <;> rfl
  | _ => exact .pure ()

theorem writes_structDecl (d : StructDecl) (t : Ty) :
    Writes σ T omitsNothing Γ (declare d.name t Γ) (structDecl d) (structDecl (d.mapSpan σ)) := by
  refine (writes_need _).bind fun _ => (writes_declare d.name t).bind fun _ => writes_space.bind fun _ => ?_
  simp only [StructDecl.mapSpan, List.map_map]
  exact .pure _

theorem writes_enumDecl (d : EnumDecl) (t : Ty) :
    Writes σ T omitsNothing Γ (declare d.name t Γ) (enumDecl d) (enumDecl (d.mapSpan σ)) := by
  refine (writes_need _).bind fun _ => (writes_declare d.name t).bind fun _ => writes_space.bind fun space => ?_
  rw [d.map_cases_mapSpan σ fun name holds => (name, space.ident name, holds)]
  exact .pure _

end Stmts

section Blocks

variable {T : TypeTable}

mutual
theorem writes_stmt : ∀ {s : Stmt} {Γ Γ' : Env} {result : Option Ty},
    StmtTyped T Γ result s Γ' →
      Writes σ T omitsNothing Γ Γ' (stmt T s) (stmt (T.mapSpan σ) (s.mapSpan σ))
  | .letVar _ x _ e, _, _, _, .letVar he _ _ =>
    (writes_exprCode he).bind fun _ => (writes_declare x _).bind fun _ => .pure _
  | .assign _ t e, _, _, _, .assign ht _ _ he _ =>
    (writes_noteGlobal t).bind fun _ => (writes_exprCode ht).bind fun _ =>
      (writes_exprCode he).bind fun _ => .pure _
  | .ret _ none, _, _, _, .ret _ => .pure _
  | .ret _ (some e), _, _, _, .retValue he _ => (writes_exprCode he).bind fun _ => .pure _
  | .expr _ e, _, _, _, .expr he => (writes_exprCode he).bind fun _ => .pure _
  | .ifElse _ cs o, _, _, _, .ifElse hcs _ hbs ho =>
    (writes_clauses cs hcs hbs "if").bind fun _ => (writes_otherwise ho).bind fun _ => .pure _
  | .whileLoop _ c b, _, _, _, .whileLoop hc _ hb => by
    obtain ⟨_, hb⟩ := writes_block hb
    exact (writes_exprCode hc).bind fun _ => hb.inScope.bind fun _ => .pure _
  | .forEach _ v e b, _, _, _, .forEach he _ hb => by
    obtain ⟨_, hb⟩ := writes_block hb
    simp only [stmt, Stmt.mapSpan, LoopVars.names_mapSpan]
    exact (writes_exprCode he).bind fun _ => Writes.inScope
      ((writes_declareAll (length_names v _)).bind fun _ => hb.bind fun _ => .pure _)
  | .matchOn _ e as o, _, _, _, h@(.matchOn he _ _ _ _ ho) => by
    have has := writes_arms as h.arm
    have halone := writes_withoutArms ho
    have hlast := writes_otherwise ho
    refine (writes_exprCode he).bind fun _ => (writes_temp _).bind fun temp =>
      (has temp "if").bind fun _ => ?_
    -- Whether there are arms decides what the block of the last resort hangs on.
    rcases as with _ | ⟨⟨p, b⟩, as⟩
    · exact halone.bind fun _ => .pure _
    · exact hlast.bind fun _ => .pure _
  | .struct _ d, _, _, _, .struct _ => writes_structDecl d _
  | .enum _ d, _, _, _, .enum _ => writes_enumDecl d _
theorem writes_clauses : ∀ (cs : List Clause) {Γ : Env} {result : Option Ty},
    (∀ c ∈ cs, WellTyped T Γ c.cond) → (∀ c ∈ cs, BlockTyped T Γ result c.body) →
    ∀ keyword, Writes σ T omitsNothing Γ Γ (clauses T keyword cs)
      (clauses (T.mapSpan σ) keyword (Stmt.mapSpanClauses σ cs))
  | [], _, _, _, _, _ => .pure _
  | ⟨c, b⟩ :: cs, _, _, hcs, hbs, keyword => by
    obtain ⟨_, hb⟩ := writes_block (hbs ⟨c, b⟩ List.mem_cons_self)
    have hrest := writes_clauses cs (fun c hc => hcs c (List.mem_cons_of_mem _ hc))
      (fun c hc => hbs c (List.mem_cons_of_mem _ hc)) "elif"
    exact (writes_exprCode (hcs ⟨c, b⟩ List.mem_cons_self)).bind fun _ => hb.inScope.bind fun _ =>
      hrest.bind fun _ => .pure _
theorem writes_arms : ∀ (as : List Arm) {Γ : Env} {result : Option Ty},
    (∀ a ∈ as, ∃ ts, a.pattern.bindings.length = ts.length ∧
      BlockTyped T (declareAll a.pattern.bindings ts Γ) result a.body) →
    ∀ temp keyword, Writes σ T omitsNothing Γ Γ (arms T temp keyword as)
      (arms (T.mapSpan σ) temp keyword (Stmt.mapSpanArms σ as))
  | [], _, _, _, _, _ => .pure _
  | ⟨p, b⟩ :: as, _, _, has, temp, keyword => by
    obtain ⟨ts, hlen, hb⟩ := has ⟨p, b⟩ List.mem_cons_self
    obtain ⟨_, hb⟩ := writes_block hb
    have harm := (writes_declareAll hlen).bind fun names => hb.bind fun body =>
      .pure (bindingLines temp 0 names ++ body)
    have hrest := writes_arms as (fun a ha => has a (List.mem_cons_of_mem _ ha)) temp "elif"
    exact harm.inScope.bind fun _ => hrest.bind fun _ => .pure _
theorem writes_otherwise : ∀ {o : Option (List Stmt)} {Γ : Env} {result : Option Ty},
    (∀ b, o = some b → BlockTyped T Γ result b) → Writes σ T omitsNothing Γ Γ (otherwise T o)
      (otherwise (T.mapSpan σ) (Stmt.mapSpanOtherwise σ o))
  | none, _, _, _ => .pure _
  | some b, _, _, h => by
    obtain ⟨_, hb⟩ := writes_block (h b rfl)
    exact hb.inScope.bind fun _ => .pure _
theorem writes_withoutArms : ∀ {o : Option (List Stmt)} {Γ : Env} {result : Option Ty},
    (∀ b, o = some b → BlockTyped T Γ result b) → Writes σ T omitsNothing Γ Γ (withoutArms T o)
      (withoutArms (T.mapSpan σ) (Stmt.mapSpanOtherwise σ o))
  | none, _, _, _ => .pure _
  | some b, _, _, h => by
    obtain ⟨_, hb⟩ := writes_block (h b rfl)
    exact hb.inScope
theorem writes_block : ∀ {b : List Stmt} {Γ : Env} {result : Option Ty},
    BlockTyped T Γ result b →
      ∃ Γ', Writes σ T omitsNothing Γ Γ' (block T b) (block (T.mapSpan σ) (Stmt.mapSpanBlock σ b))
  | [], Γ, _, _ => ⟨Γ, .pure _⟩
  | s :: ss, _, _, .cons h hs => by
    have hfirst := writes_stmt h
    obtain ⟨Γ', hrest⟩ := writes_stmts hs
    exact ⟨Γ', hfirst.bind fun _ => hrest.bind fun _ => .pure _⟩
theorem writes_stmts : ∀ {b : List Stmt} {Γ : Env} {result : Option Ty},
    BlockTyped T Γ result b →
      ∃ Γ', Writes σ T omitsNothing Γ Γ' (stmts T b) (stmts (T.mapSpan σ) (Stmt.mapSpanBlock σ b))
  | [], Γ, _, _ => ⟨Γ, .pure _⟩
  | s :: ss, _, _, .cons h hs => by
    have hfirst := writes_stmt h
    obtain ⟨Γ', hrest⟩ := writes_stmts hs
    exact ⟨Γ', hfirst.bind fun _ => hrest.bind fun _ => .pure _⟩
end

theorem writes_takeGlobals {Γ : Env} : Writes σ T omitsNothing Γ Γ takeGlobals takeGlobals :=
  writes_quiet (fun _ => rfl) (fun _ => rfl) (fun _ => rfl) fun _ => rfl

theorem writes_function {Γ : Env} {f : FunctionDecl} {t : Ty} (h : FunctionTyped T Γ f t) :
    Writes σ T omitsNothing Γ (declare f.name t Γ) (function T f) (function (T.mapSpan σ) (f.mapSpan σ)) := by
  obtain ⟨sig, -, hlen, hb⟩ := h.body
  obtain ⟨_, hb⟩ := writes_block hb
  refine (writes_declare f.name t).bind fun _ => ?_
  rw [FunctionDecl.map_name_params_mapSpan]
  exact (Writes.inFunction ((writes_params hlen).bind fun _ => hb.bind fun _ => .pure _)).bind fun _ =>
    writes_takeGlobals.bind fun _ => .pure _

theorem writes_itemLines {Γ : Env} {is : List Item} (h : ItemsTyped T Γ is) :
    ∃ Γ', Writes σ T omitsNothing Γ Γ' (itemLines T is) (itemLines (T.mapSpan σ) (is.map (Item.mapSpan σ))) := by
  induction h with
  | nil => exact ⟨_, .pure _⟩
  | function hf _ ih =>
    obtain ⟨Γ', his⟩ := ih
    exact ⟨Γ', (writes_function hf).bind fun _ => his.bind fun _ => .pure _⟩
  | stmt hs _ ih =>
    obtain ⟨Γ', his⟩ := ih
    exact ⟨Γ', (writes_stmt hs).bind fun _ => his.bind fun _ => .pure _⟩

theorem writes_program {p : Program} (h : ProgramTyped T p) :
    ∃ Γ, Writes σ T omitsNothing [] Γ (program T p) (program (T.mapSpan σ) (p.mapSpan σ)) := by
  obtain ⟨items⟩ := p
  cases items with
  | nil => exact ⟨[], .pure _⟩
  | cons i is => exact writes_itemLines h

theorem generate_mapSpan (σ : Span → Span) {p : Program} (h : ProgramTyped T p) :
    generate (T.mapSpan σ) (p.mapSpan σ) = generate T p := by
  obtain ⟨_, hprogram⟩ := writes_program (σ := σ) h
  have hsame := hprogram.run space []
  unfold generate lines
  dsimp only
  rw [hsame.value, hsame.needs]

end Blocks

end Gondola.Python
