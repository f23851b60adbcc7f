import Gondola.Code.Native
import Gondola.Proofs.Code.Writes

/-! Names in C programs. The names of structs and enums have no binding, and no symbol that is written can mean one. -/
namespace Gondola.Native

open Typing
open Fragment (Same)

variable {σ : Span → Span}

/-- The types of names that stand for types. -/
def omitsTypes (t : Ty) : Prop := ∃ u, t = .metatype u

/-- The symbols that can be written: built-ins, and those of a type that has a form. -/
def Writable (T : TypeTable) (n : Node) : Prop :=
  n.id ∈ T.builtins ∨ hasNoForm ((T.typeAt? n.id).getD .any) = false

section Parts

variable {P : Use → Prop}

mutual
theorem all_cType : ∀ t : Ty, (cType t).All P
  | .bool | .int | .string | .void | .any | .list _ | .map .. | .struct .. | .enum .. | .metatype _ =>
    .pure _
  | .function ps _ r => (all_cTypes ps).bind fun _ => (all_cType r).bind fun _ =>
    (Fragment.All.need _).bind fun _ => .pure _
theorem all_cTypes : ∀ ts : List Ty, (cTypes ts).All P
  | [] => .pure _
  | t :: ts => (all_cType t).bind fun _ => (all_cTypes ts).bind fun _ => .pure _
end

theorem all_readWord (t : Ty) (code : String) : (readWord t code).All P := by
  refine (all_cType t).bind fun _ => ?_
  split
  · exact .pure _
  · exact .pure _

@[simp] theorem typeOf_mapSpan (T : TypeTable) (e : Expr) : typeOf (T.mapSpan σ) (e.mapSpan σ) = typeOf T e :=
  congrArg (Option.getD · Ty.any) (TypeTable.typeOf?_mapSpan σ T e)

/-- Arguments of one type, whose code is the same wherever it has to stand. -/
structure Operand.Same (P : Use → Prop) (a b : Operand) : Prop where
  type : a.type = b.type
  code : ∀ wanted, Fragment.Same P (a.code wanted) (b.code wanted)

theorem same_coerced {as bs : List Operand} (h : List.Forall₂ (Operand.Same P) as bs) (ts : List Ty) :
    List.Forall₂ (Same P) (coerced as ts) (coerced bs ts) := by
  induction h generalizing ts with
  | nil => exact .nil
  | cons hab _ ih =>
    cases ts with
    | nil => exact .nil
    | cons t ts => exact .cons (hab.code (some t)) (ih ts)

theorem same_readWord (t : Ty) (code : String) : Same P (readWord t code) (readWord t code) :=
  ⟨rfl, rfl, all_readWord t code⟩

theorem same_valueCode {T : TypeTable} {n : Node} {wanted : Option Ty} {x y : Code}
    (h : hasNoForm ((T.typeAt? n.id).getD .any) = false → Same P x y) :
    Same P (valueCode T n wanted x) (valueCode (T.mapSpan σ) (n.mapSpan σ) wanted y) := by
  have htype : (T.mapSpan σ).typeAt? (n.mapSpan σ).id = T.typeAt? n.id := rfl
  unfold valueCode
  simp only [htype]
  generalize (T.typeAt? n.id).getD .any = own at h
  have hplain : Same P (if hasNoForm own then pure (unsupported ("value of type " ++ own.text)) else x)
      (if hasNoForm own then pure (unsupported ("value of type " ++ own.text)) else y) := by
    split
    · exact .pure _
    · rename_i hform
      exact h (Bool.not_eq_true _ ▸ hform)
  split
  · exact hplain.bind fun text => same_readWord _ text
  · exact hplain

theorem mem_coerced {args : List Operand} {params : List Ty} {code : Code}
    (h : code ∈ coerced args params) : ∃ a ∈ args, ∃ t, code = a.code (some t) := by
  obtain ⟨⟨a, t⟩, hin, rfl⟩ := List.mem_map.mp h
  exact ⟨a, (List.of_mem_zip hin).1, t, rfl⟩

theorem printer?_eq_some {T : TypeTable} {c : Expr} {args : List Operand} {n : Node} {x : Ident}
    {name : String} {arg : Operand} (h : printer? T c args = some ((n, x), name, arg)) :
    arg ∈ args ∧ c = .symbol n x ∧ n.id ∈ T.builtins := by
  unfold printer? at h
  split at h
  · rename_i hb
    obtain ⟨_, -, he⟩ := Option.map_eq_some_iff.mp h
    simp only [Prod.mk.injEq] at he
    obtain ⟨⟨rfl, rfl⟩, -, rfl⟩ := he
    exact ⟨List.mem_cons_self, TypeTable.eq_symbol_of_builtinSymbol? hb⟩
  · cases h

theorem same_printer? {T : TypeTable} (c : Expr) {as bs : List Operand}
    (h : List.Forall₂ (Operand.Same P) as bs) :
    Option.Rel (fun a b => a.2.1 = b.2.1 ∧ Operand.Same P a.2.2 b.2.2) (printer? T c as)
      (printer? (T.mapSpan σ) (c.mapSpan σ) bs) := by
  unfold printer?
  rw [TypeTable.builtinSymbol?_mapSpan]
  rcases h with _ | @⟨a, b, as, bs, hab, hs⟩
  · exact .none
  · rcases hs with _ | ⟨_, _⟩
    · cases T.builtinSymbol? c with
      | none => exact .none
      | some symbol =>
        have hname : (symbol.2.mapSpan σ).name = symbol.2.name := rfl
        simp only [Option.map_some, Prod.map, hname]
        cases Target.native.builtin? symbol.2.name with
        | none => exact .none
        | some name => exact .some ⟨rfl, hab⟩
    · exact .none

end Parts

section Exprs

variable {P : Use → Prop} (cx : Context)

def operandOf (a : Argument) : Option String × Operand :=
  (a.label.map Ident.name, ⟨typeOf cx.types a.value, fun wanted => expr cx a.value wanted⟩)

theorem arguments_eq (as : List Argument) : arguments cx as = as.map (operandOf cx) := by
  induction as with
  | nil => rfl
  | cons a as ih =>
    obtain ⟨label, value⟩ := a
    rw [arguments, ih, List.map_cons]
    rfl

theorem mem_order_arguments {sig : Signature} {as : List Argument} {a : Operand}
    (h : a ∈ sig.order (arguments cx as)) : ∃ b ∈ as, a = (operandOf cx b).2 := by
  obtain ⟨label, hin⟩ := Signature.mem_order h
  rw [arguments_eq] at hin
  obtain ⟨b, hb, heq⟩ := List.mem_map.mp hin
  exact ⟨b, hb, by rw [heq]⟩

theorem items_eq (es : List Expr) : items cx es = Fragment.sequence (es.map fun e => expr cx e none) := by
  induction es with
  | nil => rfl
  | cons e es ih => rw [items, ih, List.map_cons, Fragment.sequence]

theorem entries_eq (es : List (Expr × Expr)) :
    entries cx es = Fragment.sequence (es.map fun e => do
      let key ← expr cx e.1 none
      let value ← expr cx e.2 none
      return (key, value)) := by
  induction es with
  | nil => rfl
  | cons e es ih => simp only [entries, ih, List.map_cons, Fragment.sequence, bind_assoc, pure_bind]

theorem same_expr (e : Expr) (h : ∀ s ∈ e.symbols, Writable cx.types s.1 → P ⟨s.1, s.2, cx.names⟩) :
    ∀ wanted, Same P (expr cx e wanted) (expr (cx.mapSpan σ) (e.mapSpan σ) wanted) := by
  induction e using Expr.induction_children with
  | h e ih =>
    intro wanted
    have hall : ∀ c ∈ e.children, ∀ w, Same P (expr cx c w) (expr (cx.mapSpan σ) (c.mapSpan σ) w) := fun c hc =>
      ih c hc fun s hs => h s (Expr.mem_symbols_iff.mpr (.inr ⟨c, hc, hs⟩))
    cases e with
    | int | string | bool => exact same_valueCode fun _ => .pure _
    | symbol n x =>
      refine same_valueCode fun hform => ?_
      show Same P (if cx.types.builtins.contains n.id then _ else _)
        (if cx.types.builtins.contains n.id then _ else _)
      split
      · exact same_readWord _ _
      · exact Context.same_spelled σ (h (n, x) List.mem_cons_self (.inr hform))
    | binary _ op l r =>
      obtain ⟨hl, hr⟩ := List.forall_mem_cons.mp hall
      simp only [expr, Expr.mapSpan, Expr.precedence_mapSpan]
      exact same_valueCode fun _ => (hl none).bind fun _ => (hr r List.mem_cons_self none).bind fun _ => .pure _
    | unary _ op e =>
      simp only [expr, Expr.mapSpan, Expr.precedence_mapSpan]
      exact same_valueCode fun _ => (hall e List.mem_cons_self none).bind fun _ => .pure _
    | call _ c as =>
      obtain ⟨hc, has⟩ := List.forall_mem_cons.mp hall
      have hargs : List.Forall₂ (fun a b => a.1 = b.1 ∧ Operand.Same P a.2 b.2) (arguments cx as)
          (arguments (cx.mapSpan σ) (Expr.mapSpanArguments σ as)) := by
        rw [arguments_eq, arguments_eq, Expr.mapSpanArguments_eq_map, List.map_map]
        exact forall₂_map_self fun a ha => ⟨a.name_label_mapSpan σ, (typeOf_mapSpan cx.types a.value).symm,
          List.forall_mem_map.mp has a ha⟩
      have hsig : (cx.mapSpan σ).types.signatureOf? (c.mapSpan σ) = cx.types.signatureOf? c :=
        TypeTable.signatureOf?_mapSpan σ cx.types c
      simp only [expr, Expr.mapSpan, Expr.precedence_mapSpan, hsig]
      refine same_valueCode fun _ => ?_
      cases cx.types.signatureOf? c with
      | none => exact .pure _
      | some sig =>
        have hordered := Signature.forall₂_order (s := sig) hargs
        have hprinter : Option.Rel _ (printer? cx.types c _) (printer? (cx.mapSpan σ).types (c.mapSpan σ) _) :=
          same_printer? c hordered
        have hsymbol : ∀ m x name arg, printer? cx.types c (sig.order (arguments cx as)) =
            some ((m, x), name, arg) → c = .symbol m x ∧ m.id ∈ cx.types.builtins :=
          fun _ _ _ _ h => (printer?_eq_some h).2
        dsimp only
        generalize printer? cx.types c _ = left at hprinter hsymbol ⊢
        generalize printer? (cx.mapSpan σ).types (c.mapSpan σ) _ = right at hprinter ⊢
        cases hprinter with
        | none =>
          exact (Same.sequence (same_coerced hordered sig.params)).bind fun _ => (hc none).bind fun _ => .pure _
        | @some a b hab =>
          obtain ⟨⟨m, x⟩, name, arg⟩ := a
          obtain ⟨⟨m', x'⟩, name', arg'⟩ := b
          obtain ⟨rfl, harg⟩ := hab
          obtain ⟨rfl, hb⟩ := hsymbol m x name arg rfl
          have htype : arg.type = arg'.type := harg.type
          simp only [← htype]
          exact (Context.same_use (h (m, x) List.mem_cons_self (.inl hb)) _ _ _).bind fun _ =>
            (harg.code none).bind fun _ => .pure _
    | list _ es =>
      simp only [expr, Expr.mapSpan, items_eq, Expr.mapSpanItems_eq_map, List.map_map]
      exact same_valueCode fun _ => (Same.sequence (forall₂_map_self fun e he => hall e he none)).bind fun _ =>
        .pure _
    | map n es =>
      have hes : Same P (entries cx es) (entries (cx.mapSpan σ) (Expr.mapSpanEntries σ es)) := by
        rw [entries_eq, entries_eq, Expr.mapSpanEntries_eq_map, List.map_map]
        refine Same.sequence (forall₂_map_self fun e he => ?_)
        exact (hall _ (Expr.key_mem_children _ he) none).bind fun _ =>
          (hall _ (Expr.value_mem_children _ he) none).bind fun _ => .pure _
      have hkey : ownKey (cx.mapSpan σ).types (n.mapSpan σ) = ownKey cx.types n := rfl
      simp only [expr, Expr.mapSpan, hkey]
      split
      · exact hes.map _
      · exact same_valueCode fun _ => hes.map _
    | index _ b i =>
      obtain ⟨hb, hi⟩ := List.forall_mem_cons.mp hall
      have hmap : (cx.mapSpan σ).types.isMap (b.mapSpan σ) = cx.types.isMap b :=
        TypeTable.isMap_mapSpan σ cx.types b
      simp only [expr, Expr.mapSpan, hmap]
      exact same_valueCode fun _ => (hb none).bind fun _ => (hi i List.mem_cons_self none).bind fun _ =>
        same_readWord _ _
    | field => exact same_valueCode fun _ => same_readWord _ _

end Exprs

section Stmts

variable {T : TypeTable} {Γ : Env}

theorem writes_exprIn {e : Expr} (he : WellTyped T Γ e) (wanted : Option Ty) :
    Writes σ T omitsTypes Γ Γ (Emit.render fun names => expr ⟨T, names⟩ e wanted : Emit String)
      (Emit.render fun names => expr ⟨T.mapSpan σ, names⟩ (e.mapSpan σ) wanted) := by
  apply writes_render
  intro names hm
  refine same_expr ⟨T, names⟩ e (fun s hs hw => (he.symbol hs).resolved hm ?_) wanted
  intro hb t ht
  -- A symbol that is written has a type with a form, which no type of a type has.
  have hform := hw.resolve_left hb
  rw [ht] at hform
  rintro ⟨u, rfl⟩
  cases hform

theorem writes_typeCode (t : Ty) : Writes σ T omitsTypes Γ Γ (typeCode t) (typeCode t) :=
  writes_render fun _ _ => ⟨rfl, rfl, all_cType t⟩

theorem variableType_mapSpan (written : Option TypeExpr) (e : Expr) :
    variableType (T.mapSpan σ) (written.map (TypeExpr.mapSpan σ)) (e.mapSpan σ) = variableType T written e := by
  unfold variableType
  rw [typeOf_mapSpan]
  cases written with
  | none => rfl
  | some a =>
    have hfind : ∀ name x, noNames name = .error x → x.mapSpan σ = x := by
      intro name x hx
      cases hx
    have hresolve := Checker.resolve_mapSpan hfind a
    simp only [Option.map_some, hresolve]
    cases a.resolve noNames <;> rfl

theorem writes_variableParts {e : Expr} (he : WellTyped T Γ e) (x : Ident) (a : Option TypeExpr) (t : Ty) :
    Writes σ T omitsTypes Γ (declare x t Γ) (variableParts T x a e)
      (variableParts (T.mapSpan σ) (x.mapSpan σ) (a.map (TypeExpr.mapSpan σ)) (e.mapSpan σ)) := by
  unfold variableParts
  rw [variableType_mapSpan]
  exact (writes_exprIn he _).bind fun _ => (writes_typeCode _).bind fun _ =>
    (writes_declare x t).bind fun _ => .pure _

theorem writes_assignment {target value : Expr} (ht : WellTyped T Γ target) (he : WellTyped T Γ value) :
    Writes σ T omitsTypes Γ Γ (assignment T target value)
      (assignment (T.mapSpan σ) (target.mapSpan σ) (value.mapSpan σ)) := by
  have htype := typeOf_mapSpan (σ := σ) T target
  cases target with
  | index n b i =>
    obtain ⟨hb, hi⟩ := ht.of_index
    simp only [assignment, Expr.mapSpan, TypeTable.isMap_mapSpan]
    refine (writes_exprIn hb none).bind fun _ => (writes_exprIn hi none).bind fun _ =>
      (writes_exprIn he none).bind fun _ => ?_
    split <;> exact .pure _
  | field n b x => exact .pure _
  | _ =>
    unfold assignment
    rw [htype]
    exact (writes_exprIn ht none).bind fun _ => (writes_exprIn he _).bind fun _ => .pure _

theorem writes_loopVars (v : LoopVars) (t : Ty) (type list counter : String) :
    Writes σ T omitsTypes Γ (declareAll v.names (loopTypes v t) Γ) (loopVars v type list counter)
      (loopVars (v.mapSpan σ) type list counter) := by
  obtain ⟨index, item⟩ := v
  cases index with
  | none =>
    exact (Writes.pure []).bind fun _ => (writes_declare item t).bind fun _ => .pure _
  | some i =>
    have hlen : [i].length = [Ty.int].length := rfl
    exact (writes_declareAll hlen).bind fun _ => (writes_declare item t).bind fun _ => .pure _

theorem writes_parameters {ps : List Binding} {ts : List Ty} (h : ps.length = ts.length) :
    Writes σ T omitsTypes Γ (declareAll (ps.map Binding.name) ts Γ) (parameters (ps.zip ts))
      (parameters ((ps.map (Binding.mapSpan σ)).zip ts)) := by
  induction ps generalizing ts Γ with
  | nil => exact .pure _
  | cons p ps ih =>
    cases ts with
    | nil => cases h
    | cons t ts =>
      have hps := ih (Γ := declare p.name t Γ) (Nat.succ.inj h)
      exact (writes_typeCode t).bind fun _ => (writes_param p.name t).bind fun _ =>
        hps.bind fun _ => .pure _

end Stmts

section Blocks

variable {T : TypeTable}

mutual
theorem writes_stmt : ∀ {s : Stmt} {Γ Γ' : Env} {result : Option Ty} (r : Ty),
    StmtTyped T Γ result s Γ' →
      Writes σ T omitsTypes Γ Γ' (stmt T r s) (stmt (T.mapSpan σ) r (s.mapSpan σ))
  | .letVar _ x a e, _, _, _, _, .letVar he _ _ =>
    (writes_variableParts he x a _).bind fun _ => .pure _
  | .assign _ t e, _, _, _, _, .assign ht _ _ he _ => writes_assignment ht he
  | .ret _ none, _, _, _, _, .ret _ => .pure _
  | .ret _ (some e), _, _, _, _, .retValue he _ => (writes_exprIn he _).bind fun _ => .pure _
  | .expr _ e, _, _, _, _, .expr he => (writes_exprIn he none).bind fun _ => .pure _
  | .ifElse _ cs o, _, _, _, r, .ifElse hcs _ hbs ho =>
    (writes_clauses cs hcs hbs r true).bind fun _ => (writes_otherwise r ho).bind fun _ => .pure _
  | .whileLoop _ c b, _, _, _, r, .whileLoop hc _ hb => by
    obtain ⟨_, hb⟩ := writes_block r hb
    exact (writes_exprIn hc none).bind fun _ => hb.inScope.bind fun _ => .pure _
  | .forEach _ v e b, _, _, _, r, .forEach he _ hb => by
    obtain ⟨_, hb⟩ := writes_block r hb
    simp only [stmt, Stmt.mapSpan, typeOf_mapSpan]
    exact (writes_typeCode _).bind fun _ => (writes_exprIn he none).bind fun _ =>
      (writes_temp _).bind fun _ => (writes_temp _).bind fun _ => (Writes.inScope
        ((writes_loopVars v _ _ _ _).bind fun _ => hb.bind fun _ => .pure _)).bind fun _ => .pure _
  | .matchOn .., _, _, _, _, .matchOn .. => .pure _
  | .struct _ d, _, _, _, _, .struct _ => writes_omitted d.name ⟨_, rfl⟩ _
  | .enum _ d, _, _, _, _, .enum _ => writes_omitted d.name ⟨_, rfl⟩ _
theorem writes_clauses : ∀ (cs : List Clause) {Γ : Env} {result : Option Ty},
    (∀ c ∈ cs, WellTyped T Γ c.cond) → (∀ c ∈ cs, BlockTyped T Γ result c.body) →
    ∀ r first, Writes σ T omitsTypes Γ Γ (clauses T r first cs)
      (clauses (T.mapSpan σ) r first (Stmt.mapSpanClauses σ cs))
  | [], _, _, _, _, _, _ => .pure _
  | ⟨c, b⟩ :: cs, _, _, hcs, hbs, r, first => by
    obtain ⟨_, hb⟩ := writes_block r (hbs ⟨c, b⟩ List.mem_cons_self)
    have hrest := writes_clauses cs (fun c hc => hcs c (List.mem_cons_of_mem _ hc))
      (fun c hc => hbs c (List.mem_cons_of_mem _ hc)) r false
    exact (writes_exprIn (hcs ⟨c, b⟩ List.mem_cons_self) none).bind fun _ => hb.inScope.bind fun _ =>
      hrest.bind fun _ => .pure _
theorem writes_otherwise : ∀ {o : Option (List Stmt)} {Γ : Env} {result : Option Ty} (r : Ty),
    (∀ b, o = some b → BlockTyped T Γ result b) → Writes σ T omitsTypes Γ Γ (otherwise T r o)
      (otherwise (T.mapSpan σ) r (Stmt.mapSpanOtherwise σ o))
  | none, _, _, _, _ => .pure _
  | some b, _, _, r, h => by
    obtain ⟨_, hb⟩ := writes_block r (h b rfl)
    exact hb.inScope.bind fun _ => .pure _
theorem writes_block : ∀ {b : List Stmt} {Γ : Env} {result : Option Ty} (r : Ty),
    BlockTyped T Γ result b →
      ∃ Γ', Writes σ T omitsTypes Γ Γ' (block T r b) (block (T.mapSpan σ) r (Stmt.mapSpanBlock σ b))
  | [], Γ, _, _, _ => ⟨Γ, .pure _⟩
  | s :: ss, _, _, r, .cons h hs => by
    have hfirst := writes_stmt r h
    obtain ⟨Γ', hrest⟩ := writes_block r hs
    exact ⟨Γ', hfirst.bind fun _ => hrest.bind fun _ => .pure _⟩
end

theorem writes_function {Γ : Env} {f : FunctionDecl} {t : Ty} (h : FunctionTyped T Γ f t) :
    Writes σ T omitsTypes Γ (declare f.name t Γ) (function T f) (function (T.mapSpan σ) (f.mapSpan σ)) := by
  obtain ⟨sig, hsig, hlen, hb⟩ := h.body
  obtain ⟨_, hb⟩ := writes_block sig.result hb
  rw [List.length_map] at hlen
  have hsig' : (T.mapSpan σ).function? (f.mapSpan σ).name.name = some sig := hsig
  refine (writes_declare f.name t).bind fun _ => ?_
  rw [hsig, hsig']
  exact (writes_typeCode _).bind fun _ => Writes.inFunction ((writes_typeCode _).bind fun _ =>
    (writes_parameters hlen).bind fun _ => hb.bind fun _ => .pure _)

theorem writes_item {Γ Γ' : Env} {s : Stmt} (h : StmtTyped T Γ none s Γ') :
    Writes σ T omitsTypes Γ Γ' (item T (.stmt s)) (item (T.mapSpan σ) (.stmt (s.mapSpan σ))) := by
  have hs := writes_stmt (σ := σ) .any h
  cases h with
  | letVar he _ _ => exact (writes_variableParts he _ _ _).bind fun _ => .pure _
  | assign | expr | ifElse | whileLoop | forEach | matchOn | struct | enum =>
    exact hs.bind fun _ => .pure _

theorem writes_sections {Γ : Env} {is : List Item} (h : ItemsTyped T Γ is) :
    ∃ Γ', Writes σ T omitsTypes Γ Γ' (sections T is) (sections (T.mapSpan σ) (is.map (Item.mapSpan σ))) := by
  induction h with
  | nil => exact ⟨_, .pure _⟩
  | function hf _ ih =>
    obtain ⟨Γ', his⟩ := ih
    exact ⟨Γ', (writes_function hf).bind fun _ => his.bind fun _ => .pure _⟩
  | stmt hs _ ih =>
    obtain ⟨Γ', his⟩ := ih
    exact ⟨Γ', (writes_item hs).bind fun _ => his.bind fun _ => .pure _⟩

theorem generate_mapSpan (σ : Span → Span) {p : Program} (h : ProgramTyped T p) :
    generate (T.mapSpan σ) (p.mapSpan σ) = generate T p := by
  obtain ⟨_, hsections⟩ := writes_sections (σ := σ) h
  have hsame := hsections.run space ()
  unfold generate lines
  dsimp only [Program.mapSpan]
  rw [hsame.value, hsame.needs]

end Blocks

end Gondola.Native
