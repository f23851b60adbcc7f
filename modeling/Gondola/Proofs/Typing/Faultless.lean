import Gondola.Proofs.Typing.Labels
import Gondola.Proofs.Typing.StmtSound

/-! Checking statements and functions never faults, and leaves only labelled declarations in view. Nor does it look at
places. -/
namespace Gondola

open Typing

namespace Checker

section Statements

variable {σ : Span → Span} {top : Env} {rest : List Env}

theorem labelled_of_denotes {as : List TypeExpr} {ts : List Ty} {Γ : Env} (hΓ : LabelledEnv Γ)
    (h : List.Forall₂ (Denotes Γ) as ts) : ∀ t ∈ ts, t.Labelled := by
  induction h with
  | nil => exact nofun
  | cons ha _ ih => exact List.forall_mem_cons.mpr ⟨ha.labelled hΓ, ih⟩

/-- A step that never faults and leaves only labelled declarations in view. -/
abbrev Keeps {α : Type} (σ : Span → Span) (top : Env) (rest : List Env) (m m' : Check α) : Prop :=
  Safe σ top rest m m' fun _ top' => LabelledEnv (top' :: rest).flatten

theorem safe_defineAll {xs : List Ident} {ts : List Ty} (hlen : xs.length = ts.length) :
    Safe σ top rest (defineAll (rest.length + 1) xs ts)
      (defineAll (rest.length + 1) (xs.map (Ident.mapSpan σ)) ts) fun _ top' =>
      top' = declareAll xs ts top ∧ (xs.map Ident.name).Nodup ∧ ∀ x ∈ xs, top.lookup x.name = none := by
  induction xs generalizing ts top with
  | nil => exact safe_pure ⟨rfl, List.nodup_nil, nofun⟩
  | cons x xs ih =>
    cases ts with
    | nil => cases hlen
    | cons t ts =>
      refine (safe_define x t).bind fun _ top' h => ?_
      obtain ⟨hx, rfl⟩ := h
      refine (ih (Nat.succ.inj hlen)).mono fun _ top'' h => ?_
      obtain ⟨rfl, hdistinct, hfresh⟩ := h
      -- What was bound in the frame with `x` was neither bound before nor is it `x`.
      have hfresh' : ∀ y ∈ xs, y.name ≠ x.name ∧ top.lookup y.name = none := by
        intro y hy
        have hnone := hfresh y hy
        rw [declare, List.lookup_cons] at hnone
        split at hnone
        · cases hnone
        · rename_i hne
          exact ⟨by simpa using hne, hnone⟩
      refine ⟨rfl, ?_, List.forall_mem_cons.mpr ⟨hx, fun y hy => (hfresh' y hy).2⟩⟩
      refine List.nodup_cons.mpr ⟨fun hmem => ?_, hdistinct⟩
      obtain ⟨y, hy, hname⟩ := List.mem_map.mp hmem
      exact (hfresh' y hy).1 hname

theorem safe_defineLoopVars (v : LoopVars) (item : Ty) :
    Safe σ top rest (defineLoopVars (rest.length + 1) v item)
      (defineLoopVars (rest.length + 1) (v.mapSpan σ) item) fun _ top' =>
      top' = declareAll v.names (loopTypes v item) top := by
  obtain ⟨index, x⟩ := v
  cases index with
  | none => exact (safe_define x item).mono fun _ _ h => h.2
  | some i =>
    refine (safe_define i .int).bind fun _ top' h => ?_
    obtain ⟨-, rfl⟩ := h
    exact (safe_define x item).mono fun _ _ h => h.2

theorem checks_patternTypes {cases : List (String × List Ty)} (hcs : ∀ c ∈ cases, ∀ t ∈ c.2, t.Labelled)
    (enum : String) (seen : List String) (p : Pattern) :
    Checks σ top rest (patternTypes enum cases seen p) (patternTypes enum cases seen (p.mapSpan σ)) fun ts =>
      p.bindings.length = ts.length ∧ ∀ t ∈ ts, t.Labelled := by
  have hname : (p.mapSpan σ).name.name = p.name.name := rfl
  have hlen : (p.mapSpan σ).bindings.length = p.bindings.length := List.length_map _
  simp only [patternTypes, hname, hlen]
  split
  · exact safe_reject rfl _ _
  · rename_i params hl
    split
    · exact safe_reject rfl _ _
    · split
      · rename_i hlen
        obtain ⟨before, after, rfl, -⟩ := List.lookup_eq_some_iff.mp hl
        exact checks_pure ⟨hlen, hcs _ (List.mem_append_right _ List.mem_cons_self)⟩
      · exact safe_reject rfl _ _

theorem checks_resolveAll (as : List TypeExpr) :
    Checks σ top rest (resolveAll (rest.length + 1) as)
      (resolveAll (rest.length + 1) (as.map (TypeExpr.mapSpan σ))) fun ts =>
      List.Forall₂ (Denotes (top :: rest).flatten) as ts := by
  induction as with
  | nil => exact checks_pure .nil
  | cons a as ih =>
    exact (checks_resolve a).andThen fun _ ha => ih.andThen fun _ has => checks_pure (.cons ha has)

theorem Keeps.within {α : Type} {step step' : Nat → Check α}
    (h : Keeps σ [] (top :: rest) (step (rest.length + 2)) (step' (rest.length + 2))) :
    Checks σ top rest (Checker.within (rest.length + 1) step) (Checker.within (rest.length + 1) step') fun _ => True :=
  (Safe.within h).mono fun _ _ h => ⟨h.1, trivial⟩

theorem labelled_loopTypes (v : LoopVars) {item : Ty} (h : item.Labelled) : ∀ t ∈ loopTypes v item, t.Labelled := by
  obtain ⟨index, x⟩ := v
  cases index with
  | none => exact List.forall_mem_singleton.mpr h
  | some i => exact List.forall_mem_cons.mpr ⟨.int, List.forall_mem_singleton.mpr h⟩

variable (hΓ : LabelledEnv (top :: rest).flatten)

include hΓ

theorem checks_condition (e : Expr) :
    Checks σ top rest (checkCondition (rest.length + 1) e) (checkCondition (rest.length + 1) (e.mapSpan σ))
      fun _ => True :=
  (checks_expr hΓ e).andThen fun _ _ => checks_expect _ _ (e.span_mapSpan σ)

theorem checks_variableType (a : Option TypeExpr) (e : Expr) :
    Checks σ top rest (variableType (rest.length + 1) a e)
      (variableType (rest.length + 1) (a.map (TypeExpr.mapSpan σ)) (e.mapSpan σ)) fun t =>
        t.Labelled ∧ ∀ w, a = some w → Denotes (top :: rest).flatten w t := by
  refine (checks_expr hΓ e).andThen fun actual hactual => ?_
  cases a with
  | none => exact checks_pure ⟨hactual, nofun⟩
  | some a =>
    refine (checks_resolve a).andThen fun expected ha => ?_
    refine (checks_expect _ _ (e.span_mapSpan σ)).andThen fun _ _ => checks_pure ⟨ha.labelled hΓ, ?_⟩
    rintro _ ⟨⟩
    exact ha

theorem keeps_define (x : Ident) {t : Ty} (ht : t.Labelled) :
    Keeps σ top rest (define (rest.length + 1) x t) (define (rest.length + 1) (x.mapSpan σ) t) := by
  refine (safe_define x t).mono fun _ top' h => ?_
  rw [h.2]
  exact hΓ.declare x ht

theorem safe_checkLet (x : Ident) (a : Option TypeExpr) (e : Expr) :
    Safe σ top rest (checkLet (rest.length + 1) x a e)
      (checkLet (rest.length + 1) (x.mapSpan σ) (a.map (TypeExpr.mapSpan σ)) (e.mapSpan σ)) fun _ top' =>
        LabelledEnv (top' :: rest).flatten ∧
          ∃ t, top' = declare x t top ∧ ∀ w, a = some w → Denotes (top :: rest).flatten w t := by
  refine (checks_variableType hΓ a e).andThen fun t ht => ?_
  split
  · exact safe_reject (e.span_mapSpan σ) _ _
  · refine (safe_define x t).mono fun _ top' h => ⟨?_, t, h.2, ht.2⟩
    rw [h.2]
    exact hΓ.declare x ht.1

theorem checks_assign (target e : Expr) :
    Checks σ top rest (checkAssign (rest.length + 1) target e)
      (checkAssign (rest.length + 1) (target.mapSpan σ) (e.mapSpan σ)) fun _ => True := by
  refine (checks_expr hΓ target).andThen fun expected _ => ?_
  have hvalue : Checks σ top rest (do expect expected (← checkExpr (rest.length + 1) e) e.span)
      (do expect expected (← checkExpr (rest.length + 1) (e.mapSpan σ)) (e.mapSpan σ).span) fun _ => True :=
    (checks_expr hΓ e).andThen fun _ _ => checks_expect _ _ (e.span_mapSpan σ)
  -- Only a symbol of a type is no place; for all else the value is what counts.
  cases target with
  | symbol n x =>
    cases expected with
    | metatype u => exact safe_reject rfl _ _
    | _ => exact hvalue
  | _ => exact hvalue

theorem checks_return (result : Option Ty) (s : Span)
    (value : Option Expr) : Checks σ top rest (checkReturn (rest.length + 1) result s value)
      (checkReturn (rest.length + 1) result (σ s) (value.map (Expr.mapSpan σ))) fun _ => True := by
  cases result with
  | none => exact safe_reject rfl _ _
  | some t =>
    cases value with
    | none => exact checks_expect _ _ rfl
    | some e => exact (checks_expr hΓ e).andThen fun _ _ => checks_expect _ _ (e.span_mapSpan σ)

theorem checks_itemType (e : Expr) :
    Checks σ top rest (itemType (rest.length + 1) e) (itemType (rest.length + 1) (e.mapSpan σ)) Ty.Labelled := by
  refine (checks_expr hΓ e).andThen fun t ht => ?_
  split
  · exact checks_pure (Ty.labelled_list.mp ht)
  · exact safe_reject (e.span_mapSpan σ) _ _

theorem checks_structFields (done : List (String × Ty)) (hdone : ∀ f ∈ done, f.2.Labelled) (bs : List Binding) :
    Checks σ top rest (structFields (rest.length + 1) done bs)
      (structFields (rest.length + 1) done (bs.map (Binding.mapSpan σ))) fun fields => ∀ f ∈ fields, f.2.Labelled := by
  induction bs generalizing done with
  | nil => exact checks_pure hdone
  | cons b bs ih =>
    obtain ⟨x, a⟩ := b
    have hname : (x.mapSpan σ).name = x.name := rfl
    simp only [List.map_cons, Binding.mapSpan, structFields, hname]
    split
    · exact safe_reject rfl _ _
    · refine (checks_resolve a).andThen fun t ha => ih _ ?_
      exact List.forall_mem_append.mpr ⟨hdone, List.forall_mem_singleton.mpr (ha.labelled hΓ)⟩

theorem checks_enumCases (done : List (String × List Ty))
    (hdone : ∀ c ∈ done, ∀ t ∈ c.2, t.Labelled) (cs : List EnumCase) :
    Checks σ top rest (enumCases (rest.length + 1) done cs)
      (enumCases (rest.length + 1) done (cs.map (EnumCase.mapSpan σ))) fun cases =>
      ∀ c ∈ cases, ∀ t ∈ c.2, t.Labelled := by
  induction cs generalizing done with
  | nil => exact checks_pure hdone
  | cons c cs ih =>
    obtain ⟨x, as⟩ := c
    have hname : (x.mapSpan σ).name = x.name := rfl
    simp only [List.map_cons, EnumCase.mapSpan, enumCases, hname]
    split
    · exact safe_reject rfl _ _
    · refine (checks_resolveAll as).andThen fun ts has => ih _ ?_
      exact List.forall_mem_append.mpr ⟨hdone, List.forall_mem_singleton.mpr (labelled_of_denotes hΓ has)⟩

theorem safe_checkStruct (d : StructDecl) :
    Keeps σ top rest (checkStruct (rest.length + 1) d) (checkStruct (rest.length + 1) (d.mapSpan σ)) :=
  (checks_structFields hΓ [] nofun d.fields).andThen fun _ hfields =>
    keeps_define hΓ d.name (.metatype rfl (.struct hfields))

theorem safe_checkEnum (d : EnumDecl) :
    Keeps σ top rest (checkEnum (rest.length + 1) d) (checkEnum (rest.length + 1) (d.mapSpan σ)) :=
  (checks_enumCases hΓ [] nofun d.cases).andThen fun _ hcases =>
    keeps_define hΓ d.name (.metatype rfl (.enum hcases))

theorem Checks.keeps {α : Type} {m m' : Check α} {P : α → Prop} (h : Checks σ top rest m m' P)
    : Keeps σ top rest m m' := by
  refine h.mono fun _ top' hq => ?_
  rw [hq.1]
  exact hΓ

theorem labelledEnv_enter : LabelledEnv ([] :: top :: rest).flatten := hΓ

theorem labelledEnv_declareAll (xs : List Ident) {ts : List Ty}
    (hts : ∀ t ∈ ts, t.Labelled) : LabelledEnv (declareAll xs ts top :: rest).flatten := by
  rw [List.flatten_cons, ← declareAll_append]
  exact hΓ.declareAll xs hts

end Statements

mutual
theorem safe_checkStmt {σ : Span → Span} {top : Env} {rest : List Env} (hΓ : LabelledEnv (top :: rest).flatten)
    (result : Option Ty) : ∀ s : Stmt,
      Keeps σ top rest (checkStmt (rest.length + 1) result s) (checkStmt (rest.length + 1) result (s.mapSpan σ))
  | .letVar _ x a e => (safe_checkLet hΓ x a e).mono fun _ _ h => h.1
  | .assign _ t e => (checks_assign hΓ t e).keeps hΓ
  | .ret s e => (checks_return hΓ result s e).keeps hΓ
  | .expr _ e => (checks_expr hΓ e).andThen fun _ _ => safe_pure hΓ
  | .ifElse _ cs o =>
    (checks_clauses hΓ result cs).andThen fun _ _ => (checks_otherwise hΓ result o).keeps hΓ
  | .whileLoop _ c b =>
    (checks_condition hΓ c).andThen fun _ _ =>
      (safe_checkBlock (labelledEnv_enter hΓ) result b).within.keeps hΓ
  | .forEach _ v e b => by
    refine (checks_itemType hΓ e).andThen fun item hitem => ?_
    refine Checks.keeps hΓ (Keeps.within ((safe_defineLoopVars v item).bind fun _ inner h => ?_))
    subst h
    have hvars := labelledEnv_declareAll (labelledEnv_enter hΓ) v.names (labelled_loopTypes v hitem)
    exact safe_checkBlock hvars result b
  | .matchOn _ e as o => by
    refine (checks_expr hΓ e).andThen fun t ht => ?_
    split
    · rename_i name cases
      have hcases := Ty.labelled_enum.mp ht
      exact (checks_arms hΓ result name hcases [] as).andThen fun _ _ => (checks_otherwise hΓ result o).keeps hΓ
    · exact safe_reject (e.span_mapSpan σ) _ _
  | .struct _ d => safe_checkStruct hΓ d
  | .enum _ d => safe_checkEnum hΓ d
theorem checks_clauses {σ : Span → Span} {top : Env} {rest : List Env} (hΓ : LabelledEnv (top :: rest).flatten)
    (result : Option Ty) : ∀ cs : List Clause,
      Checks σ top rest (checkClauses (rest.length + 1) result cs)
        (checkClauses (rest.length + 1) result (Stmt.mapSpanClauses σ cs)) fun _ => True
  | [] => checks_pure trivial
  | ⟨c, b⟩ :: cs =>
    (checks_condition hΓ c).andThen fun _ _ =>
      (safe_checkBlock (labelledEnv_enter hΓ) result b).within.andThen fun _ _ =>
        checks_clauses hΓ result cs
theorem checks_arms {σ : Span → Span} {top : Env} {rest : List Env} (hΓ : LabelledEnv (top :: rest).flatten)
    (result : Option Ty) (enum : String) {cases : List (String × List Ty)}
    (hcs : ∀ c ∈ cases, ∀ t ∈ c.2, t.Labelled) (seen : List String) : ∀ as : List Arm,
      Checks σ top rest (checkArms (rest.length + 1) result enum cases seen as)
        (checkArms (rest.length + 1) result enum cases seen (Stmt.mapSpanArms σ as)) fun _ => True
  | [] => checks_pure trivial
  | ⟨p, b⟩ :: as => by
    refine (checks_patternTypes hcs enum seen p).andThen fun ts hts => ?_
    refine Checks.andThen (Keeps.within ((safe_defineAll hts.1).bind fun _ inner h => ?_))
      fun _ _ => checks_arms hΓ result enum hcs _ as
    obtain ⟨rfl, -⟩ := h
    exact safe_checkBlock (labelledEnv_declareAll (labelledEnv_enter hΓ) p.bindings hts.2) result b
theorem checks_otherwise {σ : Span → Span} {top : Env} {rest : List Env} (hΓ : LabelledEnv (top :: rest).flatten)
    (result : Option Ty) : ∀ o : Option Block,
      Checks σ top rest (checkOtherwise (rest.length + 1) result o)
        (checkOtherwise (rest.length + 1) result (Stmt.mapSpanOtherwise σ o)) fun _ => True
  | none => checks_pure trivial
  | some b => (safe_checkBlock (labelledEnv_enter hΓ) result b).within
theorem safe_checkBlock {σ : Span → Span} {top : Env} {rest : List Env} (hΓ : LabelledEnv (top :: rest).flatten)
    (result : Option Ty) : ∀ b : Block,
      Keeps σ top rest (checkBlock (rest.length + 1) result b)
        (checkBlock (rest.length + 1) result (Stmt.mapSpanBlock σ b))
  | [] => safe_pure hΓ
  | s :: ss => (safe_checkStmt hΓ result s).bind fun _ _ hΓ' => safe_checkBlock hΓ' result ss
end

/-- What a function declares: one label and one type for each of its parameters. -/
structure Describes (f : FunctionDecl) (sig : Signature) : Prop where
  labels : sig.labels = f.params.map fun p => some p.name.name
  length : (f.params.map Binding.name).length = sig.params.length
  params : ∀ t ∈ sig.params, t.Labelled
  result : sig.result.Labelled

theorem Describes.labelled {f : FunctionDecl} {sig : Signature} (h : Describes f sig)
    (hdistinct : ((f.params.map Binding.name).map Ident.name).Nodup) : sig.type.Labelled := by
  have hlabels : sig.labels.filterMap id = (f.params.map Binding.name).map Ident.name := by
    rw [h.labels, List.filterMap_map, List.map_map, ← List.filterMap_eq_map]
    rfl
  have hlabelling : Labelling sig.params sig.labels := by
    constructor
    · rw [h.labels, ← h.length, List.length_map, List.length_map]
    · rw [hlabels]
      exact hdistinct
  exact Ty.labelled_function.mpr ⟨hlabelling, h.params, h.result⟩

section Items

variable {σ : Span → Span} {top : Env} {rest : List Env} (hΓ : LabelledEnv (top :: rest).flatten)

include hΓ

theorem checks_resultType (a : Option TypeExpr) :
    Checks σ top rest (resultType (rest.length + 1) a)
      (resultType (rest.length + 1) (a.map (TypeExpr.mapSpan σ))) Ty.Labelled := by
  cases a with
  | none => exact checks_pure .void
  | some a => exact (checks_resolve a).mono fun _ _ h => ⟨h.1, h.2.labelled hΓ⟩

theorem safe_declareFunction (f : FunctionDecl) :
    Safe σ top rest (declareFunction (rest.length + 1) f) (declareFunction (rest.length + 1) (f.mapSpan σ))
      fun sig top' => Describes f sig ∧ top' = declare f.name sig.type top := by
  have htypes : (f.params.map (Binding.mapSpan σ)).map Binding.type =
      (f.params.map Binding.type).map (TypeExpr.mapSpan σ) := by
    rw [List.map_map, List.map_map]
    rfl
  have hlabels : ((f.params.map (Binding.mapSpan σ)).map fun p => some p.name.name) =
      f.params.map fun p => some p.name.name := by
    rw [List.map_map]
    rfl
  simp only [declareFunction, FunctionDecl.mapSpan, htypes, hlabels]
  refine (checks_resolveAll _).andThen fun types htypes => (checks_resultType hΓ _).andThen fun r hr => ?_
  refine (safe_define f.name _).bind fun _ top' h => ?_
  have hlen : (f.params.map Binding.name).length = types.length := by
    rw [← htypes.length_eq, List.length_map, List.length_map]
  have hsig : Describes f ⟨types, f.params.map fun p => some p.name.name, r⟩ :=
    ⟨rfl, hlen, labelled_of_denotes hΓ htypes, hr⟩
  exact safe_noted (fun _ => rfl) (fun _ => rfl) ⟨hsig, h.2⟩

/-- A function is in view in its own body before its parameters are bound. Labels that come twice keep the
parameters from being bound, so that nothing calls it. -/
theorem safe_checkFunction (f : FunctionDecl) :
    Keeps σ top rest (checkFunction (rest.length + 1) f) (checkFunction (rest.length + 1) (f.mapSpan σ)) := by
  refine (safe_declareFunction hΓ f).bind fun sig top' h => ?_
  obtain ⟨hsig, rfl⟩ := h
  rw [FunctionDecl.map_name_params_mapSpan]
  refine Safe.mono (.within (Q := fun _ _ => sig.type.Labelled) ((safe_defineAll hsig.length).bind fun _ inner h => ?_))
    fun _ top' h => ?_
  · obtain ⟨rfl, hdistinct, -⟩ := h
    have htype := hsig.labelled hdistinct
    have hΓ' : LabelledEnv (declare f.name sig.type top :: rest).flatten := hΓ.declare f.name htype
    have hparams := labelledEnv_declareAll (labelledEnv_enter hΓ') (f.params.map Binding.name) hsig.params
    exact (safe_checkBlock hparams _ f.body).mono fun _ _ _ => htype
  · obtain ⟨rfl, _, htype⟩ := h
    exact hΓ.declare f.name htype

theorem safe_checkTopLevel (is : List Item) :
    Keeps σ top rest (checkTopLevel (rest.length + 1) is)
      (checkTopLevel (rest.length + 1) (is.map (Item.mapSpan σ))) := by
  induction is generalizing top with
  | nil => exact safe_pure hΓ
  | cons i is ih =>
    cases i with
    | function _ f => exact (safe_checkFunction hΓ f).bind fun _ _ hΓ' => ih hΓ'
    | stmt s => exact (safe_checkStmt hΓ none s).bind fun _ _ hΓ' => ih hΓ'

end Items

end Checker

/-- Where the place of what has none is kept, checking commutes with moving a program. -/
theorem Program.check_mapSpan {σ : Span → Span} (hσ : σ {} = {}) (p : Program) :
    (p.mapSpan σ).check = (p.check.map (TypeTable.mapSpan σ)).mapError (Failure.mapSpan σ) := by
  have hrun : Checker.Moves σ (Checker.checkProgram p) (Checker.checkProgram (p.mapSpan σ)) Checker.new := by
    refine (Checker.moves_enter _).bind fun scope c hc => ?_
    obtain ⟨rfl, rfl⟩ := Prod.mk.inj (Except.ok.inj hc)
    have hΓ : LabelledEnv ([] :: ([] : List Env)).flatten := labelledEnv_nil
    exact (Checker.safe_checkTopLevel hΓ p.items).moves _ rfl
  unfold Checker.Moves at hrun
  rw [Checker.mapSpan_new hσ] at hrun
  unfold Program.check
  rw [hrun]
  cases Checker.checkProgram p Checker.new <;> rfl

end Gondola
