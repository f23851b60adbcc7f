import Gondola.Proofs.Typing.ExprSound
import Gondola.Typing

/-! Statements that pass the check are typed by the rules. What a statement declares goes into the innermost
frame, and a block inside it works on a frame of its own. -/
namespace Gondola

namespace Typing

theorem declareAll_append (xs : List Ident) (ts : List Ty) (Γ Δ : Env) :
    declareAll xs ts (Γ ++ Δ) = declareAll xs ts Γ ++ Δ := by
  induction xs generalizing ts Γ with
  | nil => rfl
  | cons x xs ih =>
    cases ts with
    | nil => rfl
    | cons t ts => exact ih ts (declare x t Γ)

end Typing

namespace Checker

open Typing

section Parts

variable {top : Env} {rest : List Env}

theorem finds_checkCondition (c : Expr) :
    Finds top rest (checkCondition (rest.length + 1) c) c.ids fun T _ =>
      (WellTyped T (top :: rest).flatten c ∧ Fits T .bool c) ∧ KeptAll c.parts T := by
  refine ((checked_expr top rest c).last fun t => finds_expect .bool t c.span).mono ?_
  rintro T _ ⟨t, ⟨ht, hk⟩, hc⟩
  exact ⟨⟨ht.1, ht.fits hc⟩, hk⟩

theorem finds_variableType (a : Option TypeExpr) (e : Expr) :
    Finds top rest (variableType (rest.length + 1) a e) e.ids fun T t =>
      (WellTyped T (top :: rest).flatten e ∧ VariableType T (top :: rest).flatten e a t) ∧
        KeptAll e.parts T := by
  have he := checked_expr top rest e
  cases a with
  | none =>
    refine (he.last fun t => finds_pure t).mono ?_
    rintro T t ⟨u, ⟨hu, hk⟩, rfl⟩
    exact ⟨⟨hu.1, .inferred hu.2⟩, hk⟩
  | some a =>
    refine (he.last fun actual => (finds_resolve a).bind fun expected =>
      (finds_expect expected actual e.span).bind fun _ => finds_pure expected).mono ?_
    rintro T t ⟨actual, ⟨hactual, hk⟩, expected, ha, -, hc, rfl⟩
    exact ⟨⟨hactual.1, .annotated ha (hactual.fits hc)⟩, hk⟩

/-- The statement is typed, and all expressions in it have runs that the table keeps. -/
structure StmtChecked (Γ : Env) (result : Option Ty) (s : Stmt) (Γ' : Env) (T : TypeTable) : Prop where
  typed : StmtTyped T Γ result s Γ'
  kept : KeptAll s.parts T

structure BlockChecked (Γ : Env) (result : Option Ty) (b : Block) (T : TypeTable) : Prop where
  typed : BlockTyped T Γ result b
  kept : KeptAll (Stmt.blockParts b) T

theorem runs_checkLet (result : Option Ty) (s : Span) (x : Ident) (a : Option TypeExpr) (e : Expr) :
    Runs top rest (checkLet (rest.length + 1) x a e) e.ids fun T _ top' =>
      StmtChecked (top :: rest).flatten result (.letVar s x a e) (top' :: rest).flatten T := by
  refine ((finds_variableType a e).andLast (R := fun t _ _ top' =>
    t ≠ .void ∧ top' = declare x t top) ?_).mono ?_
  · intro t
    split
    · exact runs_reject _ _ _
    · rename_i hv
      exact (runs_define x t).mono fun _ _ _ htop => ⟨hv, htop.2⟩
  · rintro T _ _ ⟨t, ⟨⟨he, ht⟩, hk⟩, hv, rfl⟩
    exact ⟨.letVar he ht hv, hk⟩

theorem finds_checkAssign (result : Option Ty) (s : Span) (target e : Expr) :
    Finds top rest (checkAssign (rest.length + 1) target e) (target.ids ++ e.ids) fun T _ =>
      StmtChecked (top :: rest).flatten result (.assign s target e) (top :: rest).flatten T := by
  refine ((checked_expr top rest target).bind (R := fun t T _ =>
    (∀ n x u, target = .symbol n x → t ≠ .metatype u) ∧
      (WellTyped T (top :: rest).flatten e ∧ Fits T t e) ∧ KeptAll e.parts T) ?_).mono ?_
  · intro t
    split
    · exact runs_reject _ _ _
    · rename_i hplace
      refine ((checked_expr top rest e).last fun actual => finds_expect t actual e.span).mono ?_
      rintro T _ ⟨actual, ⟨hactual, hk⟩, hc⟩
      exact ⟨fun n x u => hplace n x u, ⟨hactual.1, hactual.fits hc⟩, hk⟩
  · rintro T _ ⟨t, ⟨ht, hkt⟩, hplace, ⟨he, hfit⟩, hke⟩
    exact ⟨.assign ht.1 ht.2 hplace he hfit, hkt.append hke⟩

theorem finds_itemType (e : Expr) :
    Finds top rest (itemType (rest.length + 1) e) e.ids fun T t =>
      Checked (top :: rest).flatten e T (.list t) := by
  refine ((checked_expr top rest e).last (R := fun t _ u => t = .list u) ?_).mono ?_
  · intro t
    split
    · rename_i item
      refine (finds_pure item).mono ?_
      rintro _ _ rfl
      rfl
    · exact runs_reject _ _ _
  · rintro T u ⟨_, ht, rfl⟩
    exact ht

theorem runs_defineAll (xs : List Ident) (ts : List Ty) :
    Runs top rest (defineAll (rest.length + 1) xs ts) [] fun _ _ top' =>
      top' = declareAll xs ts top := by
  induction xs generalizing ts top with
  | nil => exact runs_pure ()
  | cons x xs ih =>
    cases ts with
    | nil => exact runs_pure ()
    | cons t ts =>
      refine ((runs_define x t).bind (R := fun _ top' _ _ top'' => top'' = declareAll xs ts top')
        ?_).mono ?_
      · intro _ top' _
        exact ih ts
      · rintro _ _ _ ⟨_, _, ⟨-, rfl⟩, rfl⟩
        rfl

theorem runs_defineLoopVars (v : LoopVars) (item : Ty) :
    Runs top rest (defineLoopVars (rest.length + 1) v item) [] fun _ _ top' =>
      top' = declareAll v.names (loopTypes v item) top := by
  obtain ⟨index, x⟩ := v
  cases index with
  | none => exact (runs_define x item).mono fun _ _ _ h => h.2
  | some i =>
    refine ((runs_define i .int).bind (R := fun _ top' _ _ top'' => top'' = declare x item top')
      ?_).mono ?_
    · intro _ top' _
      exact (runs_define x item).mono fun _ _ _ h => h.2
    · rintro _ _ _ ⟨_, _, ⟨-, rfl⟩, rfl⟩
      rfl

theorem finds_patternTypes (enum : String) (cases : List (String × List Ty)) (seen : List String)
    (p : Pattern) :
    Finds top rest (patternTypes enum cases seen p) [] fun _ ts =>
      cases.lookup p.name.name = some ts ∧ p.name.name ∉ seen ∧ p.bindings.length = ts.length := by
  unfold patternTypes
  split
  · exact runs_reject _ _ _
  · rename_i params hparams
    split
    · exact runs_reject _ _ _
    · rename_i hseen
      split
      · rename_i hlen
        refine (finds_pure params).mono ?_
        rintro _ _ rfl
        exact ⟨hparams, by simpa using hseen, hlen⟩
      · exact runs_reject _ _ _

theorem finds_structFields (done : List (String × Ty)) (bs : List Binding) :
    Finds top rest (structFields (rest.length + 1) done bs) [] fun _ fields =>
      ∃ added, fields = done ++ added ∧ FieldsDenote (top :: rest).flatten bs added := by
  induction bs generalizing done with
  | nil =>
    refine (finds_pure done).mono ?_
    rintro _ _ rfl
    exact ⟨[], (List.append_nil _).symm, .nil⟩
  | cons b bs ih =>
    obtain ⟨x, a⟩ := b
    unfold structFields
    split
    · exact runs_reject _ _ _
    · refine ((finds_resolve a).bind fun t => ih (done ++ [(x.name, t)])).mono ?_
      rintro _ _ ⟨t, ht, added, rfl, hadded⟩
      exact ⟨(x.name, t) :: added, List.append_cons .. |>.symm, .cons ⟨rfl, ht⟩ hadded⟩

theorem finds_enumCases (done : List (String × List Ty)) (cs : List EnumCase) :
    Finds top rest (enumCases (rest.length + 1) done cs) [] fun _ cases =>
      ∃ added, cases = done ++ added ∧ CasesDenote (top :: rest).flatten cs added := by
  induction cs generalizing done with
  | nil =>
    refine (finds_pure done).mono ?_
    rintro _ _ rfl
    exact ⟨[], (List.append_nil _).symm, .nil⟩
  | cons c cs ih =>
    obtain ⟨x, as⟩ := c
    unfold enumCases
    split
    · exact runs_reject _ _ _
    · refine ((finds_resolveAll as).bind fun ts => ih (done ++ [(x.name, ts)])).mono ?_
      rintro _ _ ⟨ts, hts, added, rfl, hadded⟩
      exact ⟨(x.name, ts) :: added, List.append_cons .. |>.symm, .cons ⟨rfl, hts⟩ hadded⟩

theorem runs_checkStruct (result : Option Ty) (s : Span) (d : StructDecl) :
    Runs top rest (checkStruct (rest.length + 1) d) [] fun T _ top' =>
      StmtChecked (top :: rest).flatten result (.struct s d) (top' :: rest).flatten T := by
  refine ((finds_structFields [] d.fields).andThen fun fields =>
    runs_define d.name (.metatype (.struct d.name.name fields))).mono ?_
  rintro T _ _ ⟨fields, ⟨added, rfl, hadded⟩, -, rfl⟩
  exact ⟨.struct hadded, keptAll_nil T⟩

theorem runs_checkEnum (result : Option Ty) (s : Span) (d : EnumDecl) :
    Runs top rest (checkEnum (rest.length + 1) d) [] fun T _ top' =>
      StmtChecked (top :: rest).flatten result (.enum s d) (top' :: rest).flatten T := by
  refine ((finds_enumCases [] d.cases).andThen fun cases =>
    runs_define d.name (.metatype (.enum d.name.name cases))).mono ?_
  rintro T _ _ ⟨cases, ⟨added, rfl, hadded⟩, -, rfl⟩
  exact ⟨.enum hadded, keptAll_nil T⟩

theorem Finds.stmt {m : Check Unit} {ids : List Nat} {P : TypeTable → Unit → Prop}
    {result : Option Ty} {s : Stmt} (h : Finds top rest m ids P)
    (hs : ∀ T u, P T u → StmtChecked (top :: rest).flatten result s (top :: rest).flatten T) :
    Runs top rest m ids fun T _ top' =>
      StmtChecked (top :: rest).flatten result s (top' :: rest).flatten T := by
  refine Runs.mono h ?_
  rintro T u _ ⟨rfl, hp⟩
  exact hs T u hp

theorem runs_checkReturn (result : Option Ty) (s : Span) (value : Option Expr) :
    Runs top rest (checkReturn (rest.length + 1) result s value) (Stmt.ret s value).ids
      fun T _ top' =>
        StmtChecked (top :: rest).flatten result (.ret s value) (top' :: rest).flatten T := by
  cases result with
  | none => exact runs_reject _ _ _
  | some t =>
    cases value with
    | none => exact (finds_expect t .void s).stmt fun T _ h => ⟨.ret h, keptAll_nil T⟩
    | some e =>
      refine ((checked_expr top rest e).last fun u => finds_expect t u e.span).stmt ?_
      rintro T _ ⟨u, ⟨hu, hk⟩, hc⟩
      exact ⟨.retValue hu.1 (hu.fits hc), hk⟩

section Body

variable (top rest) {result : Option Ty} {b : Block}
  (hb : ∀ top', Runs top' (top :: rest) (checkBlock (rest.length + 2) result b) (Stmt.blockIds b)
    fun T _ _ => BlockChecked (top' :: top :: rest).flatten result b T)

include hb

theorem finds_body : Finds top rest (within (rest.length + 1) fun inner => checkBlock inner result b)
    (Stmt.blockIds b) fun T _ => BlockChecked (top :: rest).flatten result b T := by
  refine (hb []).within.mono ?_
  rintro T _ ⟨_, h⟩
  exact h

theorem finds_bodyWith (bindNames : Nat → Check Unit) {xs : List Ident} {ts : List Ty}
    (hd : Runs [] (top :: rest) (bindNames (rest.length + 2)) [] fun _ _ top' =>
      top' = declareAll xs ts []) :
    Finds top rest (within (rest.length + 1) fun inner => do
      bindNames inner
      checkBlock inner result b) (Stmt.blockIds b) fun T _ =>
        BlockChecked (declareAll xs ts (top :: rest).flatten) result b T := by
  have hrun := hd.bind (R := fun _ top' T _ _ => BlockChecked (top' :: top :: rest).flatten result b T)
    fun _ top' _ => hb top'
  refine hrun.within.mono ?_
  rintro T _ ⟨_, _, _, rfl, h⟩
  rw [← List.nil_append (top :: rest).flatten, declareAll_append]
  exact h

end Body

end Parts

/-- What is found of the arms of a match behind arms for the cases in `seen`. -/
structure ArmsFound (Γ : Env) (result : Option Ty) (cases : List (String × List Ty))
    (seen : List String) (as : List Arm) (T : TypeTable) : Prop where
  typed : ∀ a ∈ as, ∃ ts, cases.lookup a.pattern.name.name = some ts ∧
    a.pattern.bindings.length = ts.length ∧
    BlockTyped T (declareAll a.pattern.bindings ts Γ) result a.body
  fresh : ∀ a ∈ as, a.pattern.name.name ∉ seen
  distinct : (as.map fun a => a.pattern.name.name).Nodup

theorem ArmsFound.cons {Γ : Env} {result : Option Ty} {cases : List (String × List Ty)}
    {seen : List String} {p : Pattern} {b : Block} {as : List Arm} {T : TypeTable} {ts : List Ty}
    (h : ArmsFound Γ result cases (p.name.name :: seen) as T)
    (hp : cases.lookup p.name.name = some ts) (hseen : p.name.name ∉ seen)
    (hlen : p.bindings.length = ts.length)
    (hb : BlockTyped T (declareAll p.bindings ts Γ) result b) :
    ArmsFound Γ result cases seen (⟨p, b⟩ :: as) T where
  typed a ha := by
    obtain rfl | ha := List.mem_cons.mp ha
    · exact ⟨ts, hp, hlen, hb⟩
    · exact h.typed a ha
  fresh a ha := by
    obtain rfl | ha := List.mem_cons.mp ha
    · exact hseen
    · exact fun hs => h.fresh a ha (List.mem_cons_of_mem _ hs)
  distinct := by
    refine List.nodup_cons.mpr ⟨fun hmem => ?_, h.distinct⟩
    obtain ⟨a, ha, he⟩ := List.mem_map.mp hmem
    exact h.fresh a ha (he ▸ List.mem_cons_self)

theorem ArmsFound.matchOn {Γ : Env} {result : Option Ty} {cases : List (String × List Ty)}
    {as : List Arm} {o : Option Block} {T : TypeTable} {s : Span} {e : Expr} {name : String}
    (h : ArmsFound Γ result cases [] as T) (he : Found Γ e T (.enum name cases))
    (ho : ∀ b, o = some b → BlockTyped T Γ result b) :
    StmtTyped T Γ result (.matchOn s e as o) Γ := by
  refine .matchOn he.1 he.2 ?_ ?_ h.distinct ho
  · intro a ha
    obtain ⟨ts, hl, hlen, -⟩ := h.typed a ha
    exact ⟨ts, hl, hlen⟩
  · intro a ha ts hts
    obtain ⟨us, hl, -, hb⟩ := h.typed a ha
    obtain rfl := Option.some.inj (hts.symm.trans hl)
    exact hb

mutual
theorem checked_stmt (top : Env) (rest : List Env) (result : Option Ty) : ∀ s : Stmt,
    Runs top rest (checkStmt (rest.length + 1) result s) s.ids fun T _ top' =>
      StmtChecked (top :: rest).flatten result s (top' :: rest).flatten T
  | .letVar s x a e => runs_checkLet result s x a e
  | .assign s target e => (finds_checkAssign result s target e).stmt fun _ _ h => h
  | .ret s value => runs_checkReturn result s value
  | .expr s e => by
    refine ((checked_expr top rest e).last fun _ => finds_pure ()).stmt ?_
    rintro T _ ⟨_, ht, -⟩
    exact ⟨.expr ht.found.1, ht.kept⟩
  | .ifElse s cs o => by
    have hcs := checked_clauses top rest result cs
    have ho := checked_otherwise top rest result o
    refine (hcs.bind fun _ => ho).stmt ?_
    rintro T _ ⟨-, ⟨hc, hkc⟩, hb, hkb⟩
    exact ⟨.ifElse (fun c hin => (hc c hin).1) (fun c hin => (hc c hin).2.1)
      (fun c hin => (hc c hin).2.2) hb, hkc.append hkb⟩
  | .whileLoop s c b => by
    have hb := finds_body top rest fun top' => checked_block top' (top :: rest) result b
    refine ((finds_checkCondition c).bind fun _ => hb).stmt ?_
    rintro T _ ⟨-, ⟨hc, hkc⟩, hb⟩
    exact ⟨.whileLoop hc.1 hc.2 hb.typed, hkc.append hb.kept⟩
  | .forEach s v e b => by
    have hb item := finds_bodyWith top rest (fun top' => checked_block top' (top :: rest) result b)
      (fun inner => defineLoopVars inner v item) (runs_defineLoopVars v item)
    refine ((finds_itemType e).bind hb).stmt ?_
    rintro T _ ⟨t, ⟨ht, hkt⟩, hb⟩
    exact ⟨.forEach ht.1 ht.2 hb.typed, hkt.append hb.kept⟩
  | .matchOn s e as o => by
    have he := checked_expr top rest e
    have has name cases := checked_arms top rest result name cases [] as
    have ho := checked_otherwise top rest result o
    rw [Stmt.ids, List.append_assoc]
    refine (he.bind (R := fun t T _ => ∃ name cases, t = .enum name cases ∧
      (ArmsFound (top :: rest).flatten result cases [] as T ∧ KeptAll (Stmt.armParts as) T) ∧
      (∀ b, o = some b → BlockTyped T (top :: rest).flatten result b) ∧
        KeptAll (Stmt.otherwiseParts o) T) ?_).stmt ?_
    · intro t
      split
      · rename_i name cases
        refine ((has name cases).bind fun _ => ho).mono ?_
        rintro T _ ⟨-, ha, hb⟩
        exact ⟨name, cases, rfl, ha, hb⟩
      · exact runs_reject _ _ _
    · rintro T _ ⟨_, ⟨ht, hkt⟩, name, cases, rfl, ⟨ha, hka⟩, hb, hkb⟩
      exact ⟨ha.matchOn ht hb, (hkt.append hka).append hkb⟩
  | .struct s d => runs_checkStruct result s d
  | .enum s d => runs_checkEnum result s d
theorem checked_clauses (top : Env) (rest : List Env) (result : Option Ty) : ∀ cs : List Clause,
    Finds top rest (checkClauses (rest.length + 1) result cs) (Stmt.clauseIds cs) fun T _ =>
      (∀ c ∈ cs, WellTyped T (top :: rest).flatten c.cond ∧ Fits T .bool c.cond ∧
        BlockTyped T (top :: rest).flatten result c.body) ∧ KeptAll (Stmt.clauseParts cs) T
  | [] => (finds_pure ()).mono fun T _ _ => ⟨nofun, keptAll_nil T⟩
  | ⟨c, b⟩ :: cs => by
    have hb := finds_body top rest fun top' => checked_block top' (top :: rest) result b
    have hcs := checked_clauses top rest result cs
    rw [Stmt.clauseIds, List.append_assoc]
    refine ((finds_checkCondition c).bind fun _ => hb.bind fun _ => hcs).mono ?_
    rintro T _ ⟨-, ⟨hc, hkc⟩, -, hb, hcs, hkcs⟩
    exact ⟨List.forall_mem_cons.mpr ⟨⟨hc.1, hc.2, hb.typed⟩, hcs⟩, (hkc.append hb.kept).append hkcs⟩
theorem checked_arms (top : Env) (rest : List Env) (result : Option Ty) (enum : String)
    (cases : List (String × List Ty)) : ∀ (seen : List String) (as : List Arm),
    Finds top rest (checkArms (rest.length + 1) result enum cases seen as) (Stmt.armIds as)
      fun T _ => ArmsFound (top :: rest).flatten result cases seen as T ∧ KeptAll (Stmt.armParts as) T
  | seen, [] => (finds_pure ()).mono fun T _ _ => ⟨⟨nofun, nofun, .nil⟩, keptAll_nil T⟩
  | seen, ⟨p, b⟩ :: as => by
    have hb ts := finds_bodyWith top rest (fun top' => checked_block top' (top :: rest) result b)
      (fun inner => defineAll inner p.bindings ts) (runs_defineAll p.bindings ts)
    have has := checked_arms top rest result enum cases (p.name.name :: seen) as
    refine ((finds_patternTypes enum cases seen p).bind fun ts => (hb ts).bind fun _ => has).mono ?_
    rintro T _ ⟨ts, ⟨hp, hseen, hlen⟩, -, hb, has, hkas⟩
    exact ⟨has.cons hp hseen hlen hb.typed, hb.kept.append hkas⟩
theorem checked_otherwise (top : Env) (rest : List Env) (result : Option Ty) : ∀ o : Option Block,
    Finds top rest (checkOtherwise (rest.length + 1) result o) (Stmt.otherwiseIds o) fun T _ =>
      (∀ b, o = some b → BlockTyped T (top :: rest).flatten result b) ∧ KeptAll (Stmt.otherwiseParts o) T
  | none => (finds_pure ()).mono fun T _ _ => ⟨nofun, keptAll_nil T⟩
  | some b => by
    have hb := finds_body top rest fun top' => checked_block top' (top :: rest) result b
    refine hb.mono fun T _ h => ⟨?_, h.kept⟩
    rintro _ ⟨⟩
    exact h.typed
theorem checked_block (top : Env) (rest : List Env) (result : Option Ty) : ∀ b : Block,
    Runs top rest (checkBlock (rest.length + 1) result b) (Stmt.blockIds b) fun T _ _ =>
      BlockChecked (top :: rest).flatten result b T
  | [] => (runs_pure ()).mono fun T _ _ _ => ⟨.nil, keptAll_nil T⟩
  | s :: ss => by
    have hs := checked_stmt top rest result s
    refine (hs.bind (R := fun _ top' T _ _ => BlockChecked (top' :: rest).flatten result ss T)
      fun _ top' _ => checked_block top' rest result ss).mono ?_
    rintro T _ _ ⟨_, top', h, hss⟩
    exact ⟨.cons h.typed hss.typed, h.kept.append hss.kept⟩
end

end Checker

end Gondola
