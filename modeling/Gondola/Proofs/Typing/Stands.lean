import Gondola.Proofs.Program.Parts
import Gondola.Proofs.Typing.Rules

/-! Where the statements of a program stand: which declarations are visible there, and what the function around them
returns. -/
namespace Gondola.Typing

variable {T : TypeTable}

section Unique

variable {Γ : Env}

theorem IsAtomic.unique {x : String} {t u : Ty} (ht : IsAtomic x t) (hu : IsAtomic x u) : t = u := by
  generalize hx : x = y at hu
  cases ht <;> cases hu <;> first | rfl | exact absurd hx (by decide)

theorem Denotes.unique {a : TypeExpr} {t u : Ty} (ht : Denotes Γ a t) (hu : Denotes Γ a u) :
    t = u := by
  induction ht generalizing u with
  | atomic hx =>
    cases hu with
    | atomic hy => exact hx.unique hy
    | named hn => exact absurd hx (hn _)
  | list _ _ ih =>
    cases hu with
    | list _ ha => rw [ih ha]
  | map _ _ _ ihk ihv =>
    cases hu with
    | map _ ha hb => rw [ihk ha, ihv hb]
  | named hn _ _ h =>
    cases hu with
    | atomic hx => exact absurd hx (hn _)
    | named _ _ _ h' =>
      obtain ⟨hm, -⟩ := Declared.mk.inj (Option.some.inj (h.symm.trans h'))
      exact Ty.metatype.inj hm

theorem denotesAll_unique {as : List TypeExpr} {ts us : List Ty}
    (ht : List.Forall₂ (Denotes Γ) as ts) (hu : List.Forall₂ (Denotes Γ) as us) : ts = us :=
  List.right_unique_forall₂' (fun _ _ _ h h' => h.unique h') ht hu

theorem FieldsDenote.unique {bs : List Binding} {fs gs : List (String × Ty)}
    (hf : FieldsDenote Γ bs fs) (hg : FieldsDenote Γ bs gs) : fs = gs := by
  refine List.right_unique_forall₂' ?_ hf hg
  rintro b ⟨x, t⟩ ⟨y, u⟩ ⟨hx, ht⟩ ⟨hy, hu⟩
  exact Prod.ext (hx.trans hy.symm) (ht.unique hu)

theorem CasesDenote.unique {cs : List EnumCase} {ds es : List (String × List Ty)}
    (hd : CasesDenote Γ cs ds) (he : CasesDenote Γ cs es) : ds = es := by
  refine List.right_unique_forall₂' ?_ hd he
  rintro c ⟨x, ts⟩ ⟨y, us⟩ ⟨hx, hts⟩ ⟨hy, hus⟩
  exact Prod.ext (hx.trans hy.symm) (denotesAll_unique hts hus)

theorem VariableType.unique {e : Expr} {a : Option TypeExpr} {t u : Ty}
    (ht : VariableType T Γ e a t) (hu : VariableType T Γ e a u) : t = u := by
  cases ht with
  | inferred h =>
    cases hu with
    | inferred h' => exact Option.some.inj (h.symm.trans h')
  | annotated ha =>
    cases hu with
    | annotated ha' => exact ha.unique ha'

theorem StmtTyped.unique {result : Option Ty} {s : Stmt} {Γ' Γ'' : Env}
    (h : StmtTyped T Γ result s Γ') (h' : StmtTyped T Γ result s Γ'') : Γ' = Γ'' := by
  cases h with
  | letVar _ ht =>
    cases h' with
    | letVar _ ht' => rw [ht.unique ht']
  | struct hfs =>
    cases h' with
    | struct hfs' => rw [hfs.unique hfs']
  | enum hcs =>
    cases h' with
    | enum hcs' => rw [hcs.unique hcs']
  | assign | ret | retValue | expr | ifElse | whileLoop | forEach | matchOn =>
    cases h'
    rfl

theorem FunctionTyped.unique {f : FunctionDecl} {t u : Ty} (h : FunctionTyped T Γ f t)
    (h' : FunctionTyped T Γ f u) : t = u := by
  cases h with
  | mk _ _ hsig =>
    cases h' with
    | mk _ _ hsig' =>
      obtain ⟨rfl, -, rfl⟩ := Signature.mk.inj (Option.some.inj (hsig.symm.trans hsig'))
      rfl

end Unique

section EnvAll

variable {P : Ty → Prop} {Γ : Env}

/-- The types of all visible declarations have the property. -/
def EnvAll (P : Ty → Prop) (Γ : Env) : Prop := ∀ x d, Γ.lookup x = some d → P d.type

theorem EnvAll.declare (hΓ : EnvAll P Γ) (x : Ident) {t : Ty} (ht : P t) :
    EnvAll P (declare x t Γ) := by
  intro y d hd
  rw [Typing.declare, List.lookup_cons] at hd
  split at hd
  · obtain rfl := Option.some.inj hd
    exact ht
  · exact hΓ y d hd

theorem EnvAll.declareAll (hΓ : EnvAll P Γ) (xs : List Ident) {ts : List Ty} (hts : ∀ t ∈ ts, P t) :
    EnvAll P (declareAll xs ts Γ) := by
  induction xs generalizing ts Γ with
  | nil => exact hΓ
  | cons x xs ih =>
    cases ts with
    | nil => exact hΓ
    | cons t ts =>
      exact ih (hΓ.declare x (hts t List.mem_cons_self)) fun u hu => hts u (List.mem_cons_of_mem _ hu)

end EnvAll

theorem StmtTyped.wellTyped {Γ Γ' : Env} {result : Option Ty} {s : Stmt} {e : Expr}
    (h : StmtTyped T Γ result s Γ') (he : e ∈ s.exprs) : WellTyped T Γ e := by
  cases h with
  | letVar hw | expr hw | whileLoop hw | forEach hw | matchOn hw | retValue hw =>
    rw [List.mem_singleton.mp he]
    exact hw
  | assign htarget _ _ hw =>
    rcases List.mem_cons.mp he with rfl | he
    · exact htarget
    · rw [List.mem_singleton.mp he]
      exact hw
  | ifElse hcs =>
    obtain ⟨c, hc, rfl⟩ := List.mem_map.mp he
    exact hcs c hc
  | ret | struct | enum => cases he

/-- A statement in a block that is checked where `Γ` is visible. Where the statement itself stands, `Δ` is
visible. -/
inductive Stands (T : TypeTable) (result : Option Ty) : Env → Block → Env → Stmt → Prop
  | here {Γ s ss} : Stands T result Γ (s :: ss) Γ s
  | after {Γ Γ' Δ s ss s'} (hs : StmtTyped T Γ result s Γ') (h : Stands T result Γ' ss Δ s') :
      Stands T result Γ (s :: ss) Δ s'
  | clause {Γ Δ sp cs o ss c s'} (hc : c ∈ cs) (h : Stands T result Γ c.body Δ s') :
      Stands T result Γ (.ifElse sp cs o :: ss) Δ s'
  | otherwise {Γ Δ sp cs b ss s'} (h : Stands T result Γ b Δ s') :
      Stands T result Γ (.ifElse sp cs (some b) :: ss) Δ s'
  | whileLoop {Γ Δ sp c b ss s'} (h : Stands T result Γ b Δ s') :
      Stands T result Γ (.whileLoop sp c b :: ss) Δ s'
  | forEach {Γ Δ sp v e b t ss s'} (he : T.typeOf? e = some (.list t))
      (h : Stands T result (declareAll v.names (loopTypes v t) Γ) b Δ s') :
      Stands T result Γ (.forEach sp v e b :: ss) Δ s'
  | arm {Γ Δ sp e as o name cases a ts ss s'} (he : T.typeOf? e = some (.enum name cases))
      (ha : a ∈ as) (hp : cases.lookup a.pattern.name.name = some ts)
      (h : Stands T result (declareAll a.pattern.bindings ts Γ) a.body Δ s') :
      Stands T result Γ (.matchOn sp e as o :: ss) Δ s'
  | default {Γ Δ sp e as b ss s'} (h : Stands T result Γ b Δ s') :
      Stands T result Γ (.matchOn sp e as (some b) :: ss) Δ s'

/-- A statement in the items of a program: at the top level, where nothing is returned, or in a function. -/
inductive ItemStands (T : TypeTable) : Env → List Item → Env → Option Ty → Stmt → Prop
  | stmt {Γ Δ s is s'} (h : Stands T none Γ [s] Δ s') : ItemStands T Γ (.stmt s :: is) Δ none s'
  | body {Γ Δ sp f ts ls r is s'} (hf : FunctionTyped T Γ f (.function ts ls r))
      (h : Stands T (some r) (declareAll (f.params.map Binding.name) ts
        (declare f.name (.function ts ls r) Γ)) f.body Δ s') :
      ItemStands T Γ (.function sp f :: is) Δ (some r) s'
  | afterStmt {Γ Γ' Δ s is result s'} (hs : StmtTyped T Γ none s Γ')
      (h : ItemStands T Γ' is Δ result s') : ItemStands T Γ (.stmt s :: is) Δ result s'
  | afterFunction {Γ Δ sp f t is result s'} (hf : FunctionTyped T Γ f t)
      (h : ItemStands T (declare f.name t Γ) is Δ result s') :
      ItemStands T Γ (.function sp f :: is) Δ result s'

/-- A statement of a program, which starts with nothing but the built-ins. -/
def ProgramStands (T : TypeTable) (p : Program) (Δ : Env) (result : Option Ty) (s : Stmt) : Prop :=
  ItemStands T [] p.items Δ result s

section Reached

variable {result : Option Ty} {s : Stmt}

mutual
theorem stands_nested {Γ Γ' : Env} (ss : Block) : ∀ {s' : Stmt}, StmtTyped T Γ result s' Γ' →
    s ∈ s'.nested → ∃ Δ, Stands T result Γ (s' :: ss) Δ s
  | .ifElse _ cs o, h, hs => by
    cases h with
    | ifElse _ _ hbs ho =>
      rcases List.mem_append.mp hs with hs | hs
      · obtain ⟨c, hc, Δ, h⟩ := stands_clause hbs hs
        exact ⟨Δ, .clause hc h⟩
      · obtain ⟨b, rfl, Δ, h⟩ := stands_otherwise ho hs
        exact ⟨Δ, .otherwise h⟩
  | .whileLoop _ _ b, h, hs => by
    cases h with
    | whileLoop _ _ hb =>
      obtain ⟨Δ, h⟩ := stands_block hb hs
      exact ⟨Δ, .whileLoop h⟩
  | .forEach _ _ _ b, h, hs => by
    cases h with
    | forEach _ het hb =>
      obtain ⟨Δ, h⟩ := stands_block hb hs
      exact ⟨Δ, .forEach het h⟩
  | .matchOn _ _ as o, h, hs => by
    cases h with
    | @matchOn _ _ _ _ _ _ name cases _ het hps hbs _ ho =>
      rcases List.mem_append.mp hs with hs | hs
      · have hbodies : ∀ a ∈ as, ∃ ts, cases.lookup a.pattern.name.name = some ts ∧
            BlockTyped T (declareAll a.pattern.bindings ts Γ) result a.body := by
          intro a ha
          obtain ⟨ts, hts, -⟩ := hps a ha
          exact ⟨ts, hts, hbs a ha ts hts⟩
        obtain ⟨a, ha, ts, hts, Δ, h⟩ := stands_arm hbodies hs
        exact ⟨Δ, .arm het ha hts h⟩
      · obtain ⟨b, rfl, Δ, h⟩ := stands_otherwise ho hs
        exact ⟨Δ, .default h⟩
  | .letVar .., _, hs | .assign .., _, hs | .ret .., _, hs | .expr .., _, hs | .struct .., _, hs
  | .enum .., _, hs => nomatch hs
theorem stands_clause {Γ : Env} : ∀ {cs : List Clause},
    (∀ c ∈ cs, BlockTyped T Γ result c.body) → s ∈ Stmt.clauseStmts cs →
      ∃ c ∈ cs, ∃ Δ, Stands T result Γ c.body Δ s
  | ⟨_, body⟩ :: cs, hbs, hs => by
    rcases List.mem_append.mp hs with hs | hs
    · exact ⟨_, List.mem_cons_self, stands_block (hbs _ List.mem_cons_self) hs⟩
    · obtain ⟨c, hc, h⟩ := stands_clause (fun c hc => hbs c (List.mem_cons_of_mem _ hc)) hs
      exact ⟨c, List.mem_cons_of_mem _ hc, h⟩
theorem stands_arm {Γ : Env} {types : Arm → Option (List Ty)} : ∀ {as : List Arm},
    (∀ a ∈ as, ∃ ts, types a = some ts ∧
      BlockTyped T (declareAll a.pattern.bindings ts Γ) result a.body) → s ∈ Stmt.armStmts as →
      ∃ a ∈ as, ∃ ts, types a = some ts ∧
        ∃ Δ, Stands T result (declareAll a.pattern.bindings ts Γ) a.body Δ s
  | ⟨_, body⟩ :: as, hbs, hs => by
    rcases List.mem_append.mp hs with hs | hs
    · obtain ⟨ts, hts, hb⟩ := hbs _ List.mem_cons_self
      exact ⟨_, List.mem_cons_self, ts, hts, stands_block hb hs⟩
    · obtain ⟨a, ha, h⟩ := stands_arm (fun a ha => hbs a (List.mem_cons_of_mem _ ha)) hs
      exact ⟨a, List.mem_cons_of_mem _ ha, h⟩
theorem stands_otherwise {Γ : Env} : ∀ {o : Option Block},
    (∀ b, o = some b → BlockTyped T Γ result b) → s ∈ Stmt.otherwiseStmts o →
      ∃ b, o = some b ∧ ∃ Δ, Stands T result Γ b Δ s
  | some b, ho, hs => ⟨b, rfl, stands_block (ho b rfl) hs⟩
theorem stands_block {Γ : Env} : ∀ {b : Block}, BlockTyped T Γ result b → s ∈ Stmt.blockStmts b →
    ∃ Δ, Stands T result Γ b Δ s
  | s' :: ss, h, hs => by
    cases h with
    | cons h hss =>
      rcases List.mem_cons.mp hs with rfl | hs
      · exact ⟨Γ, .here⟩
      · rcases List.mem_append.mp hs with hs | hs
        · exact stands_nested ss h hs
        · obtain ⟨Δ, h'⟩ := stands_block hss hs
          exact ⟨Δ, .after h h'⟩
end

theorem stands_item {Γ : Env} {is : List Item} (h : ItemsTyped T Γ is)
    (hs : s ∈ is.flatMap Item.stmts) : ∃ Δ result, ItemStands T Γ is Δ result s := by
  induction h with
  | nil => cases hs
  | function hf _ ih =>
    rw [List.flatMap_cons] at hs
    rcases List.mem_append.mp hs with hs | hs
    · cases hf with
      | mk hts hr hsig hb =>
        obtain ⟨Δ, h⟩ := stands_block hb hs
        exact ⟨Δ, _, .body (.mk hts hr hsig hb) h⟩
    · obtain ⟨Δ, result, h⟩ := ih hs
      exact ⟨Δ, result, .afterFunction hf h⟩
  | stmt hstmt _ ih =>
    rw [List.flatMap_cons] at hs
    rcases List.mem_append.mp hs with hs | hs
    · rw [Item.stmts, ← Stmt.blockStmts_singleton] at hs
      obtain ⟨Δ, h⟩ := stands_block (.cons hstmt .nil) hs
      exact ⟨Δ, none, .stmt h⟩
    · obtain ⟨Δ, result, h⟩ := ih hs
      exact ⟨Δ, result, .afterStmt hstmt h⟩

theorem ProgramTyped.stands {p : Program} (h : ProgramTyped T p) (hs : s ∈ p.stmts) :
    ∃ Δ result, ProgramStands T p Δ result s :=
  stands_item h hs

end Reached

section Invariant

/-! A property of declarations that the statements of a program keep holds at each of its statements. -/

variable {Good : Env → Option Ty → Prop} {Plain : Stmt → Prop}

/-- What keeps a property of the visible declarations, and the result that is wanted, along a program. -/
structure Keeps (T : TypeTable) (Plain : Stmt → Prop) (Good : Env → Option Ty → Prop) : Prop where
  stmt : ∀ {Γ Γ' result s}, Plain s → Good Γ result → StmtTyped T Γ result s Γ' → Good Γ' result
  loop : ∀ {Γ result sp v e b t}, Plain (.forEach sp v e b) → Good Γ result → WellTyped T Γ e →
    T.typeOf? e = some (.list t) → Good (declareAll v.names (loopTypes v t) Γ) result
  arm : ∀ {Γ result sp e as o name cases ts} {a : Arm}, Plain (.matchOn sp e as o) → Good Γ result →
    WellTyped T Γ e → T.typeOf? e = some (.enum name cases) →
    cases.lookup a.pattern.name.name = some ts → Good (declareAll a.pattern.bindings ts Γ) result
  body : ∀ {Γ f ts ls r}, Good Γ none → FunctionTyped T Γ f (.function ts ls r) →
    Good (declareAll (f.params.map Binding.name) ts (declare f.name (.function ts ls r) Γ)) (some r)
  function : ∀ {Γ f t}, Good Γ none → FunctionTyped T Γ f t → Good (declare f.name t Γ) none

theorem Stands.typed (hk : Keeps T Plain Good) {result : Option Ty} {Γ Δ : Env} {b : Block} {s : Stmt}
    (h : Stands T result Γ b Δ s) (hb : BlockTyped T Γ result b)
    (hplain : ∀ s ∈ Stmt.blockStmts b, Plain s) (hΓ : Good Γ result) :
    Plain s ∧ Good Δ result ∧ ∃ Δ', StmtTyped T Δ result s Δ' := by
  induction h with
  | here =>
    cases hb with
    | cons hs _ => exact ⟨hplain _ List.mem_cons_self, hΓ, _, hs⟩
  | after hs _ ih =>
    cases hb with
    | cons hs' hss =>
      -- The rest of the block is typed with what one typing leaves behind, and reached with what another does.
      obtain rfl := hs'.unique hs
      have hs'' := hplain _ List.mem_cons_self
      exact ih hss (fun s h => hplain s (List.mem_cons_of_mem _ (List.mem_append_right _ h)))
        (hk.stmt hs'' hΓ hs)
  | clause hc _ ih =>
    cases hb with
    | cons hs _ =>
      cases hs with
      | ifElse _ _ hbs _ =>
        refine ih (hbs _ hc) (fun s h => hplain s ?_) hΓ
        refine List.mem_cons_of_mem _ (List.mem_append_left _ (List.mem_append_left _ ?_))
        exact Stmt.mem_clauseStmts.mpr ⟨_, hc, h⟩
  | otherwise _ ih =>
    cases hb with
    | cons hs _ =>
      cases hs with
      | ifElse _ _ _ ho =>
        refine ih (ho _ rfl) (fun s h => hplain s ?_) hΓ
        exact List.mem_cons_of_mem _ (List.mem_append_left _ (List.mem_append_right _ h))
  | whileLoop _ ih =>
    cases hb with
    | cons hs _ =>
      cases hs with
      | whileLoop _ _ hb =>
        refine ih hb (fun s h => hplain s ?_) hΓ
        exact List.mem_cons_of_mem _ (List.mem_append_left _ h)
  | forEach he _ ih =>
    -- The type of the items is read from the table, so there is only one.
    cases hb with
    | cons hs _ =>
      cases hs with
      | forEach hw he' hb =>
        obtain rfl := Ty.list.inj (Option.some.inj (he'.symm.trans he))
        refine ih hb (fun s h => hplain s ?_) (hk.loop (hplain _ List.mem_cons_self) hΓ hw he)
        exact List.mem_cons_of_mem _ (List.mem_append_left _ h)
  | arm he ha hp _ ih =>
    cases hb with
    | cons hs _ =>
      cases hs with
      | matchOn hw he' _ hbs _ _ =>
        obtain ⟨rfl, rfl⟩ := Ty.enum.inj (Option.some.inj (he'.symm.trans he))
        refine ih (hbs _ ha _ hp) (fun s h => hplain s ?_)
          (hk.arm (hplain _ List.mem_cons_self) hΓ hw he hp)
        refine List.mem_cons_of_mem _ (List.mem_append_left _ (List.mem_append_left _ ?_))
        exact Stmt.mem_armStmts.mpr ⟨_, ha, h⟩
  | default _ ih =>
    cases hb with
    | cons hs _ =>
      cases hs with
      | matchOn _ _ _ _ _ ho =>
        refine ih (ho _ rfl) (fun s h => hplain s ?_) hΓ
        exact List.mem_cons_of_mem _ (List.mem_append_left _ (List.mem_append_right _ h))

theorem ItemStands.typed (hk : Keeps T Plain Good) {Γ Δ : Env} {is : List Item} {result : Option Ty}
    {s : Stmt} (h : ItemStands T Γ is Δ result s) (his : ItemsTyped T Γ is)
    (hplain : ∀ s ∈ is.flatMap Item.stmts, Plain s) (hΓ : Good Γ none) :
    Plain s ∧ Good Δ result ∧ ∃ Δ', StmtTyped T Δ result s Δ' := by
  induction h with
  | stmt h =>
    cases his with
    | stmt hs _ =>
      refine h.typed hk (.cons hs .nil) (fun s h => hplain s ?_) hΓ
      rw [Stmt.blockStmts_singleton] at h
      exact List.mem_append_left _ h
  | body hf h =>
    have hΓ' := hk.body hΓ hf
    cases hf with
    | mk _ _ _ hb =>
      refine h.typed hk hb (fun s h => hplain s ?_) hΓ'
      rw [List.flatMap_cons]
      exact List.mem_append_left _ h
  | afterStmt hs _ ih =>
    cases his with
    | stmt hs' his =>
      obtain rfl := hs'.unique hs
      rw [List.flatMap_cons] at hplain
      have hfirst := hplain _ (List.mem_append_left _ List.mem_cons_self)
      exact ih his (fun s h => hplain s (List.mem_append_right _ h)) (hk.stmt hfirst hΓ hs)
  | afterFunction hf _ ih =>
    cases his with
    | function hf' his =>
      obtain rfl := hf'.unique hf
      rw [List.flatMap_cons] at hplain
      exact ih his (fun s h => hplain s (List.mem_append_right _ h)) (hk.function hΓ hf)

end Invariant

end Gondola.Typing
