import Gondola.Proofs.Typing.Confined

/-! Where types are declared. A match takes a value of an enum, so the bodies of matches are never the only place where
a program declares types. -/
namespace Gondola

namespace Stmt

def declaresType : Stmt → Bool
  | .struct .. | .enum .. => true
  | .letVar .. | .assign .. | .ret .. | .expr .. | .ifElse .. | .whileLoop .. | .forEach .. | .matchOn .. =>
    false

mutual
/-- Whether a statement declares a type anywhere but in the bodies of a match. -/
def declaresOpenly : Stmt → Bool
  | .struct .. | .enum .. => true
  | .ifElse _ cs o => clausesDeclare cs || otherwiseDeclares o
  | .whileLoop _ _ b | .forEach _ _ _ b => blockDeclares b
  | .letVar .. | .assign .. | .ret .. | .expr .. | .matchOn .. => false
def clausesDeclare : List Clause → Bool
  | [] => false
  | ⟨_, b⟩ :: cs => blockDeclares b || clausesDeclare cs
def otherwiseDeclares : Option Block → Bool
  | none => false
  | some b => blockDeclares b
def blockDeclares : Block → Bool
  | [] => false
  | s :: ss => s.declaresOpenly || blockDeclares ss
end

theorem declaresType_eq_false {s : Stmt} (h : s.declaresOpenly = false) : s.declaresType = false := by
  cases s with
  | struct | enum => cases h
  | letVar | assign | ret | expr | ifElse | whileLoop | forEach | matchOn => rfl

mutual
theorem exists_of_declaresOpenly : ∀ {s : Stmt}, s.declaresOpenly = true →
    ∃ t ∈ s :: s.nested, t.declaresType = true
  | .struct .., _ | .enum .., _ => ⟨_, List.mem_cons_self, rfl⟩
  | .ifElse .., h => by
    rw [declaresOpenly, Bool.or_eq_true] at h
    rcases h with h | h
    · obtain ⟨t, ht, hd⟩ := exists_of_clausesDeclare h
      exact ⟨t, List.mem_cons_of_mem _ (List.mem_append_left _ ht), hd⟩
    · obtain ⟨t, ht, hd⟩ := exists_of_otherwiseDeclares h
      exact ⟨t, List.mem_cons_of_mem _ (List.mem_append_right _ ht), hd⟩
  | .whileLoop .., h | .forEach .., h => by
    obtain ⟨t, ht, hd⟩ := exists_of_blockDeclares h
    exact ⟨t, List.mem_cons_of_mem _ ht, hd⟩
theorem exists_of_clausesDeclare : ∀ {cs : List Clause}, clausesDeclare cs = true →
    ∃ t ∈ clauseStmts cs, t.declaresType = true
  | ⟨_, _⟩ :: _, h => by
    rw [clausesDeclare, Bool.or_eq_true] at h
    rcases h with h | h
    · obtain ⟨t, ht, hd⟩ := exists_of_blockDeclares h
      exact ⟨t, List.mem_append_left _ ht, hd⟩
    · obtain ⟨t, ht, hd⟩ := exists_of_clausesDeclare h
      exact ⟨t, List.mem_append_right _ ht, hd⟩
theorem exists_of_otherwiseDeclares : ∀ {o : Option Block}, otherwiseDeclares o = true →
    ∃ t ∈ otherwiseStmts o, t.declaresType = true
  | some _, h => exists_of_blockDeclares h
theorem exists_of_blockDeclares : ∀ {b : Block}, blockDeclares b = true →
    ∃ t ∈ blockStmts b, t.declaresType = true
  | s :: ss, h => by
    rw [blockDeclares, Bool.or_eq_true] at h
    rcases h with h | h
    · obtain ⟨t, ht, hd⟩ := exists_of_declaresOpenly h
      rw [blockStmts, ← List.cons_append]
      exact ⟨t, List.mem_append_left _ ht, hd⟩
    · obtain ⟨t, ht, hd⟩ := exists_of_blockDeclares h
      exact ⟨t, List.mem_cons_of_mem _ (List.mem_append_right _ ht), hd⟩
end

end Stmt

def Item.declaresOpenly : Item → Bool
  | .function _ f => Stmt.blockDeclares f.body
  | .stmt s => s.declaresOpenly

theorem Item.exists_of_declaresOpenly {i : Item} (h : i.declaresOpenly = true) :
    ∃ s ∈ i.stmts, s.declaresType = true := by
  cases i with
  | function _ f => exact Stmt.exists_of_blockDeclares h
  | stmt s => exact Stmt.exists_of_declaresOpenly h

/-- Types that there are without a declaration. What a function takes does not count. -/
def Ty.elementary : Ty → Bool
  | .bool | .int | .string | .void | .any => true
  | .list t => t.elementary
  | .map k v => k.elementary && v.elementary
  | .function _ _ r => r.elementary
  | .struct .. | .enum .. | .metatype _ => false

namespace Typing

variable {T : TypeTable} {Γ : Env}

abbrev ElementaryEnv (Γ : Env) : Prop := EnvAll (fun t => t.elementary = true) Γ

theorem inherited_elementary : Inherited fun t => t.elementary = true where
  atomic h := by cases h <;> rfl
  list := Iff.rfl
  map := Bool.and_eq_true_iff
  function _ hr := hr
  result h := h
  field h := absurd h Bool.false_ne_true
  case h := absurd h Bool.false_ne_true
  value h := absurd h Bool.false_ne_true

theorem WellTyped.elementary (hΓ : ElementaryEnv Γ) {e : Expr} (h : WellTyped T Γ e)
    (hp : ∀ f ∈ e.parts, Checker.Kept T f) : HasType (fun t => t.elementary = true) T e :=
  h.inherits inherited_elementary hΓ (Checker.handsOn_of_kept inherited_elementary rfl hp)

theorem VariableType.elementary (hΓ : ElementaryEnv Γ) {e : Expr} {a : Option TypeExpr} {t : Ty}
    (he : HasType (fun t => t.elementary = true) T e) (h : VariableType T Γ e a t) : t.elementary = true := by
  cases h with
  | inferred ht => exact he.of_type ht
  | annotated ha => exact ha.inherits inherited_elementary hΓ

section Blocks

open Stmt

mutual
/-- A statement that declares no type openly declares none at all where there are none yet, and leaves none
behind. -/
theorem StmtTyped.elementary : ∀ {s : Stmt} {Γ Γ' : Env} {result : Option Ty},
    StmtTyped T Γ result s Γ' → ElementaryEnv Γ → (∀ f ∈ s.parts, Checker.Kept T f) →
    s.declaresOpenly = false → ElementaryEnv Γ' ∧ ∀ t ∈ s.nested, t.declaresType = false
  | .letVar _ x _ _, _, _, _, .letVar he ht _, hΓ, hp, _ =>
    ⟨hΓ.declare x (ht.elementary hΓ (he.elementary hΓ hp)), nofun⟩
  | .assign .., _, _, _, .assign .., hΓ, _, _ | .ret .., _, _, _, .ret .., hΓ, _, _
  | .ret .., _, _, _, .retValue .., hΓ, _, _ | .expr .., _, _, _, .expr .., hΓ, _, _ => ⟨hΓ, nofun⟩
  | .ifElse _ cs o, _, _, _, .ifElse _ _ hbs ho, hΓ, hp, hd => by
    obtain ⟨hcs, hlast⟩ := Bool.or_eq_false_iff.mp hd
    refine ⟨hΓ, ?_⟩
    intro t ht
    rcases List.mem_append.mp ht with ht | ht
    · exact clauses_elementary hbs hΓ (fun f hf => hp f (List.mem_append_left _ hf)) hcs t ht
    · exact otherwise_elementary ho hΓ (fun f hf => hp f (List.mem_append_right _ hf)) hlast t ht
  | .whileLoop _ _ b, _, _, _, .whileLoop _ _ hb, hΓ, hp, hd =>
    ⟨hΓ, hb.elementary hΓ (fun f hf => hp f (List.mem_append_right _ hf)) hd⟩
  | .forEach _ v e b, _, _, _, .forEach he het hb, hΓ, hp, hd => by
    have hitems := (he.elementary hΓ fun f hf => hp f (List.mem_append_left _ hf)).of_type het
    exact ⟨hΓ, hb.elementary (hΓ.declareAll _ (loopTypes_inherits inherited_elementary v hitems))
      (fun f hf => hp f (List.mem_append_right _ hf)) hd⟩
  | .matchOn .., _, _, _, .matchOn he het _ _ _ _, hΓ, hp, _ => by
    -- There is no value of an enum.
    have hvalue := he.elementary hΓ fun f hf =>
      hp f (List.mem_append_left _ (List.mem_append_left _ hf))
    exact absurd (hvalue.of_type het) Bool.false_ne_true
theorem clauses_elementary : ∀ {cs : List Clause} {Γ : Env} {result : Option Ty},
    (∀ c ∈ cs, BlockTyped T Γ result c.body) → ElementaryEnv Γ →
    (∀ f ∈ clauseParts cs, Checker.Kept T f) → clausesDeclare cs = false →
    ∀ t ∈ clauseStmts cs, t.declaresType = false
  | [], _, _, _, _, _, _ => nofun
  | ⟨_, b⟩ :: cs, _, _, hbs, hΓ, hp, hd => by
    obtain ⟨hb, hcs⟩ := Bool.or_eq_false_iff.mp hd
    have hbody := (hbs _ List.mem_cons_self).elementary hΓ
      (fun f hf => hp f (List.mem_append_left _ (List.mem_append_right _ hf))) hb
    have hrest := clauses_elementary (fun c hc => hbs c (List.mem_cons_of_mem _ hc)) hΓ
      (fun f hf => hp f (List.mem_append_right _ hf)) hcs
    exact List.forall_mem_append.mpr ⟨hbody, hrest⟩
theorem otherwise_elementary : ∀ {o : Option Block} {Γ : Env} {result : Option Ty},
    (∀ b, o = some b → BlockTyped T Γ result b) → ElementaryEnv Γ →
    (∀ f ∈ otherwiseParts o, Checker.Kept T f) → otherwiseDeclares o = false →
    ∀ t ∈ otherwiseStmts o, t.declaresType = false
  | none, _, _, _, _, _, _ => nofun
  | some b, _, _, ho, hΓ, hp, hd => (ho b rfl).elementary hΓ hp hd
theorem BlockTyped.elementary : ∀ {b : Block} {Γ : Env} {result : Option Ty},
    BlockTyped T Γ result b → ElementaryEnv Γ → (∀ f ∈ blockParts b, Checker.Kept T f) →
    blockDeclares b = false → ∀ t ∈ blockStmts b, t.declaresType = false
  | [], _, _, _, _, _, _ => nofun
  | s :: ss, _, _, .cons hs hss, hΓ, hp, hd => by
    obtain ⟨hfirst, hrest⟩ := Bool.or_eq_false_iff.mp hd
    obtain ⟨hΓ', hnested⟩ := hs.elementary hΓ (fun f hf => hp f (List.mem_append_left _ hf)) hfirst
    have hblock := hss.elementary hΓ' (fun f hf => hp f (List.mem_append_right _ hf)) hrest
    exact List.forall_mem_cons.mpr ⟨declaresType_eq_false hfirst,
      List.forall_mem_append.mpr ⟨hnested, hblock⟩⟩
end

theorem ItemsTyped.elementary {is : List Item} (h : ItemsTyped T Γ is) (hΓ : ElementaryEnv Γ)
    (hp : ∀ f ∈ is.flatMap Item.parts, Checker.Kept T f) (hd : is.any Item.declaresOpenly = false) :
    ∀ s ∈ is.flatMap Item.stmts, s.declaresType = false := by
  induction h with
  | nil => exact nofun
  | @function _ _ f _ _ hf _ ih =>
    obtain ⟨hbody, hrest⟩ := Bool.or_eq_false_iff.mp hd
    rw [List.flatMap_cons] at hp ⊢
    have hΓ' := hΓ.declare f.name (hf.inherits inherited_elementary hΓ)
    have hitems := ih hΓ' (fun f hf => hp f (List.mem_append_right _ hf)) hrest
    cases hf with
    | mk hts _ _ hb =>
      have hstmts := hb.elementary (hΓ'.declareAll _ (denotesAll_inherits inherited_elementary hΓ hts))
        (fun f hf => hp f (List.mem_append_left _ hf)) hbody
      exact List.forall_mem_append.mpr ⟨hstmts, hitems⟩
  | stmt hs _ ih =>
    obtain ⟨hfirst, hrest⟩ := Bool.or_eq_false_iff.mp hd
    rw [List.flatMap_cons] at hp ⊢
    obtain ⟨hΓ', hnested⟩ := hs.elementary hΓ (fun f hf => hp f (List.mem_append_left _ hf)) hfirst
    have hitems := ih hΓ' (fun f hf => hp f (List.mem_append_right _ hf)) hrest
    exact List.forall_mem_append.mpr
      ⟨List.forall_mem_cons.mpr ⟨declaresType_eq_false hfirst, hnested⟩, hitems⟩

end Blocks

/-- The statement itself declares no type, and its expressions have the types that checking found. -/
def Undeclaring (T : TypeTable) (s : Stmt) : Prop :=
  s.declaresType = false ∧ ∀ e ∈ s.exprs, ∀ f ∈ e.parts, Checker.Kept T f

theorem keeps_undeclaring {P : Ty → Prop} (hP : Inherited P) (hany : P .any) :
    Keeps T (Undeclaring T) fun Γ result => EnvAll P Γ ∧ ∀ t, result = some t → P t :=
  keeps_inherited hP (fun _ hs e he => Checker.handsOn_of_kept hP hany (hs.2 e he))
    (fun _ _ _ hs => Bool.noConfusion hs.1) fun _ _ _ hs => Bool.noConfusion hs.1

theorem declaresOpenly_of_check {p : Program} (hn : p.ids.Nodup) (hc : p.check = .ok T) {s : Stmt}
    (hs : s ∈ p.stmts) (hd : s.declaresType = true) : p.items.any Item.declaresOpenly = true := by
  by_contra hopen
  rw [Bool.not_eq_true] at hopen
  have hnone := (Checker.typed_of_check hn hc).elementary nofun (Checker.kept_of_check hn hc) hopen s hs
  rw [hd] at hnone
  cases hnone

end Typing

end Gondola
