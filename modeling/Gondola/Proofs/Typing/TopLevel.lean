import Gondola.Proofs.Parser.Binders
import Gondola.Proofs.Typing.Soundness
import Gondola.Proofs.Typing.Stands

/-! Declarations at the top level of a program, and those inside of its functions, which are visible before them. -/
namespace Gondola

variable {x : Ident} {T : TypeTable} {result : Option Ty} {s : Stmt}

section Places

theorem Stmt.declares_subset_binders (s : Stmt) : s.declares ⊆ s.binders := by
  cases s with
  | letVar | struct | enum => exact List.Subset.refl _
  | assign | ret | expr | ifElse | whileLoop | forEach | matchOn => exact List.nil_subset _

theorem Item.declares_subset_binders (i : Item) : i.declares ⊆ i.binders := by
  cases i with
  | function _ f => exact List.cons_subset_cons _ (List.nil_subset _)
  | stmt s => exact s.declares_subset_binders

theorem FunctionDecl.binders_disjoint {p : Program} {before after : List Item} {sp : Span} {f : FunctionDecl}
    (hn : (p.items.flatMap Item.binders).Nodup) (hp : p.items = before ++ .function sp f :: after)
    (hx : x ∈ f.binders) : x ∉ p.topLevel := by
  have hsub (is : List Item) : is.flatMap Item.declares ⊆ is.flatMap Item.binders := by
    intro y hy
    obtain ⟨i, hi, hy⟩ := List.mem_flatMap.mp hy
    exact List.mem_flatMap.mpr ⟨i, hi, i.declares_subset_binders hy⟩
  rw [hp, List.flatMap_append, List.flatMap_cons, Item.binders] at hn
  obtain ⟨-, hrest, hbefore⟩ := List.nodup_append.mp hn
  obtain ⟨hself, -, hafter⟩ := List.nodup_append.mp hrest
  intro htop
  rw [Program.topLevel, hp, List.flatMap_append, List.flatMap_cons, List.mem_append, List.mem_append] at htop
  have hown : x ∈ f.name :: f.binders := List.mem_cons_of_mem _ hx
  rcases htop with hin | hin | hin
  · exact hbefore x (hsub before hin) x (List.mem_append_left _ hown) rfl
  · obtain rfl := List.mem_singleton.mp hin
    exact (List.nodup_cons.mp hself).1 hx
  · exact hafter x hown x (hsub after hin) rfl

end Places

namespace Typing

/-- The declarations are those of `Γ` after some of the names `xs`. -/
def Extends (xs : List Ident) (Γ Δ : Env) : Prop :=
  ∃ new : Env, Δ = new ++ Γ ∧ ∀ e ∈ new, e.1 = e.2.origin.name ∧ e.2.origin ∈ xs

section Extends

variable {xs ys : List Ident} {Γ Δ Θ : Env}

theorem Extends.refl (xs : List Ident) (Γ : Env) : Extends xs Γ Γ := ⟨[], rfl, nofun⟩

theorem Extends.append (h : Extends xs Γ Δ) (h' : Extends ys Δ Θ) : Extends (xs ++ ys) Γ Θ := by
  obtain ⟨new, rfl, hnew⟩ := h
  obtain ⟨new', rfl, hnew'⟩ := h'
  refine ⟨new' ++ new, (List.append_assoc ..).symm, fun e he => ?_⟩
  rcases List.mem_append.mp he with he | he
  · exact ⟨(hnew' e he).1, List.mem_append_right _ (hnew' e he).2⟩
  · exact ⟨(hnew e he).1, List.mem_append_left _ (hnew e he).2⟩

theorem Extends.mono (h : Extends xs Γ Δ) (hsub : xs ⊆ ys) : Extends ys Γ Δ := by
  obtain ⟨new, rfl, hnew⟩ := h
  exact ⟨new, rfl, fun e he => ⟨(hnew e he).1, hsub (hnew e he).2⟩⟩

theorem extends_declare (x : Ident) (t : Ty) (Γ : Env) : Extends [x] Γ (declare x t Γ) :=
  ⟨[(x.name, ⟨t, x⟩)], rfl, List.forall_mem_singleton.mpr ⟨rfl, List.mem_cons_self⟩⟩

theorem extends_declareAll (xs : List Ident) (ts : List Ty) (Γ : Env) : Extends xs Γ (declareAll xs ts Γ) := by
  induction xs generalizing ts Γ with
  | nil => exact .refl [] Γ
  | cons x xs ih =>
    cases ts with
    | nil => exact .refl _ Γ
    | cons t ts => exact (extends_declare x t Γ).append (ih ts (declare x t Γ))

theorem Extends.lookup (h : Extends xs Γ Δ) {name : String} {d : Declared} (hd : Δ.lookup name = some d)
    (hnew : d.origin ∉ xs) : Γ.lookup name = some d := by
  obtain ⟨new, rfl, hnames⟩ := h
  rw [List.lookup_append, Option.or_eq_some_iff] at hd
  obtain hfound | ⟨-, hbefore⟩ := hd
  · obtain ⟨_, _, rfl, -⟩ := List.lookup_eq_some_iff.mp hfound
    exact absurd (hnames _ (List.mem_append_right _ List.mem_cons_self)).2 hnew
  · exact hbefore

theorem Extends.of_lookup (h : Extends xs [] Δ) {name : String} {d : Declared} (hd : Δ.lookup name = some d) :
    name = d.origin.name ∧ d.origin ∈ xs := by
  obtain ⟨new, rfl, hnames⟩ := h
  rw [List.append_nil] at hd
  obtain ⟨_, _, rfl, -⟩ := List.lookup_eq_some_iff.mp hd
  exact hnames _ (List.mem_append_right _ List.mem_cons_self)

theorem lookup_declareAll {ts : List Ty} (hlen : xs.length = ts.length) (hx : x ∈ xs) :
    ∃ d, (declareAll xs ts Γ).lookup x.name = some d ∧ d.origin ∈ xs := by
  induction xs generalizing ts Γ x with
  | nil => cases hx
  | cons y ys ih =>
    cases ts with
    | nil => cases hlen
    | cons t ts =>
      by_cases hlater : ∃ z ∈ ys, z.name = x.name
      · obtain ⟨z, hz, hname⟩ := hlater
        obtain ⟨d, hd, ho⟩ := ih (Γ := declare y t Γ) (Nat.succ.inj hlen) hz
        exact ⟨d, hname ▸ hd, List.mem_cons_of_mem _ ho⟩
      · -- It is the last one of its name, so nothing declared after it hides it.
        have hxy : x = y := (List.mem_cons.mp hx).resolve_right fun h => hlater ⟨x, h, rfl⟩
        obtain ⟨new, hnew, hnames⟩ := extends_declareAll ys ts (declare y t Γ)
        have hnone : new.lookup x.name = none := by
          rw [List.lookup_eq_none_iff]
          intro e he
          rw [bne_iff_ne, (hnames e he).1]
          exact fun heq => hlater ⟨_, (hnames e he).2, heq.symm⟩
        refine ⟨⟨t, y⟩, ?_, List.mem_cons_self⟩
        rw [declareAll, hnew, List.lookup_append, hnone, hxy]
        exact List.lookup_cons_self

theorem StmtTyped.extends (h : StmtTyped T Γ result s Δ) : Extends s.declares Γ Δ := by
  cases h with
  | letVar | struct | enum => exact extends_declare ..
  | assign | ret | retValue | expr | ifElse | whileLoop | forEach | matchOn => exact .refl _ _

theorem clause_binders_subset {c : Clause} {cs : List Clause} (hc : c ∈ cs) :
    Stmt.blockBinders c.body ⊆ Stmt.clauseBinders cs := by
  induction cs with
  | nil => cases hc
  | cons d cs ih =>
    obtain ⟨cond, body⟩ := d
    rcases List.mem_cons.mp hc with rfl | hc
    · exact List.subset_append_left _ _
    · exact fun x hx => List.mem_append_right _ (ih hc hx)

theorem arm_binders_subset {a : Arm} {as : List Arm} (ha : a ∈ as) :
    a.pattern.bindings ++ Stmt.blockBinders a.body ⊆ Stmt.armBinders as := by
  induction as with
  | nil => cases ha
  | cons b as ih =>
    obtain ⟨pattern, body⟩ := b
    rcases List.mem_cons.mp ha with rfl | ha
    · exact List.subset_append_left _ _
    · exact fun x hx => List.mem_append_right _ (ih ha hx)

theorem Stands.extends {b : Block} (h : Stands T result Γ b Δ s) : Extends (Stmt.blockBinders b) Γ Δ := by
  -- The binders of a statement stand in front of those of the statements after it.
  have head (s : Stmt) (ss : Block) : s.binders ⊆ Stmt.blockBinders (s :: ss) := List.subset_append_left _ _
  induction h with
  | here => exact .refl _ _
  | @after _ _ _ s _ _ hs _ ih => exact (hs.extends.mono s.declares_subset_binders).append ih
  | clause hc _ ih =>
    exact ih.mono fun x hx => head _ _ (List.mem_append_left _ (clause_binders_subset hc hx))
  | otherwise _ ih | default _ ih => exact ih.mono fun x hx => head _ _ (List.mem_append_right _ hx)
  | whileLoop _ ih => exact ih.mono fun x hx => head _ _ hx
  | forEach _ _ ih => exact ((extends_declareAll ..).append ih).mono fun x hx => head _ _ hx
  | arm _ ha _ _ ih =>
    refine ((extends_declareAll ..).append ih).mono fun x hx => ?_
    exact head _ _ (List.mem_append_left _ (arm_binders_subset ha hx))

end Extends

end Typing

end Gondola
