import Gondola.Proofs.Typing.Parts
import Gondola.Proofs.Typing.Stands

/-! Properties of types that typing hands on from what a program declares and from what it leaves open. -/
namespace Gondola

/-- The expression is a symbol that stands for a built-in. -/
def Expr.IsBuiltin (T : TypeTable) : Expr → Prop
  | .symbol n _ => n.id ∈ T.builtins
  | _ => False

instance (T : TypeTable) : (e : Expr) → Decidable (e.IsBuiltin T)
  | .symbol n _ => inferInstanceAs (Decidable (n.id ∈ T.builtins))
  | .int .. | .string .. | .bool .. | .binary .. | .unary .. | .call .. | .list .. | .map .. | .index ..
  | .field .. => inferInstanceAs (Decidable False)

namespace Typing

/-- A property that passes to and from the parts of lists, maps and functions, and to those of declared types. -/
structure Inherited (P : Ty → Prop) : Prop where
  atomic : ∀ {x t}, IsAtomic x t → P t
  list : ∀ {t}, P (.list t) ↔ P t
  map : ∀ {k v}, P (.map k v) ↔ P k ∧ P v
  function : ∀ {ps ls r}, (∀ t ∈ ps, P t) → P r → P (.function ps ls r)
  result : ∀ {ps ls r}, P (.function ps ls r) → P r
  field : ∀ {s fs x t}, P (.struct s fs) → fs.lookup x = some t → P t
  case : ∀ {s cs x ts}, P (.enum s cs) → cs.lookup x = some ts → ∀ t ∈ ts, P t
  value : ∀ {t}, P (.metatype t) → P t

variable {P : Ty → Prop} {T : TypeTable} {Γ : Env} {t : Ty}

section Rules

variable (hP : Inherited P)

include hP

theorem BinaryRule.inherits {op : BinaryOp} {u : Ty} (h : BinaryRule op t u) : P t ∧ P u := by
  cases h with
  | add | sub | mul | div | rem => exact ⟨hP.atomic .int, hP.atomic .int⟩
  | or | and => exact ⟨hP.atomic .bool, hP.atomic .bool⟩
  | eq | ne | lt | le | gt | ge => exact ⟨hP.atomic .int, hP.atomic .bool⟩

theorem UnaryRule.inherits {op : UnaryOp} (h : UnaryRule op t) : P t := by
  cases h with
  | neg => exact hP.atomic .int
  | not => exact hP.atomic .bool

theorem loopTypes_inherits (v : LoopVars) (ht : P t) : ∀ u ∈ loopTypes v t, P u := by
  intro u hu
  rcases List.mem_append.mp hu with hu | hu
  · obtain ⟨_, -, rfl⟩ := Option.map_eq_some_iff.mp (Option.mem_toList.mp hu)
    exact hP.atomic .int
  · rw [List.mem_singleton.mp hu]
    exact ht

variable (hΓ : EnvAll P Γ)

include hΓ

theorem Denotes.inherits {a : TypeExpr} (h : Denotes Γ a t) : P t := by
  induction h with
  | atomic hx => exact hP.atomic hx
  | list _ _ ih => exact hP.list.mpr ih
  | map _ _ _ ihk ihv => exact hP.map.mpr ⟨ihk, ihv⟩
  | named _ _ _ h => exact hP.value (hΓ _ _ h)

theorem denotesAll_inherits {as : List TypeExpr} {ts : List Ty}
    (h : List.Forall₂ (Denotes Γ) as ts) : ∀ t ∈ ts, P t := by
  induction h with
  | nil => exact nofun
  | cons ha _ ih => exact List.forall_mem_cons.mpr ⟨ha.inherits hP hΓ, ih⟩

theorem FieldsDenote.inherits {bs : List Binding} {fs : List (String × Ty)}
    (h : FieldsDenote Γ bs fs) : ∀ f ∈ fs, P f.2 := by
  induction h with
  | nil => exact nofun
  | cons hb _ ih => exact List.forall_mem_cons.mpr ⟨hb.2.inherits hP hΓ, ih⟩

theorem CasesDenote.inherits {cs : List EnumCase}
    {ds : List (String × List Ty)} (h : CasesDenote Γ cs ds) : ∀ d ∈ ds, ∀ t ∈ d.2, P t := by
  induction h with
  | nil => exact nofun
  | cons hc _ ih => exact List.forall_mem_cons.mpr ⟨denotesAll_inherits hP hΓ hc.2, ih⟩

theorem ResultType.inherits {a : Option TypeExpr} (h : ResultType Γ a t) : P t := by
  cases h with
  | void => exact hP.atomic .void
  | written ha => exact ha.inherits hP hΓ

theorem FunctionTyped.inherits {f : FunctionDecl} (h : FunctionTyped T Γ f t) : P t := by
  cases h with
  | mk hts hr => exact hP.function (denotesAll_inherits hP hΓ hts) (hr.inherits hP hΓ)

end Rules

/-- The expression has a type with the property. -/
def HasType (P : Ty → Prop) (T : TypeTable) (e : Expr) : Prop := ∃ t, T.typeOf? e = some t ∧ P t

theorem HasType.of_type {e : Expr} (h : HasType P T e) (ht : T.typeOf? e = some t) : P t := by
  obtain ⟨u, hu, he⟩ := h
  obtain rfl := Option.some.inj (ht.symm.trans hu)
  exact he

theorem WellTyped.builtin_type {e : Expr} (h : WellTyped T Γ e) (hb : e.IsBuiltin T) :
    ∃ n x, e = .symbol n x ∧ x.name = "print" ∧ T.typeOf? e = some Signature.print.type := by
  cases h with
  | @builtin n x t hx ht hty hmark =>
    simp only [builtins, List.lookup_cons] at ht
    split at ht
    · rename_i hname
      obtain rfl := Option.some.inj ht
      exact ⟨n, x, rfl, eq_of_beq hname, hty⟩
    · cases ht
  | declared _ _ _ hfree => exact absurd hb hfree
  | _ => exact hb.elim

/-- Where the expression takes the value of a built-in, the type of that has the property, and the type of a literal
has it unless it is the type of something in the literal. -/
structure HandsOn (P : Ty → Prop) (T : TypeTable) (f : Expr) : Prop where
  operands : ∀ g ∈ f.operands, g.IsBuiltin T → P Signature.print.type
  list : ∀ n es, f = .list n es →
    ∃ t, T.typeAt? n.id = some (.list t) ∧ (P t ∨ ∃ e ∈ es, T.typeOf? e = some t)
  map : ∀ n es, f = .map n es → ∃ k v, T.typeAt? n.id = some (.map k v) ∧
    (P k ∨ ∃ e ∈ es.map Prod.fst, T.typeOf? e = some k) ∧ (P v ∨ ∃ e ∈ es.map Prod.snd, T.typeOf? e = some v)

theorem WellTyped.inherits_or_builtin (hP : Inherited P) (hΓ : EnvAll P Γ) {e : Expr} (h : WellTyped T Γ e)
    (hp : ∀ f ∈ e.parts, HandsOn P T f) : HasType P T e ∨ e.IsBuiltin T := by
  induction e using Expr.induction_children with
  | h e ih =>
    have hself := hp e (Expr.mem_parts_self e)
    have hchild (c : Expr) (hc : c ∈ e.children) : HasType P T c ∨ c.IsBuiltin T :=
      ih c hc (h.child hc) fun f hf => hp f (Expr.mem_parts_iff.mpr (.inr ⟨c, hc, hf⟩))
    -- What an expression takes the value of has a type with the property.
    have huse {c : Expr} {t : Ty} (hc : c ∈ e.operands) (ht : T.typeOf? c = some t) : P t := by
      rcases hchild c (Expr.mem_children_of_operand hc) with hc' | hb
      · exact hc'.of_type ht
      · obtain ⟨-, -, -, -, hprint⟩ := (h.child (Expr.mem_children_of_operand hc)).builtin_type hb
        obtain rfl := Option.some.inj (ht.symm.trans hprint)
        exact hself.operands c hc hb
    cases h with
    | int h => exact .inl ⟨_, h, hP.atomic .int⟩
    | string h => exact .inl ⟨_, h, hP.atomic .string⟩
    | bool h => exact .inl ⟨_, h, hP.atomic .bool⟩
    | declared hx h => exact .inl ⟨_, h, hΓ _ _ hx⟩
    | builtin _ _ _ hb => exact .inr hb
    | binary hop _ _ _ _ h => exact .inl ⟨_, h, (hop.inherits hP).2⟩
    | unary hop _ _ h => exact .inl ⟨_, h, hop.inherits hP⟩
    | call hc hct _ _ _ _ h =>
      refine .inl ⟨_, h, ?_⟩
      rcases hchild _ List.mem_cons_self with hcallee | hb
      · exact hP.result (hcallee.of_type hct)
      · -- The built-in takes an open type but returns nothing.
        obtain ⟨-, -, -, -, hprint⟩ := hc.builtin_type hb
        obtain ⟨-, -, rfl⟩ := Ty.function.inj (Option.some.inj (hct.symm.trans hprint))
        exact hP.atomic .void
    | construct hc hct _ _ _ _ h =>
      rcases hchild _ List.mem_cons_self with hcallee | hb
      · exact .inl ⟨_, h, hP.value (hcallee.of_type hct)⟩
      · obtain ⟨-, -, -, -, hprint⟩ := hc.builtin_type hb
        cases hct.symm.trans hprint
    | list _ _ _ h =>
      -- The rule lets the type of a list be any that its items fit, but it is that of one of them.
      obtain ⟨u, hu, hitem⟩ := hself.list _ _ rfl
      obtain rfl := Ty.list.inj (Option.some.inj (h.symm.trans hu))
      refine .inl ⟨_, h, hP.list.mpr ?_⟩
      rcases hitem with hopen | ⟨e, he, hte⟩
      · exact hopen
      · exact huse he hte
    | map _ _ _ _ _ h =>
      obtain ⟨k, v, hkv, hkey, hvalue⟩ := hself.map _ _ rfl
      obtain ⟨rfl, rfl⟩ := Ty.map.inj (Option.some.inj (h.symm.trans hkv))
      refine .inl ⟨_, h, hP.map.mpr ⟨?_, ?_⟩⟩
      · rcases hkey with hopen | ⟨_, hek, htk⟩
        · exact hopen
        · obtain ⟨e, he, rfl⟩ := List.mem_map.mp hek
          exact huse (Expr.key_mem_operands _ he) htk
      · rcases hvalue with hopen | ⟨_, hev, htv⟩
        · exact hopen
        · obtain ⟨e, he, rfl⟩ := List.mem_map.mp hev
          exact huse (Expr.value_mem_operands _ he) htv
    | item _ hbt _ _ h => exact .inl ⟨_, h, hP.list.mp (huse List.mem_cons_self hbt)⟩
    | entry _ hbt _ _ h => exact .inl ⟨_, h, (hP.map.mp (huse List.mem_cons_self hbt)).2⟩
    | field _ hbt hx h => exact .inl ⟨_, h, hP.field (huse List.mem_cons_self hbt) hx⟩
    | plainCase _ hbt _ h => exact .inl ⟨_, h, hP.value (huse List.mem_cons_self hbt)⟩
    | holdingCase _ hbt hx h =>
      have henum := hP.value (huse List.mem_cons_self hbt)
      exact .inl ⟨_, h, hP.function (hP.case henum hx) henum⟩

theorem WellTyped.inherits (hP : Inherited P) (hΓ : EnvAll P Γ) {e : Expr} (h : WellTyped T Γ e)
    (hp : (e.IsBuiltin T → P Signature.print.type) ∧ ∀ f ∈ e.parts, HandsOn P T f) : HasType P T e := by
  rcases h.inherits_or_builtin hP hΓ hp.2 with htype | hb
  · exact htype
  · obtain ⟨-, -, -, -, hprint⟩ := h.builtin_type hb
    exact ⟨_, hprint, hp.1 hb⟩

theorem keeps_inherited (hP : Inherited P) {Plain : Stmt → Prop}
    (hplain : ∀ s, Plain s → ∀ e ∈ s.exprs, (e.IsBuiltin T → P Signature.print.type) ∧ ∀ f ∈ e.parts, HandsOn P T f)
    (hstruct : ∀ sp d fs, Plain (.struct sp d) → (∀ f ∈ fs, P f.2) → P (.metatype (.struct d.name.name fs)))
    (henum : ∀ sp d cs, Plain (.enum sp d) → (∀ c ∈ cs, ∀ t ∈ c.2, P t) → P (.metatype (.enum d.name.name cs))) :
    Keeps T Plain fun Γ result => EnvAll P Γ ∧ ∀ t, result = some t → P t where
  stmt {Γ Γ' result s} hs hΓ h := by
    refine ⟨?_, hΓ.2⟩
    cases h with
    | @letVar _ _ _ x _ e t hw ht =>
      refine hΓ.1.declare x ?_
      cases ht with
      | inferred h => exact (hw.inherits hP hΓ.1 (hplain _ hs _ (List.mem_singleton_self _))).of_type h
      | annotated ha => exact ha.inherits hP hΓ.1
    | struct hfs => exact hΓ.1.declare _ (hstruct _ _ _ hs (hfs.inherits hP hΓ.1))
    | enum hcs => exact hΓ.1.declare _ (henum _ _ _ hs (hcs.inherits hP hΓ.1))
    | assign | ret | retValue | expr | ifElse | whileLoop | forEach | matchOn => exact hΓ.1
  loop {Γ result sp v e b t} hs hΓ hw ht := by
    have hitems := (hw.inherits hP hΓ.1 (hplain _ hs _ (List.mem_singleton_self _))).of_type ht
    exact ⟨hΓ.1.declareAll _ (loopTypes_inherits hP v (hP.list.mp hitems)), hΓ.2⟩
  arm {Γ result sp e as o name cases ts a} hs hΓ hw ht hp := by
    have hvalue := (hw.inherits hP hΓ.1 (hplain _ hs _ (List.mem_singleton_self _))).of_type ht
    exact ⟨hΓ.1.declareAll _ (hP.case hvalue hp), hΓ.2⟩
  body {Γ f ts ls r} hΓ hf := by
    have hself := hf.inherits hP hΓ.1
    cases hf with
    | mk hts _ _ _ =>
      refine ⟨(hΓ.1.declare _ hself).declareAll _ (denotesAll_inherits hP hΓ.1 hts), ?_⟩
      rintro _ ⟨⟩
      exact hP.result hself
  function hΓ hf := ⟨hΓ.1.declare _ (hf.inherits hP hΓ.1), nofun⟩

end Typing

end Gondola
