import Gondola.Proofs.Grammar.Occupies
import Gondola.Proofs.Token.Lexing

/-! The names and numbers in the trees of the grammar are those of tokens. -/
namespace Gondola

open Grammar

namespace Expr

/-- Whether the names or the number of an expression, its parts apart, can be those of tokens. -/
def IsSpellable : Expr → Prop
  | .int _ v => v ≤ Nat.pow 2 63 - 1
  | .symbol _ x | .field _ _ x => IsIdentifier x.name
  | .call _ _ as => ∀ a ∈ as, ∀ x ∈ a.label, IsIdentifier x.name
  | _ => True

theorem isSpellable_bare (e : Expr) : e.bare.IsSpellable ↔ e.IsSpellable := by
  cases e with
  | call _ c as =>
    have hlabel (a : Argument) : (∀ x ∈ a.bare.label, IsIdentifier x.name) ↔
        ∀ x ∈ a.label, IsIdentifier x.name := by
      obtain ⟨label, value⟩ := a
      cases label with
      | none => exact iff_of_true nofun nofun
      | some x => simp [Argument.bare, Ident.bare]
    simp only [bare, IsSpellable, bareArguments_eq_map, List.forall_mem_map, hlabel]
  | int | string | bool | symbol | binary | unary | list | map | index | field => exact Iff.rfl

end Expr

namespace Grammar

theorem IsArgument.label {ts : List Token} {a : Argument} (h : IsArgument ts a) :
    ∀ x ∈ a.label, ∃ t ∈ ts, t.kind = .identifier ∧ x.name = t.text := by
  cases h with
  | positional => exact nofun
  | @keyword t _ _ _ ht =>
    rintro x ⟨⟩
    exact ⟨t, List.mem_cons_self, ht, rfl⟩

theorem IsExpr.spellable {l : Precedence} {ts : List Token} {e : Expr} (h : IsExpr l ts e)
    (hts : ∀ t ∈ ts, t.kind = .identifier → IsIdentifier t.text) : e.IsSpellable := by
  induction h using IsExpr.spine with
  | looser _ _ ih => exact ih hts
  | group _ _ _ ih => exact ih fun t ht => hts t (by simp [ht])
  | call _ _ ha _ _ =>
    intro a hmem x hx
    obtain ⟨ws, hws, hitem⟩ := ha.among hmem
    obtain ⟨t, ht, hkind, hname⟩ := hitem.label x hx
    rw [hname]
    exact hts t (by simp [hws.subset ht]) hkind
  | @field _ _ x _ _ _ hx _ => exact hts x (by simp) hx
  | @symbol t ht => exact hts t (by simp) ht
  | int _ _ hmax => exact hmax
  | binary | unary | index | string | trueLit | falseLit | list | map => exact True.intro

end Grammar

/-! Statements and functions. -/

namespace TypeExpr

mutual
def names : TypeExpr → List Ident
  | .mk x args _ => x :: namesAll args
def namesAll : List TypeExpr → List Ident
  | [] => []
  | a :: as => a.names ++ namesAll as
end

mutual
theorem names_bare : ∀ a : TypeExpr, a.bare.names = a.names.map Ident.bare
  | .mk x args _ => by rw [bare, names, names, namesAll_bare args, List.map_cons]
theorem namesAll_bare : ∀ as : List TypeExpr, namesAll (bareAll as) = (namesAll as).map Ident.bare
  | [] => rfl
  | a :: as => by rw [bareAll, namesAll, namesAll, names_bare a, namesAll_bare as, List.map_append]
end

end TypeExpr

/-- The names that stand in a statement itself: those that it gives to something, and the cases that it tells
apart. -/
def Stmt.ownNames : Stmt → List Ident
  | .letVar _ x _ _ => [x]
  | .forEach _ v _ _ => v.names
  | .matchOn _ _ as _ => as.flatMap fun a => a.pattern.name :: a.pattern.bindings
  | .struct _ d => d.name :: d.fields.map Binding.name
  | .enum _ d => d.name :: d.cases.map EnumCase.name
  | .assign .. | .ret .. | .expr .. | .ifElse .. | .whileLoop .. => []

def Stmt.annotations : Stmt → List TypeExpr
  | .letVar _ _ a _ => a.toList
  | .struct _ d => d.fields.map Binding.type
  | .enum _ d => d.cases.flatMap EnumCase.params
  | .forEach .. | .matchOn .. | .assign .. | .ret .. | .expr .. | .ifElse .. | .whileLoop .. => []

def Stmt.hasClause : Stmt → Bool
  | .ifElse _ cs _ => !cs.isEmpty
  | _ => true

def FunctionDecl.ownNames (f : FunctionDecl) : List Ident := f.name :: f.params.map Binding.name

def FunctionDecl.annotations (f : FunctionDecl) : List TypeExpr := f.params.map Binding.type ++ f.result.toList

theorem Stmt.bareArms_names (as : List Arm) :
    (bareArms as).flatMap (fun a => a.pattern.name :: a.pattern.bindings) =
      (as.flatMap fun a => a.pattern.name :: a.pattern.bindings).map Ident.bare := by
  induction as with
  | nil => rfl
  | cons a as ih =>
    obtain ⟨p, b⟩ := a
    rw [bareArms, List.flatMap_cons, List.flatMap_cons, List.map_append, ih]
    rfl

theorem Stmt.ownNames_bare (s : Stmt) : s.bare.ownNames = s.ownNames.map Ident.bare := by
  cases s with
  | forEach _ v _ _ =>
    obtain ⟨index, item⟩ := v
    cases index with
    | none => rfl
    | some i => rfl
  | matchOn _ _ as _ => exact bareArms_names as
  | struct _ d => simp [bare, ownNames, StructDecl.bare, Binding.bare, Function.comp_def]
  | enum _ d => simp [bare, ownNames, EnumDecl.bare, EnumCase.bare, Function.comp_def]
  | letVar | assign | ret | expr | ifElse | whileLoop => rfl

theorem Stmt.annotations_bare (s : Stmt) : s.bare.annotations = s.annotations.map TypeExpr.bare := by
  cases s with
  | letVar _ _ a _ => cases a <;> rfl
  | struct _ d => simp [bare, annotations, StructDecl.bare, Binding.bare, Function.comp_def]
  | enum _ d => simp [bare, annotations, EnumDecl.bare, EnumCase.bare, List.flatMap_map, List.map_flatMap]
  | forEach | matchOn | assign | ret | expr | ifElse | whileLoop => rfl

theorem Stmt.hasClause_bare (s : Stmt) : s.bare.hasClause = s.hasClause := by
  cases s with
  | ifElse _ cs _ =>
    cases cs with
    | nil => rfl
    | cons c cs =>
      obtain ⟨cond, body⟩ := c
      rfl
  | letVar | assign | ret | expr | whileLoop | forEach | matchOn | struct | enum => rfl

theorem FunctionDecl.ownNames_bare (f : FunctionDecl) : f.bare.ownNames = f.ownNames.map Ident.bare := by
  simp [ownNames, FunctionDecl.bare, Binding.bare, Function.comp_def]

theorem FunctionDecl.annotations_bare (f : FunctionDecl) :
    f.bare.annotations = f.annotations.map TypeExpr.bare := by
  obtain ⟨name, params, result, body⟩ := f
  cases result <;> simp [annotations, FunctionDecl.bare, Binding.bare, Function.comp_def]

/-- Names are spelled like tokens, and so are those in types. -/
def Spelled (xs : List Ident) (as : List TypeExpr) : Prop :=
  (∀ x ∈ xs, IsIdentifier x.name) ∧ ∀ a ∈ as, ∀ x ∈ a.names, IsIdentifier x.name

theorem Spelled.of_bare {xs : List Ident} {as : List TypeExpr}
    (h : Spelled (xs.map Ident.bare) (as.map TypeExpr.bare)) : Spelled xs as := by
  refine ⟨fun x hx => h.1 x.bare (List.mem_map_of_mem hx), fun a ha x hx => ?_⟩
  have hnames := h.2 _ (List.mem_map_of_mem ha)
  rw [TypeExpr.names_bare] at hnames
  exact hnames x.bare (List.mem_map_of_mem hx)

/-- The names in a statement itself and in its expressions are spelled like tokens, and it is one that can be read. -/
structure Stmt.IsSpellable (s : Stmt) : Prop where
  spelled : Spelled s.ownNames s.annotations
  single : ∀ sp e, s = .expr sp e → sp = e.span
  exprs : ∀ e ∈ s.exprs, ∀ d ∈ e.parts, d.IsSpellable
  clause : s.hasClause = true

def Item.IsSpellable : Item → Prop
  | .function _ f => Spelled f.ownNames f.annotations ∧ ∀ s ∈ Stmt.blockStmts f.body, s.IsSpellable
  | .stmt s => s.IsSpellable ∧ ∀ t ∈ s.nested, t.IsSpellable

theorem Grammar.IsSimple.hasClause {ts : List Token} {s : Stmt} (h : IsSimple ts s) : s.hasClause = true := by
  cases h <;> rfl

theorem Grammar.IsCompound.hasClause {ts : List Token} {s : Stmt} (h : IsCompound ts s) :
    s.hasClause = true := by
  cases h <;> rfl

theorem Stmt.IsSpellable.names {s : Stmt} (h : s.IsSpellable) : ∀ x ∈ s.ownNames, IsIdentifier x.name := h.spelled.1

theorem Grammar.IsType.names {ts : List Token} {a : TypeExpr} (h : IsType ts a) :
    (∀ t ∈ ts, t.kind = .identifier → IsIdentifier t.text) → ∀ x ∈ a.names, IsIdentifier x.name := by
  refine @IsType.rec
    (fun ts a _ => (∀ t ∈ ts, t.kind = .identifier → IsIdentifier t.text) → ∀ x ∈ a.names, IsIdentifier x.name)
    (fun ts as _ => (∀ t ∈ ts, t.kind = .identifier → IsIdentifier t.text) →
      ∀ x ∈ TypeExpr.namesAll as, IsIdentifier x.name) ?plain ?applied ?last ?cons ts a h
  case plain =>
    intro t ht hts x hx
    obtain rfl := List.mem_singleton.mp hx
    exact hts t List.mem_cons_self ht
  case applied =>
    intro t l ts as r ht _ _ _ ih hts
    refine List.forall_mem_cons.mpr ⟨hts t List.mem_cons_self ht, ih fun u hu => hts u ?_⟩
    simp [hu]
  case last =>
    intro ts a _ ih hts x hx
    rw [TypeExpr.namesAll, TypeExpr.namesAll, List.append_nil] at hx
    exact ih hts x hx
  case cons =>
    intro ts us a as c _ _ _ ih ihs hts x hx
    rcases List.mem_append.mp hx with hx | hx
    · exact ih (fun t ht => hts t (by simp [ht])) x hx
    · exact ihs (fun t ht => hts t (by simp [ht])) x hx

theorem Grammar.Payload.among {ts : List Token} {α : Type} {item : List Token → α → Prop} {as : List α} {a : α}
    (h : Payload item ts as) (ha : a ∈ as) : Among ts fun us => item us a := by
  cases h with
  | absent => cases ha
  | present _ hs _ => exact ((hs.among ha).cons _).append_right _

section Statements

variable {ts : List Token} {s : Stmt} (hts : ∀ t ∈ ts, t.kind = .identifier → IsIdentifier t.text)

include hts

theorem Expr.Occupies.spellable {e : Expr} (h : e.Occupies .or ts) : ∀ d ∈ e.parts, d.IsSpellable := by
  intro d hd
  obtain ⟨us, hus, hoc⟩ := h.part hd
  exact (Expr.isSpellable_bare d).mp (hoc.grammar.spellable fun t ht => hts t (hus.subset ht))

theorem Grammar.Annotation.names {marks : List TokenKind} {o : Option TypeExpr} (h : Annotation marks ts o) :
    ∀ a ∈ o.toList, ∀ x ∈ a.names, IsIdentifier x.name := by
  cases h with
  | absent => exact List.forall_mem_nil _
  | present _ h => exact List.forall_mem_singleton.mpr (h.names fun t ht => hts t (List.mem_cons_of_mem _ ht))

theorem Grammar.IsSimple.spelled (h : IsSimple ts s) : Spelled s.ownNames s.annotations := by
  cases h with
  | @letVar k x us q _ a _ _ hx ha =>
    exact ⟨List.forall_mem_singleton.mpr (hts x (by simp) hx), ha.names fun t ht => hts t (by simp [ht])⟩
  | ret | retValue | expr | assign => exact ⟨List.forall_mem_nil _, List.forall_mem_nil _⟩

theorem Grammar.Sequence.spelled {bs : List Binding} (h : Sequence IsBinding ts bs) :
    Spelled (bs.map Binding.name) (bs.map Binding.type) := by
  have hall (b : Binding) (hb : b ∈ bs) :
      IsIdentifier b.name.name ∧ ∀ x ∈ b.type.names, IsIdentifier x.name := by
    obtain ⟨vs, hvs, hb⟩ := h.among hb
    cases hb with
    | @mk x _ _ _ hx _ ht =>
      exact ⟨hts x (hvs.subset List.mem_cons_self) hx, ht.names fun t ht => hts t (hvs.subset (by simp [ht]))⟩
  exact ⟨List.forall_mem_map.mpr fun b hb => (hall b hb).1, List.forall_mem_map.mpr fun b hb => (hall b hb).2⟩

theorem Grammar.IsEnumCase.spelled {c : EnumCase} (h : IsEnumCase ts c) : Spelled [c.name] c.params := by
  cases h with
  | @mk x us _ hx hp =>
    refine ⟨List.forall_mem_singleton.mpr (hts x List.mem_cons_self hx), fun a ha => ?_⟩
    obtain ⟨vs, hvs, ha⟩ := hp.among ha
    exact ha.names fun t ht => hts t (List.mem_cons_of_mem _ (hvs.subset ht))

theorem Grammar.IsPattern.names {p : Pattern} (h : IsPattern ts p) :
    ∀ x ∈ p.name :: p.bindings, IsIdentifier x.name := by
  cases h with
  | @mk x us _ hx hnames =>
    refine List.forall_mem_cons.mpr ⟨hts x List.mem_cons_self hx, fun y hy => ?_⟩
    obtain ⟨vs, hvs, hname⟩ := hnames.among hy
    cases hname with
    | @mk t ht => exact hts t (List.mem_cons_of_mem _ (hvs.subset List.mem_cons_self)) ht

theorem Grammar.IsArms.names {as : List Arm} {o : Option Block} (h : IsArms ts as o) :
    ∀ a ∈ as, ∀ x ∈ a.pattern.name :: a.pattern.bindings, IsIdentifier x.name := by
  induction as generalizing ts with
  | nil => exact nofun
  | cons a as ih =>
    cases h with
    | @case k us vs ws _ _ _ _ _ hp _ ha =>
      refine List.forall_mem_cons.mpr ⟨hp.names fun t ht => hts t ?_, ih (fun t ht => hts t ?_) ha⟩
      · simp [ht]
      · simp [ht]

theorem Grammar.IsCompound.spelled (h : IsCompound ts s) : Spelled s.ownNames s.annotations := by
  cases h with
  | forEach _ hx =>
    refine ⟨?_, List.forall_mem_nil _⟩
    cases hx with
    | @item x hx => exact List.forall_mem_singleton.mpr (hts x (by simp) hx)
    | @indexed i c x hi _ hx =>
      have hitem : IsIdentifier x.text := hts x (by simp) hx
      exact List.forall_mem_cons.mpr ⟨hts i (by simp) hi, List.forall_mem_singleton.mpr hitem⟩
  | @matchOn _ us l vs r _ as _ _ _ _ ha =>
    refine ⟨fun y hy => ?_, List.forall_mem_nil _⟩
    obtain ⟨a, hmem, hy⟩ := List.mem_flatMap.mp hy
    exact ha.names (fun t ht => hts t (by simp [ht])) a hmem y hy
  | @struct _ x _ us _ _ _ hx _ hf =>
    obtain ⟨hnames, htypes⟩ := hf.spelled fun t ht => hts t (by simp [ht])
    exact ⟨List.forall_mem_cons.mpr ⟨hts x (by simp) hx, hnames⟩, htypes⟩
  | @enum _ x _ us _ cs _ hx _ hc =>
    have hall (c : EnumCase) (hmem : c ∈ cs) : Spelled [c.name] c.params := by
      obtain ⟨vs, hvs, hcase⟩ := hc.among hmem
      exact hcase.spelled fun t ht => hts t (by simp [hvs.subset ht])
    refine ⟨List.forall_mem_cons.mpr ⟨hts x (by simp) hx, List.forall_mem_map.mpr fun c hc =>
      (hall c hc).1 _ List.mem_cons_self⟩, fun a ha => ?_⟩
    obtain ⟨c, hc, ha⟩ := List.mem_flatMap.mp ha
    exact (hall c hc).2 a ha
  | ifElse | whileLoop => exact ⟨List.forall_mem_nil _, List.forall_mem_nil _⟩

theorem Grammar.IsFunction.spelled {f : FunctionDecl} (h : IsFunction ts f) : Spelled f.ownNames f.annotations := by
  cases h with
  | @mk k x l us r vs _ params result _ _ hx _ hp _ ha =>
    obtain ⟨hnames, htypes⟩ := hp.spelled fun t ht => hts t (by simp [ht])
    exact ⟨List.forall_mem_cons.mpr ⟨hts x (by simp) hx, hnames⟩,
      List.forall_mem_append.mpr ⟨htypes, ha.names fun t ht => hts t (by simp [ht])⟩⟩

theorem Stmt.Occupies.spellable (h : s.Occupies ts) : s.IsSpellable := by
  constructor
  · apply Spelled.of_bare
    rw [← ownNames_bare, ← annotations_bare]
    exact h.grammar.elim (fun hg => hg.spelled hts) fun hg => hg.spelled hts
  · exact h.single
  · intro e he
    obtain ⟨us, hus, hoc⟩ := h.expr he
    exact hoc.spellable fun t ht => hts t (hus.subset ht)
  · rw [← Stmt.hasClause_bare]
    exact h.grammar.elim Grammar.IsSimple.hasClause Grammar.IsCompound.hasClause

theorem Item.Occupies.spellable {i : Item} (h : i.Occupies ts) : i.IsSpellable := by
  have hstmts : ∀ s ∈ i.stmts, s.IsSpellable := by
    intro s hs
    obtain ⟨us, hus, hoc⟩ := h.stmts hs
    exact hoc.spellable fun t ht => hts t (hus.subset ht)
  cases i with
  | function _ f =>
    refine ⟨.of_bare ?_, hstmts⟩
    rw [← FunctionDecl.ownNames_bare, ← FunctionDecl.annotations_bare]
    exact h.1.spelled hts
  | stmt s => exact List.forall_mem_cons.mp hstmts

end Statements

end Gondola
