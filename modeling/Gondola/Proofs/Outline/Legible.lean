import Gondola.Proofs.Grammar.Leaves
import Gondola.Proofs.Outline.Trees
import Gondola.Proofs.Text.Quoted

/-! The outlines of programs that can be read are legible. -/
namespace Gondola

open Text

/-! What can be read of the parts of a statement. -/

theorem spelled_of_mem {bs : List Binding} {b : Binding} (hb : b ∈ bs)
    (h : Spelled (bs.map Binding.name) (bs.map Binding.type)) : Spelled [b.name] [b.type] :=
  ⟨List.forall_mem_singleton.mpr (h.1 _ (List.mem_map_of_mem hb)),
    List.forall_mem_singleton.mpr (h.2 _ (List.mem_map_of_mem hb))⟩

theorem spelled_field {s : Span} {d : StructDecl} (h : (Stmt.struct s d).IsSpellable) {b : Binding} (hb : b ∈ d.fields) :
    Spelled [b.name] [b.type] :=
  spelled_of_mem hb ⟨(List.forall_mem_cons.mp h.names).2, h.spelled.2⟩

theorem spelled_case {s : Span} {d : EnumDecl} (h : (Stmt.enum s d).IsSpellable) {c : EnumCase} (hc : c ∈ d.cases) :
    Spelled [c.name] c.params :=
  ⟨List.forall_mem_singleton.mpr (h.names _ (List.mem_cons_of_mem _ (List.mem_map_of_mem hc))),
    fun a ha => h.spelled.2 a (List.mem_flatMap.mpr ⟨c, hc, ha⟩)⟩

theorem spelled_param {f : FunctionDecl} (h : Spelled f.ownNames f.annotations) :
    ∀ b ∈ f.params, Spelled [b.name] [b.type] := fun _ hb =>
  spelled_of_mem hb ⟨(List.forall_mem_cons.mp h.1).2, (List.forall_mem_append.mp h.2).1⟩

theorem forall_blockStmts_cons {P : Stmt → Prop} {s : Stmt} {ss : Block} : (∀ t ∈ Stmt.blockStmts (s :: ss), P t) ↔
    (∀ t ∈ s :: s.nested, P t) ∧ ∀ t ∈ Stmt.blockStmts ss, P t :=
  @List.forall_mem_append _ _ (s :: s.nested) _

namespace Outline

/-- A text of names and of the marks that stand between names in types. -/
def Plain (s : String) : Prop := ∀ c ∈ s.toList, continuesName c = true ∨ c ∈ [' ', ',', ':', '<', '>']

theorem Plain.append {s t : String} (hs : Plain s) (ht : Plain t) : Plain (s ++ t) := by
  intro c hc
  rw [String.toList_append] at hc
  exact (List.mem_append.mp hc).elim (hs c) (ht c)

theorem Plain.ne {s : String} (h : Plain s) {d : Char} (hd : continuesName d = false)
    (hmark : d ∉ [' ', ',', ':', '<', '>']) : d ∉ s.toList := by
  intro hmem
  rcases h d hmem with hname | hm
  · rw [hd] at hname
    cases hname
  · exact hmark hm

theorem Plain.oneLine {s : String} (h : Plain s) : OneLine s := by
  intro c hc
  constructor
  · rintro rfl
    exact h.ne (by decide) (by decide) hc
  · rintro rfl
    exact h.ne (by decide) (by decide) hc

theorem plain_name {x : String} (h : IsIdentifier x) : Plain x := fun c hc => .inl (h.continuesName c hc)

mutual
theorem plain_text : ∀ a : TypeExpr, (∀ x ∈ a.names, IsIdentifier x.name) → Plain a.text
  | .mk x [] _, h => plain_name (h x List.mem_cons_self)
  | .mk x (a :: as) _, h => by
    obtain ⟨hx, has⟩ := List.forall_mem_cons.mp h
    obtain ⟨ha, has⟩ := List.forall_mem_append.mp has
    have hmark : Plain "<" ∧ Plain ">" := by simp [Plain]
    exact ((((plain_name hx).append hmark.1).append (plain_text a ha)).append (plain_textRest as has)).append hmark.2
theorem plain_textRest : ∀ as : List TypeExpr, (∀ x ∈ TypeExpr.namesAll as, IsIdentifier x.name) →
    Plain (TypeExpr.textRest as)
  | [], _ => nofun
  | a :: as, h => by
    obtain ⟨ha, has⟩ := List.forall_mem_append.mp h
    have hmark : Plain ", " := by simp [Plain]
    exact (hmark.append (plain_text a ha)).append (plain_textRest as has)
end

theorem plain_bindingText {b : Binding} (h : Spelled [b.name] [b.type]) : Plain (bindingText b) := by
  have hmark : Plain ": " := by simp [Plain]
  exact ((plain_name (h.1 _ List.mem_cons_self)).append hmark).append (plain_text _ (h.2 _ List.mem_cons_self))

theorem plain_commaSeparated {texts : List String} (h : ∀ t ∈ texts, Plain t) : Plain (commaSeparated texts) := by
  induction texts with
  | nil => exact nofun
  | cons t ts ih =>
    obtain ⟨ht, hts⟩ := List.forall_mem_cons.mp h
    cases ts with
    | nil => exact ht
    | cons u us =>
      have hmark : Plain ", " := by simp [Plain]
      rw [commaSeparated, String.intercalate_cons_cons]
      exact (ht.append hmark).append (ih hts)

theorem legible_titled {a : String} {ts : List Tree} (ha : IsCode a) (h : ∀ t ∈ ts, t.Legible) (s : Span) :
    (titled a s ts).Legible := by
  have hrange : OneLine s.range :=
    oneLine_append.mpr ⟨oneLine_append.mpr ⟨(isCode_toString _).1, by decide⟩, (isCode_toString _).1⟩
  exact .node (ha.append (oneLine_append.mpr ⟨oneLine_append.mpr ⟨by decide, hrange⟩, by decide⟩)) h

mutual
theorem legible_expr : ∀ e : Expr, (∀ d ∈ e.parts, d.IsSpellable) → (ofExpr e).Legible
  | .int _ v, _ => legible_titled (.append (by decide) (isCode_toString v).1) (List.forall_mem_nil _) _
  | .string _ t, _ => legible_titled (.append (by decide) (oneLine_quoted t)) (List.forall_mem_nil _) _
  | .bool _ v, _ => legible_titled (.append (by decide) (by cases v <;> decide)) (List.forall_mem_nil _) _
  | .symbol _ x, h => legible_titled (.append (by decide) (plain_name (h _ List.mem_cons_self)).oneLine)
    (List.forall_mem_nil _) _
  | .binary _ op l r, h => by
    obtain ⟨hl, hr⟩ := List.forall_mem_append.mp (List.forall_mem_cons.mp h).2
    exact legible_titled (.append (by decide) (by cases op <;> decide)) (List.forall_mem_cons.mpr
      ⟨legible_expr l hl, List.forall_mem_singleton.mpr (legible_expr r hr)⟩) _
  | .unary _ op e, h => legible_titled (.append (by decide) (by cases op <;> decide))
    (List.forall_mem_singleton.mpr (legible_expr e (List.forall_mem_cons.mp h).2)) _
  | .call _ c as, h => by
    obtain ⟨hc, has⟩ := List.forall_mem_append.mp (List.forall_mem_cons.mp h).2
    exact legible_titled (by decide) (List.forall_mem_cons.mpr
      ⟨legible_expr c hc, legible_arguments as has (h _ List.mem_cons_self)⟩) _
  | .list _ es, h => legible_titled (by decide) (legible_items es (List.forall_mem_cons.mp h).2) _
  | .map _ es, h => legible_titled (by decide) (legible_entries es (List.forall_mem_cons.mp h).2) _
  | .index _ b i, h => by
    obtain ⟨hb, hi⟩ := List.forall_mem_append.mp (List.forall_mem_cons.mp h).2
    exact legible_titled (by decide) (List.forall_mem_cons.mpr
      ⟨legible_expr b hb, List.forall_mem_singleton.mpr (legible_expr i hi)⟩) _
  | .field _ b x, h => legible_titled (.append (by decide) (plain_name (h _ List.mem_cons_self)).oneLine)
    (List.forall_mem_singleton.mpr (legible_expr b (List.forall_mem_cons.mp h).2)) _
theorem legible_arguments : ∀ as : List Argument, (∀ d ∈ Expr.argumentParts as, d.IsSpellable) →
    (∀ a ∈ as, ∀ x ∈ a.label, IsIdentifier x.name) → ∀ t ∈ ofArguments as, t.Legible
  | [], _, _ => List.forall_mem_nil _
  | ⟨none, e⟩ :: as, h, hx => by
    obtain ⟨he, has⟩ := List.forall_mem_append.mp h
    exact List.forall_mem_cons.mpr ⟨legible_expr e he, legible_arguments as has (List.forall_mem_cons.mp hx).2⟩
  | ⟨some x, e⟩ :: as, h, hx => by
    obtain ⟨he, has⟩ := List.forall_mem_append.mp h
    obtain ⟨hx, hxs⟩ := List.forall_mem_cons.mp hx
    exact List.forall_mem_cons.mpr ⟨.node (.append (by decide) (plain_name (hx x rfl)).oneLine)
      (List.forall_mem_singleton.mpr (legible_expr e he)), legible_arguments as has hxs⟩
theorem legible_items : ∀ es : List Expr, (∀ d ∈ Expr.itemParts es, d.IsSpellable) → ∀ t ∈ ofItems es, t.Legible
  | [], _ => List.forall_mem_nil _
  | e :: es, h => by
    obtain ⟨he, hes⟩ := List.forall_mem_append.mp h
    exact List.forall_mem_cons.mpr ⟨legible_expr e he, legible_items es hes⟩
theorem legible_entries : ∀ es : List (Expr × Expr), (∀ d ∈ Expr.entryParts es, d.IsSpellable) →
    ∀ t ∈ ofEntries es, t.Legible
  | [], _ => List.forall_mem_nil _
  | (k, v) :: es, h => by
    obtain ⟨hkv, hes⟩ := List.forall_mem_append.mp h
    obtain ⟨hk, hv⟩ := List.forall_mem_append.mp hkv
    exact List.forall_mem_cons.mpr ⟨.node (by decide) (List.forall_mem_cons.mpr
      ⟨legible_expr k hk, List.forall_mem_singleton.mpr (legible_expr v hv)⟩), legible_entries es hes⟩
end

theorem oneLine_typeSuffix {a : Option TypeExpr} (h : ∀ t ∈ a.toList, ∀ x ∈ t.names, IsIdentifier x.name) :
    OneLine (typeSuffix a) := by
  cases a with
  | none => decide
  | some a => exact oneLine_append.mpr ⟨by decide, (plain_text a (h a (by simp))).oneLine⟩

theorem oneLine_payload {texts : List String} (h : ∀ t ∈ texts, Plain t) : OneLine (payload texts) := by
  cases texts with
  | nil => decide
  | cons t ts => exact oneLine_append.mpr ⟨oneLine_append.mpr ⟨by decide, (plain_commaSeparated h).oneLine⟩, by decide⟩

mutual
theorem legible_stmt (s : Stmt) (h : ∀ t ∈ s :: s.nested, t.IsSpellable) : (ofStmt s).Legible := by
  obtain ⟨hown, hin⟩ := List.forall_mem_cons.mp h
  have hexpr {e : Expr} (he : e ∈ s.exprs) : (ofExpr e).Legible := legible_expr e (hown.exprs e he)
  have hname {x : Ident} (hx : x ∈ s.ownNames) : OneLine x.name := (plain_name (hown.names x hx)).oneLine
  cases s with
  | letVar _ x a e =>
    exact legible_titled (.append (.append (by decide) (hname List.mem_cons_self)) (oneLine_typeSuffix hown.spelled.2))
      (List.forall_mem_singleton.mpr (hexpr List.mem_cons_self)) _
  | assign _ t e =>
    exact legible_titled (by decide) (List.forall_mem_map (l := [t, e]) |>.mpr fun d hd => hexpr hd) _
  | ret _ e => exact legible_titled (by decide) (List.forall_mem_map.mpr fun d hd => hexpr hd) _
  | expr _ e => exact hexpr List.mem_cons_self
  | ifElse _ cs o =>
    obtain ⟨hcs, ho⟩ := List.forall_mem_append.mp hin
    exact legible_titled (by decide) (List.forall_mem_append.mpr
      ⟨legible_clauses cs (fun c hc => hown.exprs _ (List.mem_map_of_mem hc)) hcs, legible_otherwise (by decide) o ho⟩) _
  | whileLoop _ c b =>
    exact legible_titled (by decide) (List.forall_mem_cons.mpr ⟨hexpr List.mem_cons_self, legible_block b hin⟩) _
  | forEach _ vs e b =>
    refine legible_titled (.append (by decide) (plain_commaSeparated (List.forall_mem_map.mpr fun x hx => ?_)).oneLine)
      (List.forall_mem_cons.mpr ⟨hexpr List.mem_cons_self, legible_block b hin⟩) _
    exact plain_name (hown.names x hx)
  | matchOn _ e as o =>
    obtain ⟨has, ho⟩ := List.forall_mem_append.mp hin
    exact legible_titled (by decide) (List.forall_mem_cons.mpr ⟨hexpr List.mem_cons_self, List.forall_mem_append.mpr
      ⟨legible_arms as hown.names has, legible_otherwise (by decide) o ho⟩⟩) _
  | struct _ d =>
    refine legible_titled (.append (by decide) (hname List.mem_cons_self)) (List.forall_mem_map.mpr fun b hb => ?_) _
    obtain ⟨hx, ha⟩ := spelled_field hown hb
    exact .node (.append (.append (hx _ List.mem_cons_self).isWord.isCode (by decide))
      (plain_text _ (ha _ List.mem_cons_self)).oneLine) (List.forall_mem_nil _)
  | enum _ d =>
    refine legible_titled (.append (by decide) (hname List.mem_cons_self)) (List.forall_mem_map.mpr fun c hc => ?_) _
    obtain ⟨hx, has⟩ := spelled_case hown hc
    exact .node (.append (hx _ List.mem_cons_self).isWord.isCode (oneLine_payload (List.forall_mem_map.mpr fun a ha =>
      plain_text a (has a ha)))) (List.forall_mem_nil _)
theorem legible_clauses : ∀ cs : List Clause, (∀ c ∈ cs, ∀ d ∈ c.cond.parts, d.IsSpellable) →
    (∀ t ∈ Stmt.clauseStmts cs, t.IsSpellable) → ∀ t ∈ ofClauses cs, t.Legible
  | [], _, _ => List.forall_mem_nil _
  | ⟨c, b⟩ :: cs, hc, h => by
    obtain ⟨hc, hcs⟩ := List.forall_mem_cons.mp hc
    obtain ⟨hb, hrest⟩ := List.forall_mem_append.mp h
    exact List.forall_mem_cons.mpr ⟨.node (by decide) (List.forall_mem_singleton.mpr (legible_expr c hc)),
      List.forall_mem_cons.mpr ⟨.node (by decide) (legible_block b hb), legible_clauses cs hcs hrest⟩⟩
theorem legible_arms : ∀ as : List Arm,
    (∀ x ∈ as.flatMap fun a => a.pattern.name :: a.pattern.bindings, IsIdentifier x.name) →
    (∀ t ∈ Stmt.armStmts as, t.IsSpellable) → ∀ t ∈ ofArms as, t.Legible
  | [], _, _ => List.forall_mem_nil _
  | ⟨p, b⟩ :: as, hx, h => by
    obtain ⟨hp, hx⟩ := List.forall_mem_append.mp hx
    obtain ⟨hp, hxs⟩ := List.forall_mem_cons.mp hp
    obtain ⟨hb, has⟩ := List.forall_mem_append.mp h
    have hbindings := oneLine_payload (List.forall_mem_map.mpr fun x hx => plain_name (hxs x hx))
    exact List.forall_mem_cons.mpr ⟨.node (.append (.append (by decide) (plain_name hp).oneLine) hbindings)
      (legible_block b hb), legible_arms as hx has⟩
theorem legible_otherwise {word : String} (hw : IsCode word) : ∀ o : Option Block,
    (∀ t ∈ Stmt.otherwiseStmts o, t.IsSpellable) → ∀ t ∈ ofOtherwise word o, t.Legible
  | none, _ => List.forall_mem_nil _
  | some b, h => List.forall_mem_singleton.mpr (.node hw (legible_block b h))
theorem legible_block : ∀ b : Block, (∀ t ∈ Stmt.blockStmts b, t.IsSpellable) → ∀ t ∈ ofBlock b, t.Legible
  | [], _ => List.forall_mem_nil _
  | s :: ss, h => by
    obtain ⟨hs, hss⟩ := forall_blockStmts_cons.mp h
    exact List.forall_mem_cons.mpr ⟨legible_stmt s hs, legible_block ss hss⟩
end

theorem legible_item {i : Item} (h : i.IsSpellable) : (ofItem i).Legible := by
  cases i with
  | stmt s => exact legible_stmt s (List.forall_mem_cons.mpr h)
  | function sp f =>
    have hparams : Plain (commaSeparated (f.params.map bindingText)) :=
      plain_commaSeparated (List.forall_mem_map.mpr fun b hb => plain_bindingText (spelled_param h.1 b hb))
    have hname : Plain f.name.name := plain_name (h.1.1 _ List.mem_cons_self)
    have hstart : IsCode ("fn " ++ f.name.name ++ "(" ++ commaSeparated (f.params.map bindingText) ++ ")") :=
      .append (.append (.append (.append (by decide) hname.oneLine) (by decide)) hparams.oneLine) (by decide)
    exact legible_titled (hstart.append (oneLine_typeSuffix (List.forall_mem_append.mp h.1.2).2))
      (legible_block f.body h.2) _

end Outline

end Gondola
