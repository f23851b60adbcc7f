import Gondola.Proofs.Grammar.First
import Gondola.Proofs.Program.Bare
import Gondola.Proofs.Program.Parts
import Mathlib.Tactic.Choose

/-! Trees on their tokens. The span of a tree goes from the first to the last of the tokens that derive it. -/
namespace Gondola

open Grammar

/-- The span goes from the first of the tokens to the last of them. -/
inductive Covers : List Token → Span → Prop
  | token (t : Token) : Covers [t] t.span
  | through {ts us s s'} (vs : List Token) (h : Covers ts s) (h' : Covers us s') :
      Covers (ts ++ vs ++ us) (s.through s')

def EndsAt (ts : List Token) (s : Span) : Prop := ∃ us t, ts = us ++ [t] ∧ s = t.span

theorem endsAt_concat (ts : List Token) (t : Token) : EndsAt (ts ++ [t]) t.span := ⟨ts, t, rfl, rfl⟩

theorem EndsAt.append {us : List Token} {s : Span} (h : EndsAt us s) (ts : List Token) :
    EndsAt (ts ++ us) s := by
  obtain ⟨vs, t, rfl, rfl⟩ := h
  exact ⟨ts ++ vs, t, (List.append_assoc ..).symm, rfl⟩

theorem EndsAt.covers {ts : List Token} {s : Span} (h : EndsAt ts s) (t : Token) :
    Covers (t :: ts) (t.span.through s) := by
  obtain ⟨us, u, rfl, rfl⟩ := h
  exact .through us (.token t) (.token u)

/-- Some of the tokens, one right after the other, have the property. -/
def Among (ts : List Token) (P : List Token → Prop) : Prop := ∃ us, us <:+: ts ∧ P us

section Among

variable {ts us : List Token} {P Q : List Token → Prop}

theorem among_self (h : P ts) : Among ts P := ⟨ts, List.infix_rfl, h⟩

theorem Among.mono (h : Among ts P) (hpq : ∀ us, P us → Q us) : Among ts Q := by
  obtain ⟨us, hus, hp⟩ := h
  exact ⟨us, hus, hpq us hp⟩

theorem Among.widen (h : Among us P) (hi : us <:+: ts) : Among ts P := by
  obtain ⟨vs, hvs, hp⟩ := h
  exact ⟨vs, hvs.trans hi, hp⟩

theorem Among.append_left (h : Among us P) (ts : List Token) : Among (ts ++ us) P :=
  h.widen (List.suffix_append ts us).isInfix

theorem Among.append_right (h : Among ts P) (us : List Token) : Among (ts ++ us) P :=
  h.widen (List.prefix_append ts us).isInfix

theorem Among.cons (h : Among ts P) (t : Token) : Among (t :: ts) P := h.append_left [t]

end Among

theorem Grammar.Sequence.among {α : Type} {item : List Token → α → Prop} {ts : List Token} {as : List α}
    {a : α} (h : Sequence item ts as) (ha : a ∈ as) : Among ts fun us => item us a := by
  induction h with
  | nil => cases ha
  | last hb =>
    obtain rfl := List.mem_singleton.mp ha
    exact among_self hb
  | cons hb _ _ ih =>
    rcases List.mem_cons.mp ha with rfl | ha
    · exact (among_self hb).append_right _
    · exact ((ih ha).cons _).append_left _

theorem Grammar.Sequence.map {α β : Type} {item : List Token → α → Prop} {item' : List Token → β → Prop}
    {f : α → β} {ts : List Token} {as : List α} (h : Sequence item ts as)
    (hf : ∀ us a, item us a → item' us (f a)) : Sequence item' ts (as.map f) := by
  induction h with
  | nil => exact .nil
  | last ha => exact .last (hf _ _ ha)
  | cons ha hc _ ih => exact .cons (hf _ _ ha) hc ih

theorem Grammar.Payload.map {α β : Type} {item : List Token → α → Prop} {item' : List Token → β → Prop}
    {f : α → β} {ts : List Token} {as : List α} (h : Payload item ts as)
    (hf : ∀ us a, item us a → item' us (f a)) : Payload item' ts (as.map f) := by
  cases h with
  | absent => exact .absent
  | present hl hs hr => exact .present hl (hs.map hf) hr

namespace Expr

theorem span_relocate (s : Span) (e : Expr) : (e.relocate s).span = s := by
  cases e <;> rfl

theorem children_relocate (s : Span) (e : Expr) : (e.relocate s).children = e.children := by
  cases e <;> rfl

/-- The expression derives from the tokens at the level and its span covers them, and each of its direct parts
stands on some of them. -/
inductive Occupies : Expr → Precedence → List Token → Prop
  | mk {e l ts} (grammar : IsExpr l ts e.bare) (covers : Covers ts e.span) (place : Expr → List Token)
      (inside : ∀ f ∈ e.children, place f <:+: ts)
      (children : ∀ f ∈ e.children, Occupies f .or (place f)) : Occupies e l ts

namespace Occupies

variable {e f : Expr} {l m : Precedence} {ts : List Token}

theorem of_children {s : Span} (grammar : IsExpr l ts e.bare) (hs : e.span = s) (covers : Covers ts s)
    (h : ∀ f ∈ e.children, Among ts (f.Occupies .or)) : e.Occupies l ts := by
  choose! place inside children using h
  exact .mk grammar (hs ▸ covers) place inside children

theorem grammar (h : e.Occupies l ts) : IsExpr l ts e.bare := by
  cases h with
  | mk hg => exact hg

theorem covers (h : e.Occupies l ts) : Covers ts e.span := by
  cases h with
  | mk _ hc => exact hc

theorem child (h : e.Occupies l ts) (hf : f ∈ e.children) : Among ts (f.Occupies .or) := by
  cases h with
  | mk _ _ place inside children => exact ⟨place f, inside f hf, children f hf⟩

theorem of_le (h : e.Occupies l ts) (hm : 0 < m.rank) (hle : m.rank ≤ l.rank) : e.Occupies m ts :=
  of_children (h.grammar.of_le hm hle) rfl h.covers fun _ => h.child

theorem loosest (h : e.Occupies l ts) (hl : 0 < l.rank) : e.Occupies .or ts :=
  h.of_le (by decide) hl

/-! One way to build a tree for each rule of the grammar. -/

section Rules

variable {n : Node} {t o r : Token} {us : List Token} {b : Expr}

theorem leaf (grammar : IsExpr .atom [t] e.bare) (hs : e.span = t.span) (hc : e.children = []) :
    e.Occupies .atom [t] := by
  refine of_children grammar hs (.token t) fun f hf => ?_
  rw [hc] at hf
  cases hf

theorem unary {op : UnaryOp} (ht : IsUnary t.kind op) (h : e.Occupies .unary ts)
    (hn : n.span = t.span.through e.span) : (Expr.unary n op e).Occupies .unary (t :: ts) := by
  refine of_children (.unary ht h.grammar) hn (.through [] (.token t) h.covers) fun f hf => ?_
  obtain rfl := List.mem_singleton.mp hf
  exact (among_self (h.loosest (by decide))).cons t

theorem binary {op : BinaryOp} (he : e.Occupies l ts) (ht : IsBinary t.kind op l m)
    (hb : b.Occupies m us) (hn : n.span = e.span.through b.span) :
    (Expr.binary n op e b).Occupies l (ts ++ t :: us) := by
  have hcovers : Covers (ts ++ t :: us) (e.span.through b.span) := by
    rw [List.append_cons]
    exact .through [t] he.covers hb.covers
  have hlevels : 0 < l.rank ∧ 0 < m.rank := by
    generalize t.kind = k at ht
    cases ht <;> decide
  refine of_children (.binary he.grammar ht hb.grammar) hn hcovers fun f hf => ?_
  simp only [Expr.children, List.mem_cons, List.not_mem_nil, or_false] at hf
  rcases hf with rfl | rfl
  · exact (among_self (he.loosest hlevels.1)).append_right _
  · exact ((among_self (hb.loosest hlevels.2)).cons t).append_left ts

theorem call {as : List Argument} (he : e.Occupies .call ts) (ho : o.kind = .mark .lparen)
    (ha : Sequence (fun vs a => IsArgument vs a.bare ∧ Among vs (a.value.Occupies .or)) us as)
    (hr : r.kind = .mark .rparen) (hn : n.span = e.span.through r.span) :
    (Expr.call n e as).Occupies .call (ts ++ o :: us ++ [r]) := by
  have hgrammar : IsExpr .call (ts ++ o :: us ++ [r]) (Expr.call n e as).bare := by
    rw [Expr.bare, bareArguments_eq_map]
    exact .call he.grammar ho (ha.map fun _ _ h => h.1) hr
  refine of_children hgrammar hn (.through (o :: us) he.covers (.token r)) fun f hf => ?_
  rcases List.mem_cons.mp hf with rfl | hf
  · exact ((among_self (he.loosest (by decide))).append_right _).append_right _
  · obtain ⟨a, hmem, rfl⟩ := List.mem_map.mp hf
    obtain ⟨vs, hvs, -, hvalue⟩ := ha.among hmem
    exact (((hvalue.widen hvs).cons o).append_left ts).append_right [r]

theorem index (he : e.Occupies .call ts) (ho : o.kind = .mark .lbracket) (hb : b.Occupies .or us)
    (hr : r.kind = .mark .rbracket) (hn : n.span = e.span.through r.span) :
    (Expr.index n e b).Occupies .call (ts ++ o :: us ++ [r]) := by
  refine of_children (.index he.grammar ho hb.grammar hr) hn
    (.through (o :: us) he.covers (.token r)) fun f hf => ?_
  simp only [Expr.children, List.mem_cons, List.not_mem_nil, or_false] at hf
  rcases hf with rfl | rfl
  · exact ((among_self (he.loosest (by decide))).append_right _).append_right _
  · exact (((among_self hb).cons o).append_left ts).append_right [r]

theorem field (he : e.Occupies .call ts) (ho : o.kind = .mark .dot) (hr : r.kind = .identifier)
    (hn : n.span = e.span.through r.span) :
    (Expr.field n e ⟨r.text, r.span⟩).Occupies .call (ts ++ [o, r]) := by
  have hcovers : Covers (ts ++ [o, r]) (e.span.through r.span) := by
    rw [List.append_cons]
    exact .through [o] he.covers (.token r)
  refine of_children (.field he.grammar ho hr) hn hcovers fun f hf => ?_
  obtain rfl := List.mem_singleton.mp hf
  exact (among_self (he.loosest (by decide))).append_right _

/-- Parentheses leave no node, but the expression in them gets their span. -/
theorem group (ho : o.kind = .mark .lparen) (h : e.Occupies .or ts) (hr : r.kind = .mark .rparen) :
    (e.relocate (o.span.through r.span)).Occupies .atom (o :: ts ++ [r]) := by
  have hcovers : Covers (o :: ts ++ [r]) (o.span.through r.span) := .through ts (.token o) (.token r)
  have hgrammar : IsExpr .atom (o :: ts ++ [r]) (e.relocate (o.span.through r.span)).bare := by
    rw [bare_relocate]
    exact .group ho h.grammar hr
  refine of_children hgrammar (span_relocate _ e) hcovers fun f hf => ?_
  rw [children_relocate] at hf
  exact ((h.child hf).cons o).append_right [r]

theorem list {es : List Expr} (ho : o.kind = .mark .lbracket)
    (h : Sequence (fun vs f => f.Occupies .or vs) ts es) (hr : r.kind = .mark .rbracket)
    (hn : n.span = o.span.through r.span) : (Expr.list n es).Occupies .atom (o :: ts ++ [r]) := by
  have hgrammar : IsExpr .atom (o :: ts ++ [r]) (Expr.list n es).bare := by
    rw [Expr.bare, bareItems_eq_map]
    exact .list ho (h.map fun _ _ hf => hf.grammar) hr
  refine of_children hgrammar hn (.through ts (.token o) (.token r)) fun f hf => ?_
  exact ((h.among hf).cons o).append_right [r]

theorem map {es : List (Expr × Expr)} (ho : o.kind = .mark .lbrace)
    (h : Sequence (fun vs f => IsEntry vs (Prod.map bare bare f) ∧ Among vs (f.1.Occupies .or) ∧
      Among vs (f.2.Occupies .or)) ts es) (hr : r.kind = .mark .rbrace)
    (hn : n.span = o.span.through r.span) : (Expr.map n es).Occupies .atom (o :: ts ++ [r]) := by
  have hgrammar : IsExpr .atom (o :: ts ++ [r]) (Expr.map n es).bare := by
    rw [Expr.bare, bareEntries_eq_map]
    exact .map ho (h.map fun _ _ hf => hf.1) hr
  refine of_children hgrammar hn (.through ts (.token o) (.token r)) fun f hf => ?_
  obtain ⟨kv, hmem, hf⟩ := List.mem_flatMap.mp hf
  obtain ⟨vs, hvs, -, hk, hv⟩ := h.among hmem
  simp only [List.mem_cons, List.not_mem_nil, or_false] at hf
  rcases hf with rfl | rfl
  · exact ((hk.widen hvs).cons o).append_right [r]
  · exact ((hv.widen hvs).cons o).append_right [r]

end Rules

theorem part (h : e.Occupies .or ts) (hf : f ∈ e.parts) : Among ts (f.Occupies .or) := by
  generalize hl : Precedence.or = l at h
  induction h with
  | @mk e l ts grammar covers place inside children ih =>
    subst hl
    rcases mem_parts_iff.mp hf with rfl | ⟨g, hg, hf⟩
    · exact among_self (.mk grammar covers place inside children)
    · exact (ih g hg hf rfl).widen (inside g hg)

end Occupies

end Expr

namespace Stmt

def children : Stmt → List Stmt
  | .ifElse _ cs o => cs.flatMap Clause.body ++ o.getD []
  | .whileLoop _ _ b | .forEach _ _ _ b => b
  | .matchOn _ _ as o => as.flatMap Arm.body ++ o.getD []
  | .letVar .. | .assign .. | .ret .. | .expr .. | .struct .. | .enum .. => []

theorem mem_blockStmts {s : Stmt} {b : Block} :
    s ∈ blockStmts b ↔ ∃ c ∈ b, s = c ∨ s ∈ c.nested := by
  induction b with
  | nil => simp [blockStmts]
  | cons c b ih => simp [blockStmts, ih, or_assoc]

theorem blockStmts_append (a b : Block) : blockStmts (a ++ b) = blockStmts a ++ blockStmts b := by
  induction a with
  | nil => rfl
  | cons s a ih => simp only [List.cons_append, blockStmts, ih, List.append_assoc]

theorem clauseStmts_eq (cs : List Clause) : clauseStmts cs = blockStmts (cs.flatMap Clause.body) := by
  induction cs with
  | nil => rfl
  | cons c cs ih =>
    obtain ⟨cond, body⟩ := c
    rw [clauseStmts, List.flatMap_cons, blockStmts_append, ih]

theorem armStmts_eq (as : List Arm) : armStmts as = blockStmts (as.flatMap Arm.body) := by
  induction as with
  | nil => rfl
  | cons a as ih =>
    obtain ⟨pattern, body⟩ := a
    rw [armStmts, List.flatMap_cons, blockStmts_append, ih]

theorem otherwiseStmts_eq (o : Option Block) : otherwiseStmts o = blockStmts (o.getD []) := by
  cases o with
  | none => rfl
  | some b => rfl

theorem nested_eq (s : Stmt) : s.nested = blockStmts s.children := by
  cases s with
  | ifElse _ cs o => rw [nested, children, blockStmts_append, clauseStmts_eq, otherwiseStmts_eq]
  | matchOn _ _ as o => rw [nested, children, blockStmts_append, armStmts_eq, otherwiseStmts_eq]
  | whileLoop | forEach => rfl
  | letVar | assign | ret | expr | struct | enum => rfl

/-- The statement derives from the tokens and its span covers them, and the expressions and statements that
stand in it stand on some of them. An expression by itself has one span only. -/
inductive Occupies : Stmt → List Token → Prop
  | mk {s ts} (grammar : IsSimple ts s.bare ∨ IsCompound ts s.bare) (covers : Covers ts s.span)
      (single : ∀ sp e, s = .expr sp e → sp = e.span)
      (exprs : ∀ e ∈ s.exprs, Among ts (e.Occupies .or)) (place : Stmt → List Token)
      (inside : ∀ c ∈ s.children, place c <:+: ts)
      (children : ∀ c ∈ s.children, Occupies c (place c)) : Occupies s ts

/-- Each of the statements stands on some of the tokens. -/
def Holds (ts : List Token) (b : Block) : Prop := ∀ s ∈ b, Among ts s.Occupies

section Holds

variable {ts us : List Token} {a b : Block}

theorem holds_nil (ts : List Token) : Holds ts [] := List.forall_mem_nil _

theorem Holds.append (h : Holds ts a) (h' : Holds ts b) : Holds ts (a ++ b) := by
  intro s hs
  exact (List.mem_append.mp hs).elim (h s) (h' s)

theorem Holds.append_left (h : Holds us b) (ts : List Token) : Holds (ts ++ us) b :=
  fun s hs => (h s hs).append_left ts

theorem Holds.append_right (h : Holds ts b) (us : List Token) : Holds (ts ++ us) b :=
  fun s hs => (h s hs).append_right us

theorem Holds.cons (h : Holds ts b) (t : Token) : Holds (t :: ts) b := h.append_left [t]

theorem holds_cons {s : Stmt} (hs : Among ts s.Occupies) (h : Holds us b) : Holds (ts ++ us) (s :: b) := by
  intro c hc
  rcases List.mem_cons.mp hc with rfl | hc
  · exact hs.append_right us
  · exact (h c hc).append_left ts

end Holds

namespace Occupies

variable {s c : Stmt} {ts : List Token}

theorem simple {sp : Span} (grammar : IsSimple ts s.bare) (hs : s.span = sp) (covers : Covers ts sp)
    (single : ∀ sp e, s = .expr sp e → sp = e.span) (exprs : ∀ e ∈ s.exprs, Among ts (e.Occupies .or))
    (hc : s.children = []) : s.Occupies ts := by
  refine .mk (.inl grammar) (hs ▸ covers) single exprs (fun _ => []) ?_ ?_
  all_goals
    intro c hmem
    rw [hc] at hmem
    cases hmem

theorem compound {t : Token} {sp : Span} (grammar : IsCompound (t :: ts) s.bare)
    (hs : s.span = t.span.through sp) (hend : EndsAt ts sp)
    (exprs : ∀ e ∈ s.exprs, Among ts (e.Occupies .or)) (h : Holds ts s.children) :
    s.Occupies (t :: ts) := by
  choose! place inside children using h
  have single : ∀ sp e, s = .expr sp e → sp = e.span := by
    rintro _ _ rfl
    cases grammar
  refine .mk (.inr grammar) (hs ▸ hend.covers t) single (fun e he => (exprs e he).cons t) place ?_ children
  exact fun c hc => (inside c hc).trans (List.suffix_cons t ts).isInfix

theorem grammar (h : s.Occupies ts) : IsSimple ts s.bare ∨ IsCompound ts s.bare := by
  cases h with
  | mk hg => exact hg

theorem covers (h : s.Occupies ts) : Covers ts s.span := by
  cases h with
  | mk _ hc => exact hc

theorem single (h : s.Occupies ts) : ∀ sp e, s = .expr sp e → sp = e.span := by
  cases h with
  | mk _ _ hs => exact hs

theorem expr {e : Expr} (h : s.Occupies ts) (he : e ∈ s.exprs) : Among ts (e.Occupies .or) := by
  cases h with
  | mk _ _ _ exprs => exact exprs e he

theorem child (h : s.Occupies ts) (hc : c ∈ s.children) : Among ts c.Occupies := by
  cases h with
  | mk _ _ _ _ place inside children => exact ⟨place c, inside c hc, children c hc⟩

theorem nested (h : s.Occupies ts) (hc : c ∈ s.nested) : Among ts c.Occupies := by
  induction h with
  | @mk s ts _ _ _ _ place inside children ih =>
    rw [nested_eq] at hc
    obtain ⟨d, hd, rfl | hc⟩ := mem_blockStmts.mp hc
    · exact ⟨place c, inside c hd, children c hd⟩
    · exact (ih d hd hc).widen (inside d hd)

end Occupies

end Stmt

def Item.Occupies : Item → List Token → Prop
  | .function s f, ts => IsFunction ts f.bare ∧ Covers ts s ∧ Stmt.Holds ts f.body
  | .stmt s, ts => s.Occupies ts

theorem Item.Occupies.stmts {i : Item} {ts : List Token} {s : Stmt} (h : i.Occupies ts) (hs : s ∈ i.stmts) :
    Among ts s.Occupies := by
  cases i with
  | function sp f =>
    obtain ⟨c, hc, hs⟩ := Stmt.mem_blockStmts.mp hs
    obtain ⟨us, hus, hoc⟩ := h.2.2 c hc
    rcases hs with rfl | hs
    · exact ⟨us, hus, hoc⟩
    · exact (hoc.nested hs).widen hus
  | stmt c =>
    rcases List.mem_cons.mp hs with rfl | hs
    · exact among_self h
    · exact Stmt.Occupies.nested h hs

section Program

variable {p : Program} {ts : List Token}

theorem Program.stmt_occupies {s : Stmt} (h : ∀ i ∈ p.items, Among ts i.Occupies) (hs : s ∈ p.stmts) :
    Among ts s.Occupies := by
  obtain ⟨i, hi, hs⟩ := List.mem_flatMap.mp hs
  obtain ⟨us, hus, hoc⟩ := h i hi
  exact (hoc.stmts hs).widen hus

theorem Program.part_occupies {e : Expr} (h : ∀ i ∈ p.items, Among ts i.Occupies) (he : e ∈ p.parts) :
    Among ts (e.Occupies .or) := by
  obtain ⟨s, hs, f, hf, he⟩ := Program.mem_parts.mp he
  obtain ⟨us, hus, hstmt⟩ := Program.stmt_occupies h hs
  obtain ⟨vs, hvs, hexpr⟩ := hstmt.expr hf
  exact (hexpr.part he).widen (hvs.trans hus)

end Program

end Gondola
