import Gondola.Program.Outline
import Gondola.Proofs.Layout.Blocks

/-! Outlines as trees, which can be told from the text as long as no line is blank, broken or indented but by its depth.
-/
namespace Gondola

open Text

namespace Outline

/-- A line with what stands below it. -/
inductive Tree where
  | node (text : String) (below : List Tree)

def Tree.text : Tree → String
  | .node text _ => text

mutual
def Tree.lines : Tree → List Line
  | .node text below => .at0 text :: indented (linesOf below)
def linesOf : List Tree → List Line
  | [] => []
  | t :: ts => t.lines ++ linesOf ts
end

theorem linesOf_eq (ts : List Tree) : linesOf ts = ts.flatMap Tree.lines := by
  induction ts with
  | nil => rfl
  | cons t ts ih => rw [linesOf, ih, List.flatMap_cons]

/-- Nothing, or lines of which the first one is not indented. -/
def Flush (ls : List Line) : Prop := ∀ l ∈ ls.head?, l.depth = 0

theorem flush_linesOf (ts : List Tree) : Flush (linesOf ts) := by
  rcases ts with _ | ⟨⟨text, below⟩, ts⟩
  · exact nofun
  · rintro l ⟨⟩
    rfl

theorem indented_append_inj {xs ys ls ms : List Line} (hls : Flush ls) (hms : Flush ms)
    (h : indented xs ++ ls = indented ys ++ ms) : xs = ys ∧ ls = ms := by
  induction xs generalizing ys with
  | nil =>
    cases ys with
    | nil => exact ⟨rfl, h⟩
    | cons y ys =>
      subst h
      exact absurd (hls _ rfl) (Nat.succ_ne_zero _)
  | cons x xs ih =>
    cases ys with
    | nil =>
      subst h
      exact absurd (hms _ rfl) (Nat.succ_ne_zero _)
    | cons y ys =>
      obtain ⟨hline, hrest⟩ := List.cons.inj h
      obtain ⟨rfl, rfl⟩ := ih hrest
      obtain ⟨d, t⟩ := x
      obtain ⟨d', t'⟩ := y
      obtain ⟨hdepth, rfl⟩ := Line.mk.inj hline
      obtain rfl := Nat.succ.inj hdepth
      exact ⟨rfl, rfl⟩

mutual
theorem Tree.lines_append_inj : ∀ (t u : Tree) {ls ms : List Line}, Flush ls → Flush ms →
    t.lines ++ ls = u.lines ++ ms → t = u ∧ ls = ms
  | .node a ts, .node b us, ls, ms, hls, hms, h => by
    obtain ⟨hline, hrest⟩ := List.cons.inj h
    obtain ⟨hbelow, rfl⟩ := indented_append_inj hls hms hrest
    rw [show a = b from congrArg Line.text hline, linesOf_inj ts us hbelow]
    exact ⟨rfl, rfl⟩
theorem linesOf_inj : ∀ ts us : List Tree, linesOf ts = linesOf us → ts = us
  | [], [], _ => rfl
  | [], .node .. :: _, h | .node .. :: _, [], h => by cases h
  | t :: ts, u :: us, h => by
    obtain ⟨rfl, hrest⟩ := t.lines_append_inj u (flush_linesOf ts) (flush_linesOf us) h
    rw [linesOf_inj ts us hrest]
end

/-- A tree is legible if its lines are neither blank nor broken nor indented but by their depth. -/
def Tree.Legible (t : Tree) : Prop := ∀ l ∈ t.lines, IsCode l.text

theorem Tree.Legible.node {a : String} {ts : List Tree} (ha : IsCode a) (h : ∀ t ∈ ts, t.Legible) :
    (Tree.node a ts).Legible := by
  refine List.forall_mem_cons.mpr ⟨ha, List.forall_mem_map.mpr fun l hl => ?_⟩
  rw [linesOf_eq] at hl
  obtain ⟨t, ht, hl⟩ := List.mem_flatMap.mp hl
  exact h t ht l hl

theorem map_eq_of_map_eq {α β γ : Type} {f : α → β} {g : α → γ} {xs ys : List α}
    (hfg : ∀ x ∈ xs, ∀ y ∈ ys, f x = f y → g x = g y) (h : xs.map f = ys.map f) : xs.map g = ys.map g := by
  induction xs generalizing ys with
  | nil => rw [List.map_eq_nil_iff.mp h.symm]
  | cons x xs ih =>
    cases ys with
    | nil => cases h
    | cons y ys =>
      obtain ⟨hx, hxs⟩ := List.cons.inj h
      rw [List.map_cons, List.map_cons, hfg x List.mem_cons_self y List.mem_cons_self hx,
        ih (fun x hx y hy => hfg x (List.mem_cons_of_mem _ hx) y (List.mem_cons_of_mem _ hy)) hxs]

theorem renderLines_inj {ts us : List Tree} (hts : ∀ t ∈ ts, t.Legible) (hus : ∀ u ∈ us, u.Legible)
    (h : renderLines width (linesOf ts) = renderLines width (linesOf us)) : ts = us := by
  have hcode {ts : List Tree} (hts : ∀ t ∈ ts, t.Legible) : ∀ l ∈ linesOf ts, IsCode l.text := by
    rw [linesOf_eq]
    intro l hl
    obtain ⟨t, ht, hl⟩ := List.mem_flatMap.mp hl
    exact hts t ht l hl
  have hlines := congrArg (fun s : String => s.toList.splitOn '\n') h
  rw [splitOn_renderLines fun l hl => (hcode hts l hl).1, splitOn_renderLines fun l hl => (hcode hus l hl).1] at hlines
  have hsame : ∀ l ∈ linesOf ts, ∀ m ∈ linesOf us, l.chars width = m.chars width → l = m := by
    intro l hl m hm h
    have htidy := Line.tidy_of_isCode (hcode hts l hl) l.depth
    have htidy' := Line.tidy_of_isCode (hcode hus m hm) m.depth
    have hdepth := htidy.indentation_chars (hcode hts l hl).ne_empty width
    have htext := htidy.dropWhile_chars width
    rw [h, htidy'.indentation_chars (hcode hus m hm).ne_empty width] at hdepth
    rw [h, htidy'.dropWhile_chars width] at htext
    obtain ⟨d, t⟩ := l
    obtain ⟨d', t'⟩ := m
    obtain rfl : t' = t := String.toList_inj.mp htext
    obtain rfl : d' = d := Nat.eq_of_mul_eq_mul_left (by decide) hdepth
    rfl
  have hmap := map_eq_of_map_eq hsame (List.append_cancel_right hlines)
  rw [List.map_id', List.map_id'] at hmap
  exact linesOf_inj ts us hmap

def titled (a : String) (s : Span) (below : List Tree) : Tree := .node (a ++ (" (" ++ s.range ++ ")")) below

/-! The trees of a program. -/

mutual
def ofExpr : Expr → Tree
  | .int n v => titled ("int " ++ toString v) n.span []
  | .string n t => titled ("string " ++ Text.quoted t) n.span []
  | .bool n v => titled ("bool " ++ (if v then "true" else "false")) n.span []
  | .symbol n x => titled ("symbol " ++ x.name) n.span []
  | .binary n op l r => titled ("infix " ++ op.name) n.span [ofExpr l, ofExpr r]
  | .unary n op e => titled ("prefix " ++ op.name) n.span [ofExpr e]
  | .call n c as => titled "call" n.span (ofExpr c :: ofArguments as)
  | .list n es => titled "list" n.span (ofItems es)
  | .map n es => titled "map" n.span (ofEntries es)
  | .index n b i => titled "index" n.span [ofExpr b, ofExpr i]
  | .field n b x => titled ("field " ++ x.name) n.span [ofExpr b]
def ofArguments : List Argument → List Tree
  | [] => []
  | ⟨none, e⟩ :: as => ofExpr e :: ofArguments as
  | ⟨some x, e⟩ :: as => .node ("keyword " ++ x.name) [ofExpr e] :: ofArguments as
def ofItems : List Expr → List Tree
  | [] => []
  | e :: es => ofExpr e :: ofItems es
def ofEntries : List (Expr × Expr) → List Tree
  | [] => []
  | (k, v) :: es => .node "entry" [ofExpr k, ofExpr v] :: ofEntries es
end

mutual
def ofStmt : Stmt → Tree
  | .letVar s x t e => titled ("let " ++ x.name ++ typeSuffix t) s [ofExpr e]
  | .assign s t e => titled "assign" s [ofExpr t, ofExpr e]
  | .ret s e => titled "return" s (e.toList.map ofExpr)
  | .expr _ e => ofExpr e
  | .ifElse s cs o => titled "if" s (ofClauses cs ++ ofOtherwise "else" o)
  | .whileLoop s c b => titled "while" s (ofExpr c :: ofBlock b)
  | .forEach s vs e b => titled ("for " ++ commaSeparated (vs.names.map Ident.name)) s (ofExpr e :: ofBlock b)
  | .matchOn s e as o => titled "match" s (ofExpr e :: (ofArms as ++ ofOtherwise "default" o))
  | .struct s d => titled ("struct " ++ d.name.name) s (d.fields.map fun b => .node (bindingText b) [])
  | .enum s d => titled ("enum " ++ d.name.name) s
      (d.cases.map fun c => .node (c.name.name ++ payload (c.params.map TypeExpr.text)) [])
def ofClauses : List Clause → List Tree
  | [] => []
  | ⟨c, b⟩ :: cs => .node "cond" [ofExpr c] :: .node "then" (ofBlock b) :: ofClauses cs
def ofArms : List Arm → List Tree
  | [] => []
  | ⟨p, b⟩ :: as => .node ("case " ++ p.name.name ++ payload (p.bindings.map Ident.name)) (ofBlock b) :: ofArms as
def ofOtherwise (word : String) : Option Block → List Tree
  | none => []
  | some b => [.node word (ofBlock b)]
def ofBlock : Block → List Tree
  | [] => []
  | s :: ss => ofStmt s :: ofBlock ss
end

def ofItem : Item → Tree
  | .function s f => titled ("fn " ++ f.name.name ++ "(" ++ commaSeparated (f.params.map bindingText) ++ ")" ++
      typeSuffix f.result) s (ofBlock f.body)
  | .stmt s => ofStmt s

section Lines

attribute [local simp] Tree.lines linesOf titled ofExpr ofArguments ofItems ofEntries expr arguments items entries place
  noTypes indented String.append_assoc

mutual
theorem lines_ofExpr : ∀ e : Expr, expr noTypes e = (ofExpr e).lines
  | .int .. | .string .. | .bool .. | .symbol .. => by simp
  | .binary _ _ l r | .index _ l r => by simp [lines_ofExpr l, lines_ofExpr r]
  | .unary _ _ e | .field _ e _ => by simp [lines_ofExpr e]
  | .call _ c as => by simp [lines_ofExpr c, lines_ofArguments as]
  | .list _ es => by simp [lines_ofItems es]
  | .map _ es => by simp [lines_ofEntries es]
theorem lines_ofArguments : ∀ as : List Argument, arguments noTypes as = linesOf (ofArguments as)
  | [] => rfl
  | ⟨none, e⟩ :: as | ⟨some _, e⟩ :: as => by simp [lines_ofExpr e, lines_ofArguments as]
theorem lines_ofItems : ∀ es : List Expr, items noTypes es = linesOf (ofItems es)
  | [] => rfl
  | e :: es => by simp [lines_ofExpr e, lines_ofItems es]
theorem lines_ofEntries : ∀ es : List (Expr × Expr), entries noTypes es = linesOf (ofEntries es)
  | [] => rfl
  | (k, v) :: es => by simp [lines_ofExpr k, lines_ofExpr v, lines_ofEntries es]
end

theorem header_eq (word : String) (s : Span) : header word s = .at0 (word ++ (" (" ++ s.range ++ ")")) := by
  simp only [header, String.append_assoc]

attribute [local simp] Tree.lines linesOf_eq titled ofStmt ofClauses ofArms ofOtherwise ofBlock stmt clauses arms otherwise
  block header_eq optional indented lines_ofExpr

mutual
theorem lines_ofStmt : ∀ s : Stmt, stmt noTypes s = (ofStmt s).lines
  | .letVar .. | .assign .. | .ret _ none | .ret _ (some _) | .expr .. => by simp
  | .ifElse _ cs o => by simp [lines_ofClauses cs, lines_ofOtherwise _ o]
  | .whileLoop _ _ b | .forEach _ _ _ b => by simp [lines_ofBlock b]
  | .matchOn _ _ as o => by simp [lines_ofArms as, lines_ofOtherwise _ o]
  | .struct .. | .enum .. => by simp [List.flatMap_map, ← List.map_eq_flatMap]
theorem lines_ofClauses : ∀ cs : List Clause, clauses noTypes cs = linesOf (ofClauses cs)
  | [] => rfl
  | ⟨_, b⟩ :: cs => by simp [lines_ofBlock b, lines_ofClauses cs]
theorem lines_ofArms : ∀ as : List Arm, arms noTypes as = linesOf (ofArms as)
  | [] => rfl
  | ⟨_, b⟩ :: as => by simp [lines_ofBlock b, lines_ofArms as]
theorem lines_ofOtherwise (word : String) : ∀ o : Option Block, otherwise noTypes word o = linesOf (ofOtherwise word o)
  | none => rfl
  | some b => by simp [lines_ofBlock b]
theorem lines_ofBlock : ∀ b : Block, block noTypes b = linesOf (ofBlock b)
  | [] => rfl
  | s :: ss => by simp [lines_ofStmt s, lines_ofBlock ss]
end

theorem lines_ofItem (i : Item) : item noTypes i = (ofItem i).lines := by
  cases i with
  | function s f => rw [item, header_eq, ofItem, titled, Tree.lines, lines_ofBlock]
  | stmt s => exact lines_ofStmt s

end Lines

end Outline

namespace Program

theorem outline_eq (p : Program) :
    p.outline noTypes = renderLines Outline.width (Outline.linesOf (p.items.map Outline.ofItem)) := by
  rw [outline, Outline.linesOf_eq, List.flatMap_map]
  congr 2
  exact funext Outline.lines_ofItem

end Program

end Gondola
