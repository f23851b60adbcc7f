import Gondola.Proofs.Code.NativeSlots
import Gondola.Proofs.Names.Distinct

/-! The variables of C programs. Wherever a statement is written, each name in scope is spelled like a variable that is
declared around it, or like something that is visible in the whole file. -/
namespace Gondola

def Stmt.isLet : Stmt → Bool
  | .letVar .. => true
  | _ => false

mutual
/-- The statements inside of a statement that are written in C. What stands in a match is not. -/
def Stmt.written : Stmt → List Stmt
  | .ifElse _ cs o => Stmt.clauseWritten cs ++ Stmt.otherwiseWritten o
  | .whileLoop _ _ b => Stmt.blockWritten b
  | .forEach _ _ _ b => Stmt.blockWritten b
  | _ => []
def Stmt.clauseWritten : List Clause → List Stmt
  | [] => []
  | ⟨_, b⟩ :: cs => Stmt.blockWritten b ++ Stmt.clauseWritten cs
def Stmt.otherwiseWritten : Option (List Stmt) → List Stmt
  | none => []
  | some b => Stmt.blockWritten b
def Stmt.blockWritten : List Stmt → List Stmt
  | [] => []
  | s :: ss => s :: (s.written ++ Stmt.blockWritten ss)
end

namespace Native

open Typing

/-! What writing does to the scopes of names. -/
section Scopes

variable {α β : Type} {T : TypeTable} {r : Ty} {n n' n'' : Names} {new new' : List (String × Spelling)}

/-- The innermost scope has new bindings, and all others are as they were. -/
structure Grown (n n' : Names) (new : List (String × Spelling)) : Prop where
  space : n'.space = n.space
  scopes : ∀ top rest, n.scopes = top :: rest → n'.scopes = (new ++ top) :: rest

theorem Grown.trans (h : Grown n n' new) (h' : Grown n' n'' new') : Grown n n'' (new' ++ new) where
  space := h'.space.trans h.space
  scopes top rest hn := by
    rw [List.append_assoc]
    exact h'.scopes _ rest (h.scopes top rest hn)

theorem Grown.entries (h : Grown n n' new) (hn : n.scopes ≠ []) : n'.entries = new ++ n.entries := by
  obtain ⟨top, rest, hn⟩ := List.exists_cons_of_ne_nil hn
  rw [Names.entries, Names.entries, h.scopes top rest hn, hn, List.flatten_cons, List.flatten_cons, List.append_assoc]

theorem Grown.scopes_ne (h : Grown n n' new) (hn : n.scopes ≠ []) : n'.scopes ≠ [] := by
  obtain ⟨top, rest, hn⟩ := List.exists_cons_of_ne_nil hn
  rw [h.scopes top rest hn]
  exact List.cons_ne_nil _ _

theorem grown_declare (n : Names) (x : Ident) :
    ∃ s, s.origin = x ∧ s.text = (n.declare x).1 ∧ Grown n (n.declare x).2 [(x.name, s)] := by
  unfold Names.declare
  split
  · refine ⟨⟨(n.temp x.name).1, !n.inFunction, x⟩, rfl, rfl, Names.space_insert .., fun top rest hn => ?_⟩
    have ht : (n.temp x.name).2.scopes = top :: rest := hn
    exact Names.insert_scopes ht x _
  · exact ⟨_, rfl, rfl, Names.space_insert .., fun top rest hn => Names.insert_scopes hn x _⟩

theorem grown_param (n : Names) (x : Ident) :
    ∃ s, s.origin = x ∧ s.text = n.space.ident x.name ∧ Grown n (n.param x).2 [(x.name, s)] :=
  ⟨_, rfl, rfl, Names.space_insert .., fun _ _ hn => Names.insert_scopes hn x _⟩

theorem grown_temp (n : Names) (stem : String) : Grown n (n.temp stem).2 [] := ⟨rfl, fun _ _ hn => hn⟩

theorem space_leave (n : Names) : n.leave.space = n.space := by
  unfold Names.leave
  split <;> rfl

theorem Grown.leave (h : Grown n.enter n' new) : Grown n n'.leave [] where
  space := (space_leave n').trans h.space
  scopes top rest hn := by
    have hin : n.enter.scopes = [] :: top :: rest := by rw [Names.enter, hn]
    exact Names.leave_scopes (h.scopes [] (top :: rest) hin)

def Grows (m : Emit α) : Prop := ∀ w, ∃ new, Grown w.names (m w).value.2.names new

/-- Writing that leaves all scopes as they are. -/
def Restores (m : Emit α) : Prop := ∀ w, Grown w.names (m w).value.2.names []

theorem Restores.grows {m : Emit α} (h : Restores m) : Grows m := fun w => ⟨[], h w⟩

theorem Restores.bind {m : Emit α} {f : α → Emit β} (hm : Restores m) (hf : ∀ a, Restores (f a)) :
    Restores (m >>= f) :=
  fun w => (hm w).trans (hf (m w).value.1 (m w).value.2)

theorem Grows.bind {m : Emit α} {f : α → Emit β} (hm : Grows m) (hf : ∀ a, Grows (f a)) : Grows (m >>= f) := by
  intro w
  obtain ⟨new, hnew⟩ := hm w
  obtain ⟨new', hnew'⟩ := hf (m w).value.1 (m w).value.2
  exact ⟨new' ++ new, hnew.trans hnew'⟩

theorem restores_pure (a : α) : Restores (pure a : Emit α) := fun _ => ⟨rfl, fun _ _ hn => hn⟩

theorem restores_render (f : Names → Fragment Typedef α) : Restores (Emit.render f : Emit α) :=
  fun _ => ⟨rfl, fun _ _ hn => hn⟩

theorem restores_temp (stem : String) : Restores (Emit.temp stem : Emit String) := fun w => grown_temp w.names stem

theorem grows_declare (x : Ident) : Grows (Emit.declare x : Emit String) := by
  intro w
  obtain ⟨s, -, -, h⟩ := grown_declare w.names x
  exact ⟨_, h⟩

theorem grows_param (x : Ident) : Grows (Emit.param x : Emit String) := by
  intro w
  obtain ⟨s, -, -, h⟩ := grown_param w.names x
  exact ⟨_, h⟩

theorem grows_declareAll (xs : List Ident) : Grows (Emit.declareAll xs : Emit (List String)) := by
  induction xs with
  | nil => exact (restores_pure _).grows
  | cons x xs ih => exact (grows_declare x).bind fun _ => ih.bind fun _ => (restores_pure _).grows

theorem Grows.inScope {m : Emit α} (h : Grows m) : Restores (Emit.inScope m) := by
  intro w
  obtain ⟨new, hnew⟩ := h { w with names := w.names.enter }
  exact hnew.leave

theorem Grows.inFunction {m : Emit α} (h : Grows m) : Restores (Emit.inFunction m) := by
  intro w
  obtain ⟨new, hnew⟩ := h { w with names := w.names.enterFunction }
  have hleave := Grown.leave (n := { w.names with inFunction := true }) hnew
  exact ⟨hleave.space, hleave.scopes⟩

theorem restores_assignment (target value : Expr) : Restores (assignment T target value) := by
  unfold assignment
  split
  · refine (restores_render _).bind fun _ => (restores_render _).bind fun _ => (restores_render _).bind fun _ => ?_
    split
    · exact restores_pure _
    · exact restores_pure _
  · exact restores_pure _
  · exact (restores_render _).bind fun _ => (restores_render _).bind fun _ => restores_pure _

theorem grows_loopVars (v : LoopVars) (type list counter : String) : Grows (loopVars v type list counter) :=
  (grows_declareAll _).bind fun _ => (grows_declare _).bind fun _ => (restores_pure _).grows

theorem grows_variableParts (x : Ident) (a : Option TypeExpr) (e : Expr) : Grows (variableParts T x a e) :=
  (restores_render _).grows.bind fun _ => (restores_render _).grows.bind fun _ =>
    (grows_declare x).bind fun _ => (restores_pure _).grows

theorem grows_parameters (ps : List (Binding × Ty)) : Grows (parameters ps) := by
  induction ps with
  | nil => exact (restores_pure _).grows
  | cons p ps ih =>
    exact (restores_render _).grows.bind fun _ => (grows_param p.1.name).bind fun _ =>
      ih.bind fun _ => (restores_pure _).grows

mutual
theorem restores_stmt : ∀ s : Stmt, (∃ sp x a e, s = .letVar sp x a e) ∨ Restores (stmt T r s)
  | .letVar sp x a e => .inl ⟨sp, x, a, e, rfl⟩
  | .assign _ t e => .inr (restores_assignment t e)
  | .ret _ none => .inr (restores_pure _)
  | .ret _ (some _) => .inr ((restores_render _).bind fun _ => restores_pure _)
  | .expr .. => .inr ((restores_render _).bind fun _ => restores_pure _)
  | .ifElse _ cs o =>
    .inr ((restores_clauses true cs).bind fun _ => (restores_otherwise o).bind fun _ => restores_pure _)
  | .whileLoop _ _ b =>
    .inr ((restores_render _).bind fun _ => (grows_block b).inScope.bind fun _ => restores_pure _)
  | .forEach _ v _ b => .inr ((restores_render _).bind fun _ => (restores_render _).bind fun _ =>
      (restores_temp _).bind fun _ => (restores_temp _).bind fun _ => (Grows.inScope
        ((grows_loopVars v _ _ _).bind fun _ => (grows_block b).bind fun _ => (restores_pure _).grows)).bind fun _ =>
          restores_pure _)
  | .matchOn .. | .struct .. | .enum .. => .inr (restores_pure _)
theorem restores_clauses : ∀ (first : Bool) (cs : List Clause), Restores (clauses T r first cs)
  | _, [] => restores_pure _
  | _, ⟨_, b⟩ :: cs => (restores_render _).bind fun _ => (grows_block b).inScope.bind fun _ =>
      (restores_clauses false cs).bind fun _ => restores_pure _
theorem restores_otherwise : ∀ o : Option (List Stmt), Restores (otherwise T r o)
  | none => restores_pure _
  | some b => (grows_block b).inScope.bind fun _ => restores_pure _
theorem grows_block : ∀ b : List Stmt, Grows (block T r b)
  | [] => (restores_pure _).grows
  | s :: ss => by
    have hs : Grows (stmt T r s) := by
      rcases restores_stmt s with ⟨_, x, a, e, rfl⟩ | h
      · exact (grows_variableParts x a e).bind fun _ => (restores_pure _).grows
      · exact h.grows
    exact hs.bind fun _ => (grows_block ss).bind fun _ => (restores_pure _).grows
end

theorem restores_of_isLet {s : Stmt} (h : s.isLet = false) : Restores (stmt T r s) := by
  refine (restores_stmt s).resolve_left ?_
  rintro ⟨_, _, _, _, rfl⟩
  cases h

end Scopes

section Sites

/-- Where a variable of C is declared. -/
inductive Storage where
  | file
  | parameter
  | block
  deriving DecidableEq, Repr

structure Variable where
  storage : Storage
  type : String
  name : String
  deriving DecidableEq, Repr

def Variable.code (v : Variable) : String :=
  match v.storage with
  | .file => "static " ++ v.type ++ " " ++ v.name ++ ";"
  | .parameter => v.type ++ " " ++ v.name
  | .block => v.type ++ " " ++ v.name ++ " = "

/-- A statement that is written, with the names in scope and the variables of the blocks and of the function around it,
the nearest one first. -/
structure Site where
  names : Names
  inner : List Variable
  stmt : Stmt

def after {α : Type} (m : Emit α) (n : Names) : Names := (m ⟨n, ()⟩).value.2.names

variable (T : TypeTable) (r : Ty)

/-- Variables that a block declares one after the other: the names in scope and the variables after them. -/
def bound (n : Names) (vs : List Variable) : List (Ident × String) → Names × List Variable
  | [] => (n, vs)
  | (x, type) :: rest => bound (n.declare x).2 (⟨.block, type, (n.declare x).1⟩ :: vs) rest

/-- The variables that a statement leaves behind. The items of a loop are kept in one of them. -/
def declared (n : Names) : Stmt → List Variable
  | .letVar _ x a e => [⟨.block, (cType (variableType T a e)).value, (n.declare x).1⟩]
  | .forEach .. => [⟨.block, "venice_list_t*", (n.temp "iter").1⟩]
  | _ => []

/-- What is visible in the body of a loop: its counter, and what it binds on each round. -/
def loopBound (v : LoopVars) (e : Expr) (n : Names) (vs : List Variable) : Names × List Variable :=
  let counter := (n.temp "iter").2.temp "index"
  bound counter.2.enter (⟨.block, "venice_int_t", counter.1⟩ :: ⟨.block, "venice_list_t*", (n.temp "iter").1⟩ :: vs)
    ((v.index.map fun x => (x, "venice_int_t")).toList ++ [(v.item, (cType (itemType (typeOf T e))).value)])

mutual
/-- The sites inside of a statement of a function with the given result. -/
def stmtSites : Stmt → Names → List Variable → List Site
  | .ifElse _ cs o, n, vs => clauseSites cs n vs ++ otherwiseSites o (after (clauses T r true cs) n) vs
  | .whileLoop _ _ b, n, vs => blockSites b n.enter vs
  | .forEach _ v e b, n, vs => blockSites b (loopBound T v e n vs).1 (loopBound T v e n vs).2
  | _, _, _ => []
def clauseSites : List Clause → Names → List Variable → List Site
  | [], _, _ => []
  | ⟨_, b⟩ :: cs, n, vs => blockSites b n.enter vs ++ clauseSites cs (after (Emit.inScope (block T r b)) n) vs
def otherwiseSites : Option (List Stmt) → Names → List Variable → List Site
  | none, _, _ => []
  | some b, n, vs => blockSites b n.enter vs
def blockSites : List Stmt → Names → List Variable → List Site
  | [], _, _ => []
  | s :: ss, n, vs => ⟨n, vs, s⟩ :: (stmtSites s n vs ++ blockSites ss (after (stmt T r s) n) (declared T n s ++ vs))
end

mutual
theorem stmtSites_stmts : ∀ (s : Stmt) (n : Names) (vs : List Variable),
    (stmtSites T r s n vs).map Site.stmt = s.written
  | .ifElse _ cs o, n, vs => by
    rw [stmtSites, List.map_append, clauseSites_stmts cs, otherwiseSites_stmts o, Stmt.written]
  | .whileLoop _ _ b, n, vs => blockSites_stmts b n.enter vs
  | .forEach _ v e b, n, vs => blockSites_stmts b (loopBound T v e n vs).1 (loopBound T v e n vs).2
  | .letVar .., _, _ | .assign .., _, _ | .ret .., _, _ | .expr .., _, _ | .matchOn .., _, _ | .struct .., _, _
  | .enum .., _, _ => rfl
theorem clauseSites_stmts : ∀ (cs : List Clause) (n : Names) (vs : List Variable),
    (clauseSites T r cs n vs).map Site.stmt = Stmt.clauseWritten cs
  | [], _, _ => rfl
  | ⟨_, b⟩ :: cs, n, vs => by
    rw [clauseSites, List.map_append, blockSites_stmts b, clauseSites_stmts cs, Stmt.clauseWritten]
theorem otherwiseSites_stmts : ∀ (o : Option (List Stmt)) (n : Names) (vs : List Variable),
    (otherwiseSites T r o n vs).map Site.stmt = Stmt.otherwiseWritten o
  | none, _, _ => rfl
  | some b, n, vs => blockSites_stmts b n.enter vs
theorem blockSites_stmts : ∀ (b : List Stmt) (n : Names) (vs : List Variable),
    (blockSites T r b n vs).map Site.stmt = Stmt.blockWritten b
  | [], _, _ => rfl
  | s :: ss, n, vs => by
    rw [blockSites, List.map_cons, List.map_append, stmtSites_stmts s, blockSites_stmts ss, Stmt.blockWritten]
end

end Sites

/-! Which variables the names in scope stand for. -/
section Visible

variable {T : TypeTable} {r : Ty} {G : Spelling → Prop} {Γ Γ' : Env} {n n' : Names} {vs : List Variable}

/-- The names in scope stand for the visible declarations. Each is spelled like one of the variables, or like something
that is visible anyway. -/
structure Visible (G : Spelling → Prop) (Γ : Env) (n : Names) (vs : List Variable) : Prop where
  nonempty : n.scopes ≠ []
  mirrors : Mirrors omitsTypes Γ n.entries
  covers : ∀ e ∈ n.entries, G e.2 ∨ e.2.text ∈ vs.map Variable.name

theorem Visible.mono {ws : List Variable} (h : Visible G Γ n vs) (hsub : vs ⊆ ws) : Visible G Γ n ws where
  nonempty := h.nonempty
  mirrors := h.mirrors
  covers e he := (h.covers e he).imp_right fun hin => List.map_subset _ hsub hin

theorem Visible.restored (h : Visible G Γ n vs) (hg : Grown n n' []) : Visible G Γ n' vs where
  nonempty := hg.scopes_ne h.nonempty
  mirrors := by
    rw [hg.entries h.nonempty]
    exact h.mirrors
  covers := by
    rw [hg.entries h.nonempty]
    exact h.covers

theorem Visible.enter (h : Visible G Γ n vs) : Visible G Γ n.enter vs := ⟨List.cons_ne_nil _ _, h.mirrors, h.covers⟩

/-- The name of a type is visible, but nothing is declared for it. -/
theorem Visible.omitted (h : Visible G Γ n vs) (x : Ident) {t : Ty} (ht : omitsTypes t) :
    Visible G (declare x t Γ) n vs :=
  ⟨h.nonempty, .omitted h.mirrors ht, h.covers⟩

theorem Visible.insert (h : Visible G Γ n vs) {x : Ident} {s : Spelling} (t : Ty) (ho : s.origin = x)
    (hg : Grown n n' [(x.name, s)]) {ws : List Variable} (hsub : vs ⊆ ws)
    (hs : G s ∨ s.text ∈ ws.map Variable.name) : Visible G (declare x t Γ) n' ws where
  nonempty := hg.scopes_ne h.nonempty
  mirrors := by
    rw [hg.entries h.nonempty]
    exact .entry h.mirrors ho
  covers := by
    rw [hg.entries h.nonempty]
    exact List.forall_mem_cons.mpr ⟨hs, (h.mono hsub).covers⟩

theorem Visible.declare (h : Visible G Γ n vs) (x : Ident) (t : Ty) (type : String) :
    Visible G (Typing.declare x t Γ) (n.declare x).2 (⟨.block, type, (n.declare x).1⟩ :: vs) := by
  obtain ⟨s, ho, htext, hg⟩ := grown_declare n x
  refine h.insert t ho hg (List.subset_cons_self _ _) (.inr ?_)
  rw [htext]
  exact List.mem_cons_self

theorem Visible.bound (xs : List (Ident × String)) (ts : List Ty) (hlen : xs.length = ts.length)
    (h : Visible G Γ n vs) :
    Visible G (declareAll (xs.map Prod.fst) ts Γ) (Native.bound n vs xs).1 (Native.bound n vs xs).2 := by
  induction xs generalizing n vs ts Γ with
  | nil => exact h
  | cons x xs ih =>
    cases ts with
    | nil => cases hlen
    | cons t ts => exact ih ts (Nat.succ.inj hlen) (h.declare x.1 t x.2)

theorem Visible.loop (h : Visible G Γ n vs) (v : LoopVars) (t : Ty) (e : Expr) :
    Visible G (declareAll v.names (loopTypes v t) Γ) (loopBound T v e n vs).1 (loopBound T v e n vs).2 := by
  have hstart : Visible G Γ ((n.temp "iter").2.temp "index").2.enter vs :=
    ((h.restored (grown_temp n _)).restored (grown_temp _ _)).enter
  have hmore (a b : Variable) : Visible G Γ _ (a :: b :: vs) :=
    hstart.mono fun _ hv => List.mem_cons_of_mem _ (List.mem_cons_of_mem _ hv)
  obtain ⟨index, item⟩ := v
  cases index with
  | none => exact (hmore _ _).bound [(item, _)] [t] rfl
  | some i => exact (hmore _ _).bound [(i, _), (item, _)] [.int, t] rfl

theorem Visible.stmt {result : Option Ty} {s : Stmt} (hs : StmtTyped T Γ result s Γ') (h : Visible G Γ n vs) :
    Visible G Γ' (after (Native.stmt T r s) n) (declared T n s ++ vs) := by
  have hquiet (hlet : s.isLet = false) : Visible G Γ (after (Native.stmt T r s) n) (declared T n s ++ vs) :=
    (h.restored (restores_of_isLet hlet ⟨n, ()⟩)).mono (List.subset_append_right _ _)
  cases hs with
  | letVar => exact h.declare _ _ _
  | struct | enum => exact (hquiet rfl).omitted _ ⟨_, rfl⟩
  | assign | ret | retValue | expr | ifElse | whileLoop | forEach | matchOn => exact hquiet rfl

end Visible

/-! What is written at a site. -/
section Sound

variable {T : TypeTable} {r : Ty} {G : Spelling → Prop} {Γ Γ' : Env} {n : Names} {vs ws : List Variable}
  {ls ms : List Line} {site : Site}

/-- The first lines are written among the second ones, at whatever depth. -/
def Among (ls ms : List Line) : Prop := ∀ l ∈ ls, ∃ m ∈ ms, m.text = l.text

theorem among_of_subset (h : ls ⊆ ms) : Among ls ms := fun l hl => ⟨l, h hl, rfl⟩

theorem Among.trans {ks : List Line} (h : Among ks ls) (h' : Among ls ms) : Among ks ms := by
  intro k hk
  obtain ⟨l, hl, hkl⟩ := h k hk
  obtain ⟨m, hm, hlm⟩ := h' l hl
  exact ⟨m, hm, hlm.trans hkl⟩

theorem among_indented (ls : List Line) : Among ls (indented ls) :=
  fun l hl => ⟨l.deepen, List.mem_map_of_mem hl, rfl⟩

theorem among_blockLines (head : String) (ls : List Line) : Among ls (blockLines head ls) :=
  (among_indented ls).trans (among_of_subset fun _ hl => List.mem_cons_of_mem _ (List.mem_append_left _ hl))

theorem Told.among {a : String} (h : Told ls a) (hin : Among ls ms) : Told ms a := by
  obtain ⟨l, hl, ha⟩ := h
  obtain ⟨m, hm, htext⟩ := hin l hl
  exact ⟨m, hm, htext ▸ ha⟩

/-- The statement is typed where it stands. The lines declare all variables around it but the given ones, and an
assignment is written among them. -/
structure Site.Sound (T : TypeTable) (G : Spelling → Prop) (vs : List Variable) (ls : List Line) (site : Site) :
    Prop where
  typed : ∃ Γ Γ' result, StmtTyped T Γ result site.stmt Γ' ∧ Visible G Γ site.names site.inner
  declared : ∀ v ∈ site.inner, v ∈ vs ∨ Told ls v.code
  written : ∀ sp t e, site.stmt = .assign sp t e → Among (assignment T t e ⟨site.names, ()⟩).value.1 ls

theorem Site.Sound.mono (h : site.Sound T G vs ls) (hin : Among ls ms) (hvs : ∀ v ∈ vs, v ∈ ws ∨ Told ms v.code) :
    site.Sound T G ws ms where
  typed := h.typed
  declared v hv := (h.declared v hv).elim (hvs v) fun htold => .inr (htold.among hin)
  written sp t e hs := (h.written sp t e hs).trans hin

theorem Site.Sound.among (h : site.Sound T G vs ls) (hin : Among ls ms) : site.Sound T G vs ms :=
  h.mono hin fun _ => .inl

theorem told_declared {s : Stmt} {v : Variable} (hv : v ∈ declared T n s) :
    Told (stmt T r s ⟨n, ()⟩).value.1 v.code := by
  cases s with
  | letVar =>
    obtain rfl := List.mem_singleton.mp hv
    exact told_at0 (((Within.refl _).right _).right _)
  | forEach _ _ e =>
    obtain rfl := List.mem_singleton.mp hv
    exact ⟨_, List.mem_cons_self, ((Within.refl _).right _).right _⟩
  | assign | ret | expr | ifElse | whileLoop | matchOn | struct | enum => cases hv

theorem within_counter (list counter : String) :
    Within ("venice_int_t" ++ " " ++ counter ++ " = ") (loopHead list counter) := by
  have hstart : "for (venice_int_t " = "for (" ++ ("venice_int_t" ++ " ") := by decide
  have hzero : " = 0; " = " = " ++ "0; " := by decide
  refine ⟨"for (", "0; " ++ counter ++ " < venice_list_length(" ++ list ++ "); " ++ counter ++ "++)", ?_⟩
  unfold loopHead
  rw [hstart, hzero]
  simp only [String.append_assoc]

theorem within_item (type item list counter : String) :
    Within (type ++ " " ++ item ++ " = ") (type ++ " " ++ item ++ " = VENICE_FROM_WORD(" ++ type ++
      ", venice_list_index(" ++ list ++ ", " ++ counter ++ "));") := by
  have hvalue : " = VENICE_FROM_WORD(" = " = " ++ "VENICE_FROM_WORD(" := by decide
  refine ⟨"", "VENICE_FROM_WORD(" ++ type ++ ", venice_list_index(" ++ list ++ ", " ++ counter ++ "));", ?_⟩
  rw [hvalue, String.empty_append]
  simp only [String.append_assoc]

theorem forEach_lines (sp : Span) (v : LoopVars) (e : Expr) (b : List Stmt) (n : Names) (vs : List Variable) :
    ∃ first head vars, (stmt T r (.forEach sp v e b) ⟨n, ()⟩).value.1 =
        first :: blockLines head (vars ++ (block T r b ⟨(loopBound T v e n vs).1, ()⟩).value.1) ∧
      ∀ w ∈ (loopBound T v e n vs).2, w ∈ vs ∨ Told [first] w.code ∨ Within w.code head ∨ Told vars w.code := by
  obtain ⟨index, item⟩ := v
  cases index with
  | none =>
    refine ⟨_, _, _, rfl, fun w hw => ?_⟩
    rcases List.mem_cons.mp hw with rfl | hw
    · exact .inr (.inr (.inr (told_at0 (within_item _ _ _ _))))
    rcases List.mem_cons.mp hw with rfl | hw
    · exact .inr (.inr (.inl (within_counter _ _)))
    rcases List.mem_cons.mp hw with rfl | hw
    · exact .inr (.inl (told_at0 (((Within.refl _).right _).right _)))
    · exact .inl hw
  | some i =>
    refine ⟨_, _, _, rfl, fun w hw => ?_⟩
    rcases List.mem_cons.mp hw with rfl | hw
    · exact .inr (.inr (.inr ⟨_, List.mem_cons_of_mem _ List.mem_cons_self, within_item _ _ _ _⟩))
    rcases List.mem_cons.mp hw with rfl | hw
    · exact .inr (.inr (.inr ⟨_, List.mem_cons_self, ((Within.refl _).right _).right _⟩))
    rcases List.mem_cons.mp hw with rfl | hw
    · exact .inr (.inr (.inl (within_counter _ _)))
    rcases List.mem_cons.mp hw with rfl | hw
    · exact .inr (.inl (told_at0 (((Within.refl _).right _).right _)))
    · exact .inl hw

mutual
theorem sound_stmt : ∀ {s : Stmt} {Γ Γ' : Env} {result : Option Ty} {n : Names} {vs : List Variable},
    StmtTyped T Γ result s Γ' → Visible G Γ n vs → ∀ site ∈ stmtSites T r s n vs,
      site.Sound T G vs (stmt T r s ⟨n, ()⟩).value.1
  | .ifElse _ cs o, _, _, _, n, _, .ifElse _ _ hbs ho, h, site, hin => by
    rcases List.mem_append.mp hin with hin | hin
    · refine (sound_clauses cs hbs h true site hin).among (among_of_subset fun l hl => ?_)
      exact List.mem_append_left _ (List.mem_append_left _ hl)
    · have hlast := h.restored (restores_clauses (T := T) (r := r) true cs ⟨n, ()⟩)
      refine (sound_otherwise ho hlast site hin).among (among_of_subset fun l hl => ?_)
      exact List.mem_append_left _ (List.mem_append_right _ hl)
  | .whileLoop _ _ b, _, _, _, _, _, .whileLoop _ _ hb, h, site, hin =>
    (sound_block hb h.enter site hin).among (among_blockLines _ _)
  | .forEach sp v e b, _, _, _, n, vs, .forEach _ _ hb, h, site, hin => by
    obtain ⟨first, head, vars, hlines, htold⟩ := forEach_lines (T := T) (r := r) sp v e b n vs
    have hbody : Among (vars ++ (block T r b ⟨(loopBound T v e n vs).1, ()⟩).value.1)
        (stmt T r (.forEach sp v e b) ⟨n, ()⟩).value.1 := by
      rw [hlines]
      exact (among_blockLines head _).trans (among_of_subset (List.subset_cons_self _ _))
    refine (sound_block hb (h.loop v _ e) site hin).mono
      ((among_of_subset (List.subset_append_right vars _)).trans hbody) fun w hw => ?_
    rcases htold w hw with hw | hfirst | hhead | hvars
    · exact .inl hw
    · refine .inr (hfirst.mono ?_)
      rw [hlines]
      exact List.cons_subset_cons _ (List.nil_subset _)
    · rw [hlines]
      exact .inr ((told_blockLines hhead _).mono (List.subset_cons_self _ _))
    · exact .inr ((hvars.mono (List.subset_append_left _ _)).among hbody)
theorem sound_clauses : ∀ (cs : List Clause) {Γ : Env} {result : Option Ty} {n : Names} {vs : List Variable},
    (∀ c ∈ cs, BlockTyped T Γ result c.body) → Visible G Γ n vs → ∀ first, ∀ site ∈ clauseSites T r cs n vs,
      site.Sound T G vs (clauses T r first cs ⟨n, ()⟩).value.1
  | ⟨c, b⟩ :: cs, _, _, n, _, hbs, h, first, site, hin => by
    obtain ⟨hb, hbs⟩ := List.forall_mem_cons.mp hbs
    rcases List.mem_append.mp hin with hin | hin
    · refine (sound_block hb h.enter site hin).among ((among_indented _).trans (among_of_subset fun l hl => ?_))
      exact List.mem_cons_of_mem _ (List.mem_append_left _ hl)
    · have hnext := h.restored ((grows_block (T := T) (r := r) b).inScope ⟨n, ()⟩)
      refine (sound_clauses cs hbs hnext false site hin).among (among_of_subset fun l hl => ?_)
      exact List.mem_cons_of_mem _ (List.mem_append_right _ hl)
theorem sound_otherwise : ∀ {o : Option (List Stmt)} {Γ : Env} {result : Option Ty} {n : Names} {vs : List Variable},
    (∀ b, o = some b → BlockTyped T Γ result b) → Visible G Γ n vs → ∀ site ∈ otherwiseSites T r o n vs,
      site.Sound T G vs (otherwise T r o ⟨n, ()⟩).value.1
  | some b, _, _, _, _, hb, h, site, hin =>
    (sound_block (hb b rfl) h.enter site hin).among
      ((among_indented _).trans (among_of_subset (List.subset_cons_self _ _)))
theorem sound_block : ∀ {b : List Stmt} {Γ : Env} {result : Option Ty} {n : Names} {vs : List Variable},
    BlockTyped T Γ result b → Visible G Γ n vs → ∀ site ∈ blockSites T r b n vs,
      site.Sound T G vs (block T r b ⟨n, ()⟩).value.1
  | s :: ss, _, _, n, vs, .cons hs hss, h, site, hin => by
    have hfirst : Among (stmt T r s ⟨n, ()⟩).value.1 (block T r (s :: ss) ⟨n, ()⟩).value.1 :=
      among_of_subset (List.subset_append_left _ _)
    rcases List.mem_cons.mp hin with rfl | hin
    · exact ⟨⟨_, _, _, hs, h⟩, fun _ hv => .inl hv, by rintro sp t e rfl; exact hfirst⟩
    rcases List.mem_append.mp hin with hin | hin
    · exact (sound_stmt hs h site hin).among hfirst
    · refine (sound_block hss (h.stmt hs) site hin).mono (among_of_subset (List.subset_append_right _ _)) fun v hv => ?_
      rcases List.mem_append.mp hv with hv | hv
      · exact .inr ((told_declared hv).among hfirst)
      · exact .inl hv
end

end Sound

end Native

end Gondola
