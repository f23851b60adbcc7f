import Gondola.Proofs.Code.Python
import Gondola.Proofs.Names.Distinct
import Gondola.Proofs.Typing.TopLevel

/-! Writing a Python program, step by step. What it does to names and globals depends on the tree alone, so that it can
be followed without the code that is written. -/
namespace Gondola.Python

section Steps

/-- A step that changes the names in scope or the globals noted so far. -/
inductive Step where
  | names (op : Names.Op)
  | assign (n : Node) (x : Ident)
  deriving DecidableEq, Repr

def Step.apply : Step → Writer (List String) → Writer (List String)
  | names op, w => { w with names := op.apply w.names }
  | assign _ x, w =>
    if w.names.isGlobalFromFunction x.name then
      { w with extra := insertSorted (w.names.spell x.name) w.extra }
    else w

def after (w : Writer (List String)) (es : List Step) : Writer (List String) := es.foldl (fun w e => e.apply w) w

/-- The variables that are assigned to, with the names in scope there. -/
def targets (w : Writer (List String)) : List Step → List Use
  | [] => []
  | .names op :: es => targets ((Step.names op).apply w) es
  | .assign n x :: es => ⟨n, x, w.names⟩ :: targets ((Step.assign n x).apply w) es

def ops : List Step → List Names.Op
  | [] => []
  | .names op :: es => op :: ops es
  | .assign .. :: es => ops es

def enclosed (es : List Step) : List Step := .names .enter :: (es ++ [.names .leave])

def declarations (xs : List Ident) : List Step := xs.map fun x => .names (.declare x)

def targetSteps : Expr → List Step
  | .symbol n x => [.assign n x]
  | _ => []

mutual
def stmtSteps : Stmt → List Step
  | .letVar _ x _ _ => [.names (.declare x)]
  | .assign _ t _ => targetSteps t
  | .ret .. | .expr .. => []
  | .ifElse _ cs o => clauseSteps cs ++ otherwiseSteps o
  | .whileLoop _ _ b => enclosed (blockSteps b)
  | .forEach _ v _ b => enclosed (declarations v.names ++ blockSteps b)
  | .matchOn _ _ as o => .names (.temp "match") :: (armSteps as ++ otherwiseSteps o)
  | .struct _ d => [.names (.declare d.name)]
  | .enum _ d => [.names (.declare d.name)]
def clauseSteps : List Clause → List Step
  | [] => []
  | ⟨_, b⟩ :: cs => enclosed (blockSteps b) ++ clauseSteps cs
def armSteps : List Arm → List Step
  | [] => []
  | ⟨p, b⟩ :: as => enclosed (declarations p.bindings ++ blockSteps b) ++ armSteps as
def otherwiseSteps : Option (List Stmt) → List Step
  | none => []
  | some b => enclosed (blockSteps b)
def blockSteps : List Stmt → List Step
  | [] => []
  | s :: ss => stmtSteps s ++ blockSteps ss
end

theorem after_append (w : Writer (List String)) (es fs : List Step) : after w (es ++ fs) = after (after w es) fs :=
  List.foldl_append

theorem targets_append (w : Writer (List String)) (es fs : List Step) :
    targets w (es ++ fs) = targets w es ++ targets (after w es) fs := by
  induction es generalizing w with
  | nil => rfl
  | cons e es ih =>
    cases e with
    | names op => exact ih _
    | assign n x => exact congrArg (List.cons _) (ih _)

theorem ops_append (es fs : List Step) : ops (es ++ fs) = ops es ++ ops fs := by
  induction es with
  | nil => rfl
  | cons e es ih =>
    cases e with
    | names op => exact congrArg (List.cons op) ih
    | assign n x => exact ih

theorem names_apply_assign (w : Writer (List String)) (n : Node) (x : Ident) :
    ((Step.assign n x).apply w).names = w.names := by
  show (if _ then _ else w : Writer (List String)).names = _
  split <;> rfl

theorem names_after (w : Writer (List String)) (es : List Step) : (after w es).names = w.names.after (ops es) := by
  induction es generalizing w with
  | nil => rfl
  | cons e es ih =>
    refine (ih (e.apply w)).trans ?_
    cases e with
    | names op => rfl
    | assign n x =>
      rw [names_apply_assign]
      rfl

/-- Steps that bind the names `bs` altogether, of which the names `xs` remain in scope. All other scopes that they
enter they leave. -/
inductive Level : List Ident → List Ident → List Step → Prop
  | nil : Level [] [] []
  | declare (x : Ident) : Level [x] [x] [.names (.declare x)]
  | temp (stem : String) : Level [] [] [.names (.temp stem)]
  | assign (n : Node) (x : Ident) : Level [] [] [.assign n x]
  | scope {bs xs es} (h : Level bs xs es) : Level bs [] (enclosed es)
  | append {bs xs es cs ys fs} (h : Level bs xs es) (h' : Level cs ys fs) :
      Level (bs ++ cs) (xs ++ ys) (es ++ fs)

theorem Level.declares {bs xs : List Ident} {es : List Step} (h : Level bs xs es) {x : Ident} (hx : x ∈ bs) :
    .declare x ∈ ops es := by
  induction h with
  | nil | temp | assign => cases hx
  | declare y =>
    rw [List.mem_singleton.mp hx]
    exact List.mem_singleton.mpr rfl
  | scope _ ih =>
    show _ ∈ .enter :: ops (_ ++ _)
    rw [ops_append]
    exact List.mem_cons_of_mem _ (List.mem_append_left _ (ih hx))
  | append _ _ ih ih' =>
    rw [ops_append]
    exact (List.mem_append.mp hx).elim (fun h => List.mem_append_left _ (ih h)) fun h => List.mem_append_right _ (ih' h)

theorem level_targetSteps (t : Expr) : Level [] [] (targetSteps t) := by
  cases t with
  | symbol n x => exact .assign n x
  | int | string | bool | binary | unary | call | list | map | index | field => exact .nil

/-- Writing that goes through the given steps, and writes the variables that are assigned to. -/
structure Follows {α : Type} (m : Emit α) (bs xs : List Ident) (es : List Step) : Prop where
  level : Level bs xs es
  state : ∀ w, (m w).value.2 = after w es
  uses : ∀ w, ∀ u ∈ targets w es, u ∈ (m w).uses

section Rules

variable {α β : Type} {bs xs cs ys : List Ident} {es fs : List Step} {m : Emit α}

theorem Follows.bind {f : α → Emit β} (hm : Follows m bs xs es) (hf : ∀ a, Follows (f a) cs ys fs) :
    Follows (m >>= f) (bs ++ cs) (xs ++ ys) (es ++ fs) where
  level := hm.level.append (hf (m ⟨{ space := space }, []⟩).value.1).level
  state w := by
    have hrest := (hf (m w).value.1).state (m w).value.2
    rw [hm.state w] at hrest
    rw [after_append, ← hrest, ← hm.state w]
    rfl
  uses w u hu := by
    rw [targets_append] at hu
    show u ∈ (m w).uses ++ (f (m w).value.1 (m w).value.2).uses
    rcases List.mem_append.mp hu with hu | hu
    · exact List.mem_append_left _ (hm.uses w u hu)
    · rw [← hm.state w] at hu
      exact List.mem_append_right _ ((hf (m w).value.1).uses (m w).value.2 u hu)

theorem Follows.andThen {f : α → Emit β} (hm : Follows m [] [] []) (hf : ∀ a, Follows (f a) cs ys fs) :
    Follows (m >>= f) cs ys fs :=
  hm.bind hf

theorem Follows.last {f : α → Emit β} (hm : Follows m bs xs es) (hf : ∀ a, Follows (f a) [] [] []) :
    Follows (m >>= f) bs xs es := by
  have h := hm.bind hf
  simpa only [List.append_nil] using h

theorem follows_pure (a : α) : Follows (pure a : Emit α) [] [] [] := ⟨.nil, fun _ => rfl, nofun⟩

theorem follows_render (f : Names → Fragment Helper α) : Follows (Emit.render f : Emit α) [] [] [] :=
  ⟨.nil, fun _ => rfl, nofun⟩

theorem follows_need (h : Helper) : Follows (Emit.need h : Emit Unit) [] [] [] := ⟨.nil, fun _ => rfl, nofun⟩

theorem follows_space : Follows (Emit.space : Emit Namespace) [] [] [] := ⟨.nil, fun _ => rfl, nofun⟩

theorem follows_declare (x : Ident) : Follows (Emit.declare x : Emit String) [x] [x] [.names (.declare x)] :=
  ⟨.declare x, fun _ => rfl, nofun⟩

theorem follows_temp (stem : String) : Follows (Emit.temp stem : Emit String) [] [] [.names (.temp stem)] :=
  ⟨.temp stem, fun _ => rfl, nofun⟩

theorem follows_declareAll (xs : List Ident) :
    Follows (Emit.declareAll xs : Emit (List String)) xs xs (declarations xs) := by
  induction xs with
  | nil => exact follows_pure []
  | cons x xs ih => exact (follows_declare x).bind fun _ => ih.last fun _ => follows_pure _

theorem Follows.inScope (h : Follows m bs xs es) : Follows (Emit.inScope m) bs [] (enclosed es) where
  level := h.level.scope
  state w := by
    have hbody := h.state { w with names := w.names.enter }
    show (Emit.inScope m w).value.2 = after { w with names := w.names.enter } (es ++ [.names .leave])
    rw [after_append, ← hbody]
    rfl
  uses w u hu := by
    have hu : u ∈ targets { w with names := w.names.enter } (es ++ [.names .leave]) := hu
    rw [targets_append] at hu
    rcases List.mem_append.mp hu with hu | hu
    · show u ∈ [] ++ ((m { w with names := w.names.enter }).uses ++ ([] ++ []))
      exact List.mem_append_right [] (List.mem_append_left _ (h.uses _ u hu))
    · cases hu

end Rules

end Steps

section Stmts

variable {T : TypeTable}

theorem mem_uses_symbol (w : Writer (List String)) (n : Node) (x : Ident) :
    ⟨n, x, w.names⟩ ∈ (exprCode T (.symbol n x) w).uses := by
  show _ ∈ (symbol ⟨T, w.names⟩ n x).uses ++ []
  rw [List.append_nil, symbol]
  split
  · exact List.mem_cons_self
  · exact List.mem_cons_self

theorem follows_assign (t e : Expr) (sp : Span) : Follows (stmt T (.assign sp t e)) [] [] (targetSteps t) := by
  refine ⟨level_targetSteps t, fun w => ?_, fun w u hu => ?_⟩
  · cases t with
    | symbol n x => rfl
    | int | string | bool | binary | unary | call | list | map | index | field => rfl
  · cases t with
    | symbol n x =>
      obtain rfl := List.mem_singleton.mp hu
      have hnames : (noteGlobal (.symbol n x) w).value.2.names = w.names := names_apply_assign w n x
      have hin := mem_uses_symbol (T := T) (noteGlobal (.symbol n x) w).value.2 n x
      rw [hnames] at hin
      exact List.mem_append_right _ (List.mem_append_left _ hin)
    | int | string | bool | binary | unary | call | list | map | index | field => cases hu

theorem follows_structDecl (d : StructDecl) : Follows (structDecl d) [d.name] [d.name] [.names (.declare d.name)] :=
  (follows_need _).andThen fun _ => (follows_declare d.name).last fun _ => follows_space.andThen fun _ => follows_pure _

theorem follows_enumDecl (d : EnumDecl) : Follows (enumDecl d) [d.name] [d.name] [.names (.declare d.name)] :=
  (follows_need _).andThen fun _ => (follows_declare d.name).last fun _ => follows_space.andThen fun _ => follows_pure _

mutual
theorem follows_stmt : ∀ s : Stmt, Follows (stmt T s) s.binders s.declares (stmtSteps s)
  | .letVar _ x _ e => (follows_render _).andThen fun _ => (follows_declare x).last fun _ => follows_pure _
  | .assign sp t e => follows_assign t e sp
  | .ret _ none => follows_pure _
  | .ret _ (some e) => (follows_render _).andThen fun _ => follows_pure _
  | .expr _ e => (follows_render _).andThen fun _ => follows_pure _
  | .ifElse _ cs o => (follows_clauses cs "if").bind fun _ => (follows_otherwise o).last fun _ => follows_pure _
  | .whileLoop _ c b => (follows_render _).andThen fun _ => (follows_block b).inScope.last fun _ => follows_pure _
  | .forEach _ v e b => (follows_render _).andThen fun _ => Follows.inScope
      ((follows_declareAll v.names).bind fun _ => (follows_block b).last fun _ => follows_pure _)
  | .matchOn _ e as o => by
    refine (follows_render _).andThen fun _ => (follows_temp "match").bind fun temp =>
      (follows_arms as temp "if").bind fun _ => ?_
    cases as with
    | nil => exact (follows_withoutArms o).last fun _ => follows_pure _
    | cons a as => exact (follows_otherwise o).last fun _ => follows_pure _
  | .struct _ d => follows_structDecl d
  | .enum _ d => follows_enumDecl d
theorem follows_clauses : ∀ (cs : List Clause) (keyword : String),
    Follows (clauses T keyword cs) (Stmt.clauseBinders cs) [] (clauseSteps cs)
  | [], _ => follows_pure _
  | ⟨_, b⟩ :: cs, _ => (follows_render _).andThen fun _ => (follows_block b).inScope.bind fun _ =>
      (follows_clauses cs "elif").last fun _ => follows_pure _
theorem follows_arms : ∀ (as : List Arm) (temp keyword : String),
    Follows (arms T temp keyword as) (Stmt.armBinders as) [] (armSteps as)
  | [], _, _ => follows_pure _
  | ⟨p, b⟩ :: as, temp, _ =>
    (Follows.inScope ((follows_declareAll p.bindings).bind fun _ =>
      (follows_block b).last fun _ => follows_pure _)).bind fun _ =>
        (follows_arms as temp "elif").last fun _ => follows_pure _
theorem follows_otherwise : ∀ o : Option (List Stmt),
    Follows (otherwise T o) (Stmt.otherwiseBinders o) [] (otherwiseSteps o)
  | none => follows_pure _
  | some b => (follows_block b).inScope.last fun _ => follows_pure _
theorem follows_withoutArms : ∀ o : Option (List Stmt),
    Follows (withoutArms T o) (Stmt.otherwiseBinders o) [] (otherwiseSteps o)
  | none => follows_pure _
  | some b => (follows_block b).inScope
theorem follows_block : ∀ b : List Stmt,
    Follows (block T b) (Stmt.blockBinders b) (b.flatMap Stmt.declares) (blockSteps b)
  | [] => follows_pure _
  | s :: ss => (follows_stmt s).bind fun _ => (follows_stmts ss).last fun _ => follows_pure _
theorem follows_stmts : ∀ b : List Stmt,
    Follows (stmts T b) (Stmt.blockBinders b) (b.flatMap Stmt.declares) (blockSteps b)
  | [] => follows_pure _
  | s :: ss => (follows_stmt s).bind fun _ => (follows_stmts ss).last fun _ => follows_pure _
end

end Stmts

/-! Runs of steps that enter and leave scopes in pairs. -/
section Runs

variable {bs xs : List Ident} {es : List Step}

theorem after_append_ops (n : Names) (as bs : List Names.Op) : n.after (as ++ bs) = (n.after as).after bs := by
  induction as generalizing n with
  | nil => rfl
  | cons op as ih => exact ih _

theorem returned_append (n : Names) (as bs : List Names.Op) :
    n.returned (as ++ bs) = n.returned as ++ (n.after as).returned bs := by
  induction as generalizing n with
  | nil => rfl
  | cons op as ih =>
    show _ ++ (op.apply n).returned (as ++ bs) = _ ++ (op.apply n).returned as ++ _
    rw [ih, List.append_assoc]
    rfl

theorem ops_enclosed (es : List Step) : ops (enclosed es) = .enter :: (ops es ++ [.leave]) := by
  rw [enclosed, ops, ops_append]
  rfl

theorem Level.scopes (h : Level bs xs es) {n : Names} {top : List (String × Spelling)}
    {rest : List (List (String × Spelling))} (hn : n.scopes = top :: rest) :
    ∃ added, (n.after (ops es)).scopes = (added ++ top) :: rest ∧ added.length = xs.length := by
  induction h generalizing n top rest with
  | nil => exact ⟨[], hn, rfl⟩
  | declare x =>
    obtain ⟨s, -, hs⟩ := Names.declare_scopes hn x
    exact ⟨[(x.name, s)], hs, rfl⟩
  | temp stem => exact ⟨[], hn, rfl⟩
  | assign n x => exact ⟨[], hn, rfl⟩
  | @scope bs xs es _ ih =>
    have hin : n.enter.scopes = [] :: top :: rest := congrArg (List.cons []) hn
    obtain ⟨added, hadded, -⟩ := ih hin
    refine ⟨[], ?_, rfl⟩
    rw [ops_enclosed]
    show (n.enter.after (ops es ++ [.leave])).scopes = _
    rw [after_append_ops]
    exact Names.leave_scopes hadded
  | append _ _ ih ih' =>
    obtain ⟨added, hadded, hlen⟩ := ih hn
    obtain ⟨added', hadded', hlen'⟩ := ih' hadded
    refine ⟨added' ++ added, ?_, ?_⟩
    · rw [ops_append, after_append_ops, hadded', List.append_assoc]
    · rw [List.length_append, List.length_append, hlen, hlen', Nat.add_comm]

/-- A name that keeps its spelling hides none that was in scope before. -/
theorem Level.plain (h : Level bs xs es) {n : Names} {top : List (String × Spelling)}
    {rest : List (List (String × Spelling))} (hn : n.scopes = top :: rest) {r : Names.Returned} {y : String}
    (hr : r ∈ n.returned (ops es)) (hy : r.form = .plain y) : y ∉ (top :: rest).flatten.map Prod.fst := by
  induction h generalizing n top rest with
  | nil => cases hr
  | declare x =>
    have hr : r ∈ ((Names.Op.declare x).returned? n).toList ++ [] := hr
    rw [List.append_nil] at hr
    obtain rfl := Option.some.inj (Option.mem_toList.mp hr)
    cases hl : n.lookup? x.name with
    | some s =>
      simp only [hl] at hy
      cases hy
    | none =>
      simp only [hl] at hy
      obtain rfl := Form.plain.inj hy
      rw [Names.lookup?_eq, Names.entries, hn, List.lookup_eq_none_iff] at hl
      intro hin
      obtain ⟨e, he, heq⟩ := List.mem_map.mp hin
      have hne := hl e he
      rw [heq, bne_self_eq_false] at hne
      cases hne
  | temp stem =>
    have hr : r ∈ ((Names.Op.temp stem).returned? n).toList ++ [] := hr
    rw [List.append_nil] at hr
    obtain rfl := Option.some.inj (Option.mem_toList.mp hr)
    cases hy
  | assign n x => cases hr
  | @scope bs xs es _ ih =>
    have hin : n.enter.scopes = [] :: top :: rest := congrArg (List.cons []) hn
    rw [ops_enclosed] at hr
    have hr : r ∈ n.enter.returned (ops es ++ [.leave]) := hr
    rw [returned_append] at hr
    rcases List.mem_append.mp hr with hr | hr
    · have hinner : y ∉ ([] :: top :: rest).flatten.map Prod.fst := ih hin hr
      exact hinner
    · cases hr
  | @append _ _ es _ _ fs h _ ih ih' =>
    rw [ops_append, returned_append] at hr
    rcases List.mem_append.mp hr with hr | hr
    · exact ih hn hr
    · obtain ⟨added, hadded, -⟩ := h.scopes hn
      intro hin
      apply ih' hadded hr
      rw [List.flatten_cons, List.append_assoc, List.map_append]
      exact List.mem_append_right _ hin

/-- A property of the names in scope that steps keep which bind some of the names `bs`. -/
structure Kept (bs : List Ident) (P : Names → Prop) : Prop where
  enter : ∀ n, P n → P n.enter
  leave : ∀ n, P n → P n.leave
  temp : ∀ n stem, P n → P (n.temp stem).2
  declare : ∀ n x, x ∈ bs → P n → P (n.declare x).2

theorem Kept.mono {cs : List Ident} {P : Names → Prop} (h : Kept cs P) (hsub : bs ⊆ cs) : Kept bs P :=
  ⟨h.enter, h.leave, h.temp, fun n x hx => h.declare n x (hsub hx)⟩

theorem Level.keeps (h : Level bs xs es) {P : Names → Prop} (hk : Kept bs P) {w : Writer (List String)}
    (hw : P w.names) : P (after w es).names ∧ ∀ u ∈ targets w es, P u.names := by
  induction h generalizing w with
  | nil => exact ⟨hw, nofun⟩
  | declare x => exact ⟨hk.declare _ x List.mem_cons_self hw, nofun⟩
  | temp stem => exact ⟨hk.temp _ stem hw, nofun⟩
  | assign n x =>
    refine ⟨?_, List.forall_mem_singleton.mpr hw⟩
    rw [names_after]
    exact hw
  | @scope bs xs es _ ih =>
    obtain ⟨hend, htargets⟩ := ih hk (w := (Step.names .enter).apply w) (hk.enter _ hw)
    refine ⟨?_, fun u hu => ?_⟩
    · show P (after ((Step.names .enter).apply w) (es ++ [.names .leave])).names
      rw [after_append]
      exact hk.leave _ hend
    · have hu : u ∈ targets ((Step.names .enter).apply w) (es ++ [.names .leave]) := hu
      rw [targets_append] at hu
      rcases List.mem_append.mp hu with hu | hu
      · exact htargets u hu
      · cases hu
  | append _ _ ih ih' =>
    obtain ⟨hmid, htargets⟩ := ih (hk.mono (List.subset_append_left _ _)) hw
    obtain ⟨hend, htargets'⟩ := ih' (hk.mono (List.subset_append_right _ _)) hmid
    rw [after_append, targets_append]
    exact ⟨hend, fun u hu => (List.mem_append.mp hu).elim (htargets u) (htargets' u)⟩

theorem mem_insertSorted {s t : String} {ts : List String} : t ∈ insertSorted s ts ↔ t = s ∨ t ∈ ts := by
  induction ts with
  | nil => simp [insertSorted]
  | cons u ts ih =>
    unfold insertSorted
    split_ifs with hsame hless
    · rw [hsame]
      exact (or_iff_right_of_imp fun h => h ▸ List.mem_cons_self).symm
    · exact List.mem_cons
    · rw [List.mem_cons, ih, List.mem_cons]
      exact or_left_comm

theorem pairwise_insertSorted (s : String) {ts : List String} (h : ts.Pairwise (· < ·)) :
    (insertSorted s ts).Pairwise (· < ·) := by
  induction ts with
  | nil => exact List.pairwise_singleton _ _
  | cons u ts ih =>
    obtain ⟨hu, hts⟩ := List.pairwise_cons.mp h
    unfold insertSorted
    split_ifs with hsame hless
    · exact h
    · refine List.pairwise_cons.mpr ⟨List.forall_mem_cons.mpr ⟨hless, fun t ht => ?_⟩, h⟩
      exact String.lt_trans hless (hu t ht)
    · refine List.pairwise_cons.mpr ⟨fun t ht => ?_, ih hts⟩
      rcases mem_insertSorted.mp ht with rfl | ht
      · exact lt_of_le_of_ne (not_lt.mp hless) (Ne.symm hsame)
      · exact hu t ht

theorem mem_extra_after (w : Writer (List String)) (es : List Step) (text : String) :
    text ∈ (after w es).extra ↔ text ∈ w.extra ∨ ∃ u ∈ targets w es,
      u.names.isGlobalFromFunction u.name.name = true ∧ text = u.names.spell u.name.name := by
  induction es generalizing w with
  | nil => simp [after, targets]
  | cons e es ih =>
    refine (ih (e.apply w)).trans ?_
    cases e with
    | names op => exact Iff.rfl
    | assign n x =>
      rw [targets, List.exists_mem_cons_iff]
      by_cases hg : w.names.isGlobalFromFunction x.name = true
      · have hextra : ((Step.assign n x).apply w).extra = insertSorted (w.names.spell x.name) w.extra := by
          simp [Step.apply, hg]
        rw [hextra, mem_insertSorted, or_comm (a := text = _), or_assoc]
        simp [hg]
      · have hextra : ((Step.assign n x).apply w).extra = w.extra := by
          simp [Step.apply, hg]
        rw [hextra]
        simp [hg]

theorem pairwise_extra_after {w : Writer (List String)} (h : w.extra.Pairwise (· < ·)) (es : List Step) :
    (after w es).extra.Pairwise (· < ·) := by
  induction es generalizing w with
  | nil => exact h
  | cons e es ih =>
    apply ih
    cases e with
    | names op => exact h
    | assign n x =>
      show (if _ then _ else w : Writer (List String)).extra.Pairwise (· < ·)
      split
      · exact pairwise_insertSorted _ h
      · exact h

end Runs

/-! Where the assignments of a tree stand among the steps. -/
section Assignments

variable {n : Node} {x : Ident}

/-- One of the statements assigns to the symbol. -/
def AssignsTo (n : Node) (x : Ident) (ss : List Stmt) : Prop := ∃ sp e, .assign sp (.symbol n x) e ∈ ss

theorem assignsTo_append {ss ts : List Stmt} : AssignsTo n x (ss ++ ts) ↔ AssignsTo n x ss ∨ AssignsTo n x ts := by
  simp only [AssignsTo, List.mem_append, exists_or]

theorem mem_enclosed {es : List Step} : .assign n x ∈ enclosed es ↔ .assign n x ∈ es := by
  simp [enclosed]

theorem not_mem_declarations {ys : List Ident} : .assign n x ∉ declarations ys := by
  simp [declarations]

theorem mem_targetSteps {t : Expr} : .assign n x ∈ targetSteps t ↔ t = .symbol n x := by
  cases t with
  | symbol m y => simp [targetSteps, eq_comm]
  | int | string | bool | binary | unary | call | list | map | index | field => simp [targetSteps]

mutual
theorem assign_mem_stmtSteps : ∀ s : Stmt, .assign n x ∈ stmtSteps s ↔ AssignsTo n x (s :: s.nested)
  | .letVar .. | .ret .. | .expr .. | .struct .. | .enum .. => by simp [stmtSteps, AssignsTo, Stmt.nested]
  | .assign _ t e => by simp [stmtSteps, AssignsTo, Stmt.nested, mem_targetSteps, eq_comm]
  | .ifElse _ cs o => by
    rw [stmtSteps, List.mem_append, assign_mem_clauseSteps cs, assign_mem_otherwiseSteps o, ← assignsTo_append]
    simp [AssignsTo, Stmt.nested]
  | .whileLoop _ _ b => by
    rw [stmtSteps, mem_enclosed, assign_mem_blockSteps b]
    simp [AssignsTo, Stmt.nested]
  | .forEach _ v _ b => by
    rw [stmtSteps, mem_enclosed, List.mem_append, or_iff_right not_mem_declarations, assign_mem_blockSteps b]
    simp [AssignsTo, Stmt.nested]
  | .matchOn _ _ as o => by
    rw [stmtSteps, List.mem_cons, or_iff_right nofun, List.mem_append, assign_mem_armSteps as,
      assign_mem_otherwiseSteps o, ← assignsTo_append]
    simp [AssignsTo, Stmt.nested]
theorem assign_mem_clauseSteps : ∀ cs : List Clause, .assign n x ∈ clauseSteps cs ↔ AssignsTo n x (Stmt.clauseStmts cs)
  | [] => by simp [clauseSteps, AssignsTo, Stmt.clauseStmts]
  | ⟨_, b⟩ :: cs => by
    rw [clauseSteps, List.mem_append, mem_enclosed, assign_mem_blockSteps b, assign_mem_clauseSteps cs,
      ← assignsTo_append]
    rfl
theorem assign_mem_armSteps : ∀ as : List Arm, .assign n x ∈ armSteps as ↔ AssignsTo n x (Stmt.armStmts as)
  | [] => by simp [armSteps, AssignsTo, Stmt.armStmts]
  | ⟨p, b⟩ :: as => by
    rw [armSteps, List.mem_append, mem_enclosed, List.mem_append, or_iff_right not_mem_declarations,
      assign_mem_blockSteps b, assign_mem_armSteps as, ← assignsTo_append]
    rfl
theorem assign_mem_otherwiseSteps : ∀ o : Option (List Stmt),
    .assign n x ∈ otherwiseSteps o ↔ AssignsTo n x (Stmt.otherwiseStmts o)
  | none => by simp [otherwiseSteps, AssignsTo, Stmt.otherwiseStmts]
  | some b => by
    rw [otherwiseSteps, mem_enclosed, assign_mem_blockSteps b]
    rfl
theorem assign_mem_blockSteps : ∀ b : List Stmt, .assign n x ∈ blockSteps b ↔ AssignsTo n x (Stmt.blockStmts b)
  | [] => by simp [blockSteps, AssignsTo, Stmt.blockStmts]
  | s :: ss => by
    rw [blockSteps, List.mem_append, assign_mem_stmtSteps s, assign_mem_blockSteps ss, ← assignsTo_append]
    rfl
end

theorem mem_targets_iff (w : Writer (List String)) (es : List Step) :
    (∃ u ∈ targets w es, u.node = n ∧ u.name = x) ↔ .assign n x ∈ es := by
  induction es generalizing w with
  | nil => simp [targets]
  | cons e es ih =>
    cases e with
    | names op => simpa [targets] using ih _
    | assign m y =>
      rw [targets, List.exists_mem_cons_iff, ih, List.mem_cons, Step.assign.injEq]
      exact or_congr_left (and_congr eq_comm eq_comm)

end Assignments

end Gondola.Python
