import Gondola.Proofs.Code.PythonSteps
import Gondola.Proofs.Code.Resolution

/-! Globals of Python functions. The language takes a variable that is assigned in a function for a local one unless a
`global` line says otherwise. The line of a function names the variables of the top level that it assigns to, and what
the function binds for itself is spelled apart from all that it means at the top level. -/
namespace Gondola

variable {o : Ident} {n : Names} {x : Ident}

/-- The symbol stands for what is declared by the name `o`. -/
def TypeTable.Resolves (T : TypeTable) (n : Node) (o : Ident) : Prop :=
  n.id ∉ T.builtins ∧ T.declarationAt? n.id = some o

namespace FunctionDecl

/-- Somewhere in the function stands an assignment to what is declared by the name `o`. -/
def Assigns (T : TypeTable) (f : FunctionDecl) (o : Ident) : Prop :=
  ∃ sp n x e, .assign sp (.symbol n x) e ∈ Stmt.blockStmts f.body ∧ T.Resolves n o

/-- Somewhere in the function stands a symbol for what is declared by the name `o`. -/
def Mentions (T : TypeTable) (f : FunctionDecl) (o : Ident) : Prop :=
  ∃ s ∈ Stmt.blockStmts f.body, ∃ e ∈ s.exprs, ∃ n x, (n, x) ∈ e.symbols ∧ T.Resolves n o

end FunctionDecl

section Mentions

open Typing

variable {T : TypeTable} {f : FunctionDecl} {t : Ty} {Γ : Env} {xs tops : List Ident}

/-- What a function means at the top level is visible there, and hidden by none of its parameters. -/
theorem Typing.FunctionTyped.visible_of_mentions (hf : FunctionTyped T Γ f t) (hΓ : Extends xs [] Γ)
    (hown : ∀ x ∈ f.binders, x ∉ tops) (ho : o ∈ tops) (h : f.Mentions T o) :
    o ∈ xs ++ [f.name] ∧ ∀ b ∈ f.params, b.name.name ≠ o.name := by
  obtain ⟨s, hs, e, he, n, x, hsymbol, hb, hd⟩ := h
  cases hf with
  | @mk ts r hts _ _ hbody =>
    obtain ⟨Δ, hstands⟩ := stands_block hbody hs
    have hany : Keeps T (fun _ => True) (fun _ _ => True) := ⟨by simp, by simp, by simp, by simp, by simp⟩
    obtain ⟨-, -, Δ', htyped⟩ := hstands.typed hany hbody (fun _ _ => trivial) trivial
    cases (htyped.wellTyped he).symbol hsymbol with
    | builtin _ _ _ hbuiltin => exact absurd hbuiltin hb
    | @declared _ _ d hx _ horigin _ =>
      obtain rfl := Option.some.inj (horigin.symm.trans hd)
      -- Neither the body nor the parameters declare it, so that it was visible before them.
      have hstart := hstands.extends.lookup hx fun hin => hown _ (List.mem_append_right _ hin) ho
      have hbefore := (extends_declareAll ..).lookup hstart fun hin => hown _ (List.mem_append_left _ hin) ho
      obtain ⟨hname, hin⟩ := (hΓ.append (extends_declare ..)).of_lookup hbefore
      refine ⟨hin, fun b hb heq => ?_⟩
      have hlen : (f.params.map Binding.name).length = ts.length := by
        rw [← hts.length_eq, List.length_map, List.length_map]
      obtain ⟨d', hd', hparam⟩ := lookup_declareAll hlen (List.mem_map_of_mem hb)
      rw [heq, ← hname, hstart] at hd'
      obtain rfl := Option.some.inj hd'
      exact hown _ (List.mem_append_left _ hparam) ho

end Mentions

namespace Python

section Inside

/-- In a function, the globals are the bindings with origins at the top level, and they keep their names. -/
structure Inside (tops : List Ident) (n : Names) : Prop where
  inFunction : n.inFunction = true
  space : n.space = Python.space
  global : ∀ e ∈ n.entries, e.2.global = true ↔ e.2.origin ∈ tops
  text : ∀ e ∈ n.entries, e.2.global = true → e.2.text = Python.space.ident e.2.origin.name

variable {tops bs : List Ident}

theorem Inside.insert {m : Names} (h : Inside tops n) (hx : x ∉ tops) (text : String)
    (hm : m.inFunction = n.inFunction) (hspace : m.space = n.space) (hentries : m.entries = n.entries) :
    Inside tops (m.insert x text) := by
  have hlocal : (!m.inFunction) = false := by rw [hm, h.inFunction]; rfl
  refine ⟨?_, (Names.space_insert ..).trans (hspace.trans h.space), fun e he => ?_, fun e he hg => ?_⟩
  · rw [← h.inFunction, ← hm]
    unfold Names.insert
    dsimp only
    split <;> rfl
  · rw [Names.entries_insert, hentries, hlocal] at he
    rcases List.mem_cons.mp he with rfl | he
    · exact ⟨nofun, fun hin => absurd hin hx⟩
    · exact h.global e he
  · rw [Names.entries_insert, hentries, hlocal] at he
    rcases List.mem_cons.mp he with rfl | he
    · cases hg
    · exact h.text e he hg

theorem Inside.declare (h : Inside tops n) (hx : x ∉ tops) : Inside tops (n.declare x).2 := by
  unfold Names.declare
  split
  · exact h.insert hx _ rfl rfl rfl
  · exact h.insert hx _ rfl rfl rfl

theorem Inside.leave (h : Inside tops n) : Inside tops n.leave := by
  have hsub := Names.entries_leave_subset n
  have hrest : n.leave.inFunction = n.inFunction ∧ n.leave.space = n.space := by
    unfold Names.leave
    split <;> exact ⟨rfl, rfl⟩
  exact ⟨hrest.1.trans h.inFunction, hrest.2.trans h.space, fun e he => h.global e (hsub he),
    fun e he => h.text e (hsub he)⟩

theorem kept_inside (hbs : ∀ x ∈ bs, x ∉ tops) : Kept bs (Inside tops) where
  enter _ h := ⟨h.inFunction, h.space, h.global, h.text⟩
  leave _ h := h.leave
  temp _ _ h := ⟨h.inFunction, h.space, h.global, h.text⟩
  declare _ x hx h := h.declare (hbs x hx)

theorem Inside.global_iff (h : Inside tops n) {x : String} {s : Spelling} (hs : n.lookup? x = some s) :
    (n.isGlobalFromFunction x = true ↔ s.origin ∈ tops) ∧
      (s.origin ∈ tops → n.spell x = Python.space.ident s.origin.name) := by
  have hin := Names.mem_entries_of_lookup? hs
  have hglobal := h.global (x, s) hin
  rw [Names.isGlobalFromFunction, h.inFunction, Bool.true_and, hs, Option.any_some, Names.spell, hs]
  exact ⟨hglobal, fun ho => h.text (x, s) hin (hglobal.mpr ho)⟩

end Inside

/-! A function, with the steps that its parameters and its body take. -/
section Function

/-- The operations on names by which the parameters and the body of a function are written. -/
def localOps (f : FunctionDecl) : List Names.Op :=
  f.params.map (fun b => .param b.name) ++ ops (blockSteps f.body)

def functionOps (f : FunctionDecl) : List Names.Op :=
  .declare f.name :: .enterFunction :: (localOps f ++ [.leaveFunction])

def itemOps : Item → List Names.Op
  | .function _ f => functionOps f
  | .stmt s => ops (stmtSteps s)

def globalLines (globals : List String) : List Line :=
  match globals with
  | [] => []
  | _ => [.at0 ("global " ++ commaSeparated globals)]

def bodyStart (f : FunctionDecl) (w : Writer (List String)) : Writer (List String) :=
  { w with names := ((w.names.declare f.name).2.enterFunction).after (f.params.map fun b => .param b.name) }

theorem after_functionOps (f : FunctionDecl) (w : Writer (List String)) :
    w.names.after (functionOps f) = ((bodyStart f w).names.after (ops (blockSteps f.body))).leaveFunction := by
  have hlocal := after_append_ops (w.names.declare f.name).2.enterFunction
    (f.params.map fun b => .param b.name) (ops (blockSteps f.body))
  have hleave := after_append_ops (w.names.declare f.name).2.enterFunction (localOps f) [.leaveFunction]
  exact hleave.trans (congrArg Names.leaveFunction hlocal)

theorem params_eq (xs : List Ident) (w : Writer (List String)) :
    (Emit.params xs w : Fragment Helper _).value =
      (xs.map fun x => w.names.space.ident x.name, { w with names := w.names.after (xs.map .param) }) ∧
    (Emit.params xs w : Fragment Helper _).uses = [] := by
  induction xs generalizing w with
  | nil => exact ⟨rfl, rfl⟩
  | cons x xs ih =>
    obtain ⟨hvalue, huses⟩ := ih { w with names := (w.names.param x).2 }
    have hspace : (w.names.param x).2.space = w.names.space := Names.space_insert ..
    constructor
    · show ((w.names.param x).1 :: (Emit.params xs { w with names := (w.names.param x).2 }).value.1,
        (Emit.params xs { w with names := (w.names.param x).2 }).value.2) = _
      rw [hvalue, hspace]
      rfl
    · show [] ++ ((Emit.params xs { w with names := (w.names.param x).2 }).uses ++ []) = []
      rw [huses]
      rfl

theorem function_eq (T : TypeTable) (f : FunctionDecl) (w : Writer (List String)) :
    (function T f w).value.1 =
      .at0 ("def " ++ callCode (w.names.declare f.name).1
          (f.params.map fun b => w.names.space.ident b.name.name) ++ ":") ::
        (indented (globalLines (after (bodyStart f w) (blockSteps f.body)).extra ++
          (block T f.body (bodyStart f w)).value.1) ++ [.at0 ""]) ∧
    (function T f w).value.2 = ⟨w.names.after (functionOps f), []⟩ ∧
    (function T f w).uses = (block T f.body (bodyStart f w)).uses := by
  have hspace : (w.names.declare f.name).2.enterFunction.space = w.names.space :=
    Names.space_after w.names [.declare f.name]
  -- The parameters get a name of their own here, for otherwise they would be unfolded with the body.
  obtain ⟨params, hp⟩ : ∃ m, m = (Emit.params (f.params.map Binding.name)
    { w with names := (w.names.declare f.name).2.enterFunction } : Fragment Helper _) := ⟨_, rfl⟩
  obtain ⟨hvalue, hquiet⟩ := params_eq (f.params.map Binding.name)
    { w with names := (w.names.declare f.name).2.enterFunction }
  rw [← hp, List.map_map, List.map_map, hspace] at hvalue
  rw [← hp] at hquiet
  have htexts : params.value.1 = f.params.map fun b => w.names.space.ident b.name.name := congrArg Prod.fst hvalue
  have hstart : params.value.2 = bodyStart f w := congrArg Prod.snd hvalue
  have hstate := (follows_block (T := T) f.body).state (bodyStart f w)
  refine ⟨?_, ?_, ?_⟩
  · rw [← hstate, ← hstart, ← htexts, hp]
    rfl
  · have hnames : (function T f w).value.2 = ⟨(block T f.body params.value.2).value.2.names.leaveFunction, []⟩ := by
      rw [hp]
      rfl
    rw [hnames, hstart, hstate, names_after, after_functionOps]
  · have huses : (function T f w).uses = [] ++ ([] ++ (params.uses ++ ((block T f.body params.value.2).uses ++ []) ++
        ([] ++ [])) ++ ([] ++ [])) := by
      rw [hp]
      rfl
    rw [huses, hstart, hquiet]
    simp

theorem bodyStart_scopes (f : FunctionDecl) (w : Writer (List String)) {top : List (String × Spelling)}
    {rest : List (List (String × Spelling))} (hw : (w.names.declare f.name).2.scopes = top :: rest) :
    ∃ params, (bodyStart f w).names.scopes = params :: top :: rest := by
  have hparams (bs : List Binding) {n : Names} {inner : List (String × Spelling)}
      (hn : n.scopes = inner :: top :: rest) :
      ∃ inner', (n.after (bs.map fun b => .param b.name)).scopes = inner' :: top :: rest := by
    induction bs generalizing n inner with
    | nil => exact ⟨inner, hn⟩
    | cons b bs ih =>
      obtain ⟨s, -, hs⟩ := Names.param_scopes hn b.name
      exact ih hs
  exact hparams f.params (congrArg (List.cons []) hw)

variable {T : TypeTable} {f : FunctionDecl} {w : Writer (List String)} {tops : List Ident}

/-- The globals that a function declares are the variables of the top level that it assigns to. -/
theorem mem_globals (hw : w.extra = []) (hstart : Inside tops (bodyStart f w).names)
    (hown : ∀ x ∈ f.binders, x ∉ tops) (huses : (function T f w).All (Use.Resolved T)) (text : String) :
    text ∈ (after (bodyStart f w) (blockSteps f.body)).extra ↔
      ∃ o ∈ tops, f.Assigns T o ∧ text = space.ident o.name := by
  have hfollows := follows_block (T := T) f.body
  have hbody : ∀ x ∈ Stmt.blockBinders f.body, x ∉ tops := fun x hx => hown x (List.mem_append_right _ hx)
  obtain ⟨-, hinside⟩ := hfollows.level.keeps (kept_inside hbody) hstart
  have hresolved : ∀ u ∈ targets (bodyStart f w) (blockSteps f.body), u.Resolved T := by
    intro u hu
    apply huses
    rw [(function_eq T f w).2.2]
    exact hfollows.uses _ u hu
  have hextra : (bodyStart f w).extra = [] := hw
  rw [mem_extra_after, hextra, or_iff_right List.not_mem_nil]
  constructor
  · rintro ⟨u, hu, hglobal, rfl⟩
    have hr := hresolved u hu
    rw [Use.Resolved] at hr
    split at hr
    · -- A built-in has no binding, and is no global.
      rw [Names.isGlobalFromFunction, hr] at hglobal
      simp at hglobal
    · rename_i hb
      obtain ⟨s, hs, hd⟩ := hr
      obtain ⟨hiff, hspell⟩ := (hinside u hu).global_iff hs
      have ho := hiff.mp hglobal
      -- The step is one of the body, and what the name stands for there is what checking has recorded.
      obtain ⟨sp, e, hassign⟩ := (assign_mem_blockSteps f.body).mp ((mem_targets_iff _ _).mp ⟨u, hu, rfl, rfl⟩)
      exact ⟨s.origin, ho, ⟨sp, u.node, u.name, e, hassign, hb, hd⟩, hspell ho⟩
  · rintro ⟨o, ho, ⟨sp, n, x, e, hassign, hb, hd⟩, rfl⟩
    have hstep := (assign_mem_blockSteps f.body).mpr ⟨sp, e, hassign⟩
    obtain ⟨u, hu, rfl, rfl⟩ := (mem_targets_iff (bodyStart f w) _).mpr hstep
    have hr := hresolved u hu
    rw [Use.Resolved, if_neg hb] at hr
    obtain ⟨s, hs, hd'⟩ := hr
    obtain rfl := Option.some.inj (hd.symm.trans hd')
    obtain ⟨hiff, hspell⟩ := (hinside u hu).global_iff hs
    exact ⟨u, hu, hiff.mpr ho, (hspell ho).symm⟩

theorem returned_params {bs : List Binding} {r : Names.Returned}
    (hr : r ∈ n.returned (bs.map fun b => .param b.name)) : ∃ b ∈ bs, r.form = .plain b.name.name := by
  induction bs generalizing n with
  | nil => cases hr
  | cons b bs ih =>
    rcases List.mem_cons.mp hr with rfl | hr
    · exact ⟨b, List.mem_cons_self, rfl⟩
    · obtain ⟨c, hc, hform⟩ := ih hr
      exact ⟨c, List.mem_cons_of_mem _ hc, hform⟩

/-- A name that a function binds is spelled apart from all at the top level that is visible in the function and
not hidden by a parameter. -/
theorem apart_of_visible (hspace : w.names.space = space) {top : List (String × Spelling)}
    {rest : List (List (String × Spelling))} (hw : (w.names.declare f.name).2.scopes = top :: rest)
    (ho : o.name ∈ top.map Prod.fst) (hparams : ∀ b ∈ f.params, b.name.name ≠ o.name) {r : Names.Returned}
    (hr : r ∈ (w.names.after [.declare f.name, .enterFunction]).returned (localOps f)) :
    r.text ≠ space.ident o.name := by
  have htext := (Names.mem_returned hr).1
  rw [Names.space_after, hspace] at htext
  intro heq
  -- Only an unchanged name is spelled like a name: renamed ones and temporaries have spellings of their own.
  have hform : r.form = .plain o.name := by
    rw [htext] at heq
    exact ((Form.text_eq_iff .python r.form (.plain o.name)).mp heq).resolve_right nofun
  rw [localOps, returned_append] at hr
  rcases List.mem_append.mp hr with hr | hr
  · obtain ⟨b, hb, hplain⟩ := returned_params hr
    exact hparams b hb (Form.plain.inj (hplain.symm.trans hform))
  · -- In the body a name stays unchanged only if nothing in view has it.
    obtain ⟨params, hscopes⟩ := bodyStart_scopes f w hw
    apply (follows_block (T := {}) f.body).level.plain hscopes hr hform
    rw [List.flatten_cons, List.flatten_cons, List.map_append, List.map_append]
    exact List.mem_append_right _ (List.mem_append_left _ ho)

end Function

/-! The top level, where every name keeps its spelling. -/
section TopLevel

variable {T : TypeTable} {xs : List Ident} {w : Writer (List String)}

/-- How a declaration at the top level is bound. -/
def topBinding (x : Ident) : String × Spelling := (x.name, ⟨space.ident x.name, true, x⟩)

/-- Writing has come to a point at the top level after the declarations `xs`. -/
structure AtTop (xs : List Ident) (w : Writer (List String)) : Prop where
  extra : w.extra = []
  space : w.names.space = Python.space
  outside : w.names.inFunction = false
  scopes : w.names.scopes = [xs.reverse.map topBinding]

theorem AtTop.lookup?_eq_none (h : AtTop xs w) (hx : x.name ∉ xs.map Ident.name) : w.names.lookup? x.name = none := by
  rw [Names.lookup?_eq, Names.entries, h.scopes, List.flatten_singleton, List.lookup_eq_none_iff]
  intro e he
  obtain ⟨y, hy, rfl⟩ := List.mem_map.mp he
  rw [bne_iff_ne]
  rintro heq
  exact hx (List.mem_map.mpr ⟨y, List.mem_reverse.mp hy, heq.symm⟩)

theorem AtTop.declare (h : AtTop xs w) (hx : x.name ∉ xs.map Ident.name) :
    (w.names.declare x).1 = Python.space.ident x.name ∧
      AtTop (xs ++ [x]) { w with names := (w.names.declare x).2 } := by
  have hnone := h.lookup?_eq_none hx
  have hdeclare : w.names.declare x = (Python.space.ident x.name, w.names.insert x (Python.space.ident x.name)) := by
    rw [Names.declare, hnone, h.space]
  rw [hdeclare]
  refine ⟨rfl, h.extra, (Names.space_insert ..).trans h.space, ?_, ?_⟩
  · rw [← h.outside]
    unfold Names.insert
    dsimp only
    split <;> rfl
  · show (w.names.insert x _).scopes = _
    rw [Names.insert_scopes h.scopes, h.outside, List.reverse_append]
    rfl

theorem kept_outside (bs : List Ident) : Kept bs fun n => n.inFunction = false where
  enter _ h := h
  leave n h := by
    unfold Names.leave
    split <;> exact h
  temp _ _ h := h
  declare n x _ h := by
    unfold Names.declare Names.insert
    dsimp only
    split <;> split <;> exact h

theorem AtTop.closed (h : AtTop xs w) {bs : List Ident} {es : List Step} (hl : Level bs [] es) :
    AtTop xs (after w es) := by
  obtain ⟨houtside, htargets⟩ := hl.keeps (kept_outside bs) h.outside
  refine ⟨?_, ?_, houtside, ?_⟩
  · apply List.eq_nil_iff_forall_not_mem.mpr
    intro text htext
    rw [mem_extra_after, h.extra] at htext
    obtain hnil | ⟨u, hu, hglobal, -⟩ := htext
    · cases hnil
    · rw [Names.isGlobalFromFunction, htargets u hu] at hglobal
      cases hglobal
  · rw [names_after, Names.space_after]
    exact h.space
  · obtain ⟨added, hadded, hlen⟩ := hl.scopes h.scopes
    obtain rfl := List.eq_nil_of_length_eq_zero hlen
    rw [names_after]
    exact hadded

theorem AtTop.stmt (h : AtTop xs w) (s : Stmt) (hn : ((xs ++ s.declares).map Ident.name).Nodup) :
    AtTop (xs ++ s.declares) (Python.stmt T s w).value.2 := by
  have hfollows := follows_stmt (T := T) s
  -- A declared name is none of those before.
  have hnew : ∀ x ∈ s.declares, x.name ∉ xs.map Ident.name := by
    intro x hx hin
    rw [List.map_append] at hn
    exact (List.nodup_append.mp hn).2.2 _ hin _ (List.mem_map_of_mem hx) rfl
  rw [hfollows.state w]
  cases s with
  | letVar _ x | struct _ d | enum _ d => exact (h.declare (hnew _ List.mem_cons_self)).2
  | assign | ret | expr | ifElse | whileLoop | forEach | matchOn =>
    rw [Stmt.declares, List.append_nil]
    exact h.closed hfollows.level

theorem AtTop.function (h : AtTop xs w) {f : FunctionDecl} (hf : f.name.name ∉ xs.map Ident.name) :
    AtTop (xs ++ [f.name]) (Python.function T f w).value.2 := by
  obtain ⟨-, hdeclared⟩ := h.declare hf
  rw [(function_eq T f w).2.1]
  refine ⟨rfl, (Names.space_after ..).trans h.space, ?_, ?_⟩
  · rw [after_functionOps]
    rfl
  · obtain ⟨params, hstart⟩ := bodyStart_scopes f w hdeclared.scopes
    obtain ⟨added, hend, -⟩ := (follows_block (T := T) f.body).level.scopes hstart
    rw [after_functionOps]
    exact Names.leave_scopes hend

theorem itemLines_append (T : TypeTable) (is js : List Item) (w : Writer (List String)) :
    (itemLines T (is ++ js) w).value = ((itemLines T is w).value.1 ++
      (itemLines T js (itemLines T is w).value.2).value.1, (itemLines T js (itemLines T is w).value.2).value.2) := by
  induction is generalizing w with
  | nil => rfl
  | cons i is ih =>
    have h := ih (item T i w).value.2
    show ((item T i w).value.1 ++ (itemLines T (is ++ js) (item T i w).value.2).value.1,
      (itemLines T (is ++ js) (item T i w).value.2).value.2) = _
    rw [h, ← List.append_assoc]
    rfl

theorem AtTop.items (h : AtTop xs w) (is : List Item)
    (hn : ((xs ++ is.flatMap Item.declares).map Ident.name).Nodup) :
    AtTop (xs ++ is.flatMap Item.declares) (itemLines T is w).value.2 ∧
      (itemLines T is w).value.2.names = w.names.after (is.flatMap itemOps) := by
  induction is generalizing xs w with
  | nil =>
    rw [List.flatMap_nil, List.append_nil]
    exact ⟨h, rfl⟩
  | cons i is ih =>
    rw [List.flatMap_cons, ← List.append_assoc] at hn ⊢
    have hfirst : ((xs ++ i.declares).map Ident.name).Nodup := by
      rw [List.map_append] at hn
      exact (List.nodup_append.mp hn).1
    have hitem : AtTop (xs ++ i.declares) (item T i w).value.2 ∧
        (item T i w).value.2.names = w.names.after (itemOps i) := by
      cases i with
      | function sp f =>
        refine ⟨h.function ?_, congrArg Writer.names (function_eq T f w).2.1⟩
        rw [List.map_append] at hfirst
        exact fun hin => (List.nodup_append.mp hfirst).2.2 _ hin _ (List.mem_cons_self) rfl
      | stmt s =>
        refine ⟨h.stmt s hfirst, ?_⟩
        show (Python.stmt T s w).value.2.names = _
        rw [(follows_stmt s).state w, names_after]
        rfl
    obtain ⟨hat, hnames⟩ := ih hitem.1 hn
    refine ⟨hat, hnames.trans ?_⟩
    rw [hitem.2, List.flatMap_cons, after_append_ops]

open Typing in
theorem writes_before {Γ : Env} {before rest : List Item} (h : ItemsTyped T Γ (before ++ rest)) :
    ∃ Δ, Writes id T omitsNothing Γ Δ (itemLines T before)
        (itemLines (T.mapSpan id) (before.map (Item.mapSpan id))) ∧ Extends (before.flatMap Item.declares) Γ Δ ∧
      ItemsTyped T Δ rest := by
  induction before generalizing Γ with
  | nil => exact ⟨Γ, .pure _, .refl _ _, h⟩
  | cons i before ih =>
    cases h with
    | function hf his =>
      obtain ⟨Δ, hw, he, hrest⟩ := ih his
      exact ⟨Δ, (writes_function hf).bind fun _ => hw.bind fun _ => .pure _, (extends_declare ..).append he, hrest⟩
    | stmt hs his =>
      obtain ⟨Δ, hw, he, hrest⟩ := ih his
      exact ⟨Δ, (writes_stmt hs).bind fun _ => hw.bind fun _ => .pure _, hs.extends.append he, hrest⟩

theorem AtTop.inside {tops : List Ident} {f : FunctionDecl}
    (h : AtTop xs { w with names := (w.names.declare f.name).2 }) (hsub : xs ⊆ tops)
    (hparams : ∀ b ∈ f.params, b.name ∉ tops) : Inside tops (bodyStart f w).names := by
  have hglobal : ∀ e ∈ (w.names.declare f.name).2.entries, ∃ x ∈ tops, e = topBinding x := by
    intro e he
    have hscopes : (w.names.declare f.name).2.scopes = _ := h.scopes
    rw [Names.entries, hscopes, List.flatten_singleton] at he
    obtain ⟨x, hx, rfl⟩ := List.mem_map.mp he
    exact ⟨x, hsub (List.mem_reverse.mp hx), rfl⟩
  have hstart : Inside tops (w.names.declare f.name).2.enterFunction := by
    refine ⟨rfl, h.space, fun e he => ?_, fun e he _ => ?_⟩
    · obtain ⟨x, hx, rfl⟩ := hglobal e he
      exact iff_of_true rfl hx
    · obtain ⟨x, hx, rfl⟩ := hglobal e he
      rfl
  have hrun (bs : List Binding) (hbs : ∀ b ∈ bs, b.name ∉ tops) {n : Names} (hn : Inside tops n) :
      Inside tops (n.after (bs.map fun b => .param b.name)) := by
    induction bs generalizing n with
    | nil => exact hn
    | cons b bs ih =>
      obtain ⟨hb, hbs⟩ := List.forall_mem_cons.mp hbs
      exact ih hbs (hn.insert hb _ rfl rfl rfl)
  exact hrun f.params hparams hstart

theorem AtTop.lookup? (h : AtTop xs w) (hn : (xs.map Ident.name).Nodup) (ho : o ∈ xs) :
    w.names.lookup? o.name = some ⟨Python.space.ident o.name, true, o⟩ := by
  obtain ⟨l, l', hsplit⟩ := List.append_of_mem (List.mem_reverse.mpr ho)
  have hnodup : (xs.reverse.map Ident.name).Nodup := by
    rw [List.map_reverse]
    exact List.pairwise_reverse.mpr (hn.imp Ne.symm)
  rw [Names.lookup?_eq, Names.entries, h.scopes, List.flatten_singleton, List.lookup_eq_some_iff]
  refine ⟨l.map topBinding, l'.map topBinding, ?_, fun e he => ?_⟩
  · rw [hsplit, List.map_append, List.map_cons]
    rfl
  · obtain ⟨x, hx, rfl⟩ := List.mem_map.mp he
    rw [hsplit, List.map_append] at hnodup
    rw [bne_iff_ne]
    exact fun heq => (List.nodup_append.mp hnodup).2.2 _ (List.mem_map_of_mem hx) _ List.mem_cons_self heq.symm

end TopLevel

section Program

open Typing

variable {f : FunctionDecl}

/-- How a function is written where `w` is the state. It declares the globals that it assigns to, in the order of
their names. -/
structure Scoping (T : TypeTable) (tops : List Ident) (f : FunctionDecl) (w : Writer (List String))
    (globals : List String) : Prop where
  lines : (function T f w).value.1 =
    .at0 ("def " ++ callCode (space.ident f.name.name) (f.params.map fun b => space.ident b.name.name) ++ ":") ::
      (indented (globalLines globals ++ (block T f.body (bodyStart f w)).value.1) ++ [.at0 ""])
  sorted : globals.Pairwise (· < ·)
  assigned : ∀ text, text ∈ globals ↔ ∃ o ∈ tops, f.Assigns T o ∧ text = space.ident o.name
  /-- The names in scope at the end of the body come from operations that bind all names of the function. -/
  names : (block T f.body (bodyStart f w)).value.2.names =
    (w.names.after [.declare f.name, .enterFunction]).after (localOps f)
  bound : ∀ x ∈ f.binders, .param x ∈ localOps f ∨ .declare x ∈ localOps f
  /-- None of these names, and no temporary, is spelled like what the function means at the top level. -/
  apart : ∀ r ∈ (w.names.after [.declare f.name, .enterFunction]).returned (localOps f),
    ∀ o ∈ tops, f.Mentions T o → r.text ≠ space.ident o.name

theorem names_block (T : TypeTable) (f : FunctionDecl) (w : Writer (List String)) :
    (block T f.body (bodyStart f w)).value.2.names =
      (w.names.after [.declare f.name, .enterFunction]).after (localOps f) := by
  rw [(follows_block f.body).state, names_after, localOps, after_append_ops]
  rfl

theorem bound_of_mem_binders (hx : x ∈ f.binders) : .param x ∈ localOps f ∨ .declare x ∈ localOps f := by
  rcases List.mem_append.mp hx with hx | hx
  · obtain ⟨b, hb, rfl⟩ := List.mem_map.mp hx
    exact .inl (List.mem_append_left _ (List.mem_map.mpr ⟨b, hb, rfl⟩))
  · exact .inr (List.mem_append_right _ ((follows_block (T := {}) f.body).level.declares hx))

theorem AtTop.scoping {T : TypeTable} {xs tops : List Ident} {w : Writer (List String)} {t : Ty}
    {Γ : Env} (h : AtTop xs w) (hnew : f.name.name ∉ xs.map Ident.name) (hsub : xs ++ [f.name] ⊆ tops)
    (hown : ∀ x ∈ f.binders, x ∉ tops) (hf : FunctionTyped T Γ f t) (hΓ : Extends xs [] Γ)
    (huses : (Python.function T f w).All (Use.Resolved T)) : ∃ globals, Scoping T tops f w globals := by
  obtain ⟨hspelled, hdeclared⟩ := h.declare hnew
  have hinside : Inside tops (bodyStart f w).names :=
    hdeclared.inside hsub fun b hb => hown _ (List.mem_append_left _ (List.mem_map_of_mem hb))
  refine ⟨_, ?_, ?_, mem_globals h.extra hinside hown huses, names_block T f w, fun x => bound_of_mem_binders, ?_⟩
  · rw [(function_eq T f w).1, hspelled, h.space]
  · apply pairwise_extra_after
    rw [bodyStart, h.extra]
    exact .nil
  · intro r hr o ho hmentions
    obtain ⟨hvisible, hparams⟩ := hf.visible_of_mentions hΓ hown ho hmentions
    refine apart_of_visible h.space hdeclared.scopes ?_ hparams hr
    rw [List.map_map]
    exact List.mem_map.mpr ⟨o, List.mem_reverse.mpr hvisible, rfl⟩

theorem lines_function {T : TypeTable} {p : Program} {before after : List Item} {sp : Span}
    {w : Writer (List String)} (hf : p.items = before ++ .function sp f :: after)
    (hw : (itemLines T before ⟨{ space := space }, []⟩).value.2 = w) :
    ∃ ls ls', lines T p = ls ++ (function T f w).value.1 ++ ls' := by
  have hprogram : (Emit.run space [] (program T p)).value =
      (itemLines T (before ++ .function sp f :: after) ⟨{ space := space }, []⟩).value.1 := by
    rw [program, hf]
    cases before <;> rfl
  have hrest : (itemLines T (.function sp f :: after) w).value.1 =
      (function T f w).value.1 ++ (itemLines T after (function T f w).value.2).value.1 := rfl
  rw [lines, hprogram, itemLines_append, hw, hrest, ← List.append_assoc, ← List.append_assoc]
  exact ⟨_, _, rfl⟩

theorem atTop_start : AtTop [] ⟨{ space := space }, []⟩ := ⟨rfl, rfl, rfl, rfl⟩

/-- A function declares the variables of the top level that it assigns to as globals, and binds no name that is
spelled like one of the top level that it means. At the top level, every name keeps its spelling. -/
theorem globals_of_check {source : String} {p : Program} {T : TypeTable} (hp : parseProgram source = .ok p)
    (hc : p.check = .ok T) :
    (∀ o ∈ p.topLevel, ((Names.start .python).after (p.items.flatMap itemOps)).lookup? o.name =
      some ⟨space.ident o.name, true, o⟩) ∧
    ∀ before sp f after, p.items = before ++ .function sp f :: after → ∃ w ls ls' globals,
      w.names = (Names.start .python).after (before.flatMap itemOps) ∧
      lines T p = ls ++ (function T f w).value.1 ++ ls' ∧ Scoping T p.topLevel f w globals := by
  have hids := Parser.nodup_ids_of_parseProgram hp
  have hnames : (p.topLevel.map Ident.name).Nodup := Checker.topLevel_names_nodup hids hc
  constructor
  · intro o ho
    obtain ⟨hat, hend⟩ := atTop_start.items (T := T) p.items hnames
    rw [← hat.lookup? hnames ho, hend]
    rfl
  · intro before sp f after hf
    have htyped : ItemsTyped T [] (before ++ .function sp f :: after) := hf ▸ Checker.typed_of_check hids hc
    obtain ⟨Γ, hwrites, hΓ, hrest⟩ := writes_before htyped
    have hsplit : p.topLevel = before.flatMap Item.declares ++ f.name :: after.flatMap Item.declares := by
      rw [Program.topLevel, hf, List.flatMap_append]
      rfl
    -- No name is declared twice at the top level, so the one of the function is new there.
    rw [hsplit, List.map_append] at hnames
    obtain ⟨hbefore, -, hapart⟩ := List.nodup_append.mp hnames
    obtain ⟨hat, hstate⟩ := atTop_start.items (T := T) before hbefore
    obtain ⟨ls, ls', hlines⟩ := lines_function (T := T) hf rfl
    have hsub : before.flatMap Item.declares ++ [f.name] ⊆ p.topLevel := by
      rw [hsplit, List.append_cons _ f.name (after.flatMap Item.declares)]
      exact List.subset_append_left _ _
    -- A binder is told from another by its place. One of the function may be spelled like one at the top level.
    have hown : ∀ x ∈ f.binders, x ∉ p.topLevel :=
      fun x hx => FunctionDecl.binders_disjoint (Parser.binders_nodup hp) hf hx
    cases hrest with
    | function hfunction _ =>
      obtain ⟨top, hscopes, hmirrors⟩ := (hwrites ⟨{ space := space }, []⟩ [] [] rfl .nil).scopes
      have huses := (writes_function (σ := id) hfunction _ top [] hscopes hmirrors).uses
      have hnew : f.name.name ∉ (before.flatMap Item.declares).map Ident.name :=
        fun hin => hapart _ hin _ List.mem_cons_self rfl
      obtain ⟨globals, hscoping⟩ := hat.scoping hnew hsub hown hfunction hΓ huses
      exact ⟨_, ls, ls', globals, hstate, hlines, hscoping⟩

def isFunction (name : String) : Item → Bool
  | .function _ f => f.name.name == name
  | .stmt _ => false

/-- A variable of the top level is assigned to after a loop in which a local one hides it, another is hidden by a
parameter, and a function is assigned to in itself. -/
theorem globals_shadowing :
    ∃ p T, parseProgram "let x = 1; let y = 2; fn f(y: int) \x7b for i in [1] \x7b let x = i; x = 3; \x7d
        if true \x7b x = y; \x7d f = f; \x7d fn g() \x7b print(x) \x7d" = .ok p ∧ p.check = .ok T ∧
      ⟨1, "global f, x"⟩ ∈ lines T p ∧
      ∃ before sp f after, p.items = before ++ .function sp f :: after ∧ f.name.name = "f" ∧
        ∃ w globals, Scoping T p.topLevel f w globals := by
  refine exists_accepted (fun p T => ⟨1, "global f, x"⟩ ∈ lines T p ∧ ∃ i ∈ p.items, isFunction "f" i = true)
    (by decide +kernel) fun p T hp hc ⟨hline, i, hi, hname⟩ => ⟨hline, ?_⟩
  obtain ⟨before, after, hsplit⟩ := List.append_of_mem hi
  cases i with
  | stmt => cases hname
  | function sp f =>
    obtain ⟨w, _, _, globals, -, -, hscoping⟩ := (globals_of_check hp hc).2 before sp f after hsplit
    exact ⟨before, sp, f, after, hsplit, beq_iff_eq.mp hname, w, globals, hscoping⟩

end Program

end Python

end Gondola
