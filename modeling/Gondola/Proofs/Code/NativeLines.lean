import Gondola.Proofs.Code.NativeTypes
import Gondola.Proofs.Layout.Blocks
import Gondola.Proofs.Typing.Openly

/-! The lines of C programs. The directives that stop the C compiler are those of the types that are declared openly,
and of functions that were not checked. But for their definitions, the lines name no function types that the program
does not need. -/
namespace Gondola.Native

open Text

section Lines

/-- Whether the line is a directive that stops the C compiler. -/
def isError (l : Line) : Bool := "#error".toList.isPrefixOf l.text.toList

/-- Lines of some kind that lead from the one level to the other, and whether one of them stops the C compiler. -/
structure Shows (S : String → Prop) (a b : Nat) (error : Bool) (ls : List Line) : Prop where
  laid : Laid S a b ls
  any : ls.any isError = error

variable {S : String → Prop} {D : Typedef → Prop} {a b c : Nat} {e e' : Bool} {ls ms : List Line} {code head : String}

theorem Shows.free (h : Shows S a b e ls) : Shows Free a b e ls :=
  ⟨⟨fun l hl => ⟨h.laid.tidy l hl, True.intro⟩, h.laid.level⟩, h.any⟩

theorem shows_nil : Shows S a a false [] := ⟨laid_nil, rfl⟩

theorem Shows.append (h : Shows S a b e ls) (h' : Shows S b c e' ms) : Shows S a c (e || e') (ls ++ ms) := by
  refine ⟨h.laid.append h'.laid, ?_⟩
  rw [List.any_append, h.any, h'.any]

theorem Shows.indented (h : Shows S a b e ls) : Shows S (a + 1) (b + 1) e (indented ls) := by
  refine ⟨h.laid.indented, ?_⟩
  rw [Gondola.indented, List.any_map]
  exact h.any

theorem shows_line {l : Line} (h : Laid S a b [l]) : Shows S a b (isError l) [l] := by
  refine ⟨h, ?_⟩
  rw [List.any_cons, List.any_nil, Bool.or_false]

theorem isError_eq_false {l : Line} (h : l.text.toList.head? ≠ some '#') : isError l = false := by
  rw [isError]
  cases hl : l.text.toList with
  | nil => rfl
  | cons c cs =>
    rw [hl] at h
    have hc : '#' ≠ c := fun hhash => h (congrArg some hhash.symm)
    simp [List.isPrefixOf, hc]

theorem isError_of_isCode (h : IsCode code) (depth : Nat) : isError ⟨depth, code⟩ = false := by
  apply isError_eq_false
  intro hhash
  have hstart := h.2
  rw [startsCode, hhash] at hstart
  exact absurd hstart (by decide)

theorem shows_code (h : IsStatement code) (hs : S code) : Shows S 0 0 false [.at0 code] :=
  isError_of_isCode h.1 0 ▸ shows_line (laid_code h hs)

theorem shows_codes {codes : List String} (h : ∀ c ∈ codes, IsStatement c ∧ S c) :
    Shows S 0 0 false (codes.map Line.at0) := by
  induction codes with
  | nil => exact shows_nil
  | cons c cs ih =>
    obtain ⟨hc, hcs⟩ := List.forall_mem_cons.mp h
    exact (shows_code hc.1 hc.2).append (ih hcs)

theorem shows_blank (hs : S "") : Shows S a a false [.at0 ""] := shows_line (laid_blank hs)

theorem shows_include : Shows Free 0 0 false [.at0 "#include <venice.h>"] := by
  have htidy : (Line.at0 "#include <venice.h>").Tidy := by
    refine ⟨by decide, ?_⟩
    rintro _ ⟨⟩
    decide
  exact ⟨laid_line htidy (by decide) True.intro, by decide⟩

theorem shows_statement (h : Part D code) : Shows (Says D) 0 0 false [.at0 (code ++ ";")] :=
  shows_code h.statement.1 h.statement.2

theorem shows_errorLine {what : String} (h : isQuotable what.toList = true) :
    Shows (Says D) 0 0 true [errorLine what] := by
  have hwords : Says D (errorLine what).text := says_errorLine h
  have htext : ("#error \"" ++ what ++ "\"").toList =
      "#error".toList ++ (" \"".toList ++ what.toList ++ "\"".toList) := by
    simp only [String.toList_append]
    rfl
  have hhead : (errorLine what).text.toList.head? = some '#' := by
    rw [errorLine, Line.at0, htext]
    rfl
  have htidy : (errorLine what).Tidy := by
    refine ⟨hwords.line, ?_⟩
    intro c hc
    rw [hhead] at hc
    obtain rfl := Option.some.inj hc
    decide
  have hopens : (errorLine what).opens = false := by
    rw [Line.opens, errorLine, Line.at0, endsIn_append _ (by decide)]
    decide
  have hcloses : (errorLine what).closes = false := by
    rw [Line.closes, hhead]
    decide
  have hne : (errorLine what).text ≠ "" := by
    intro hempty
    rw [hempty] at hhead
    cases hhead
  have hline := laid_line htidy hne hwords
  rw [hopens, hcloses] at hline
  have herror : isError (errorLine what) = true := by
    rw [isError, errorLine, Line.at0, htext]
    exact List.isPrefixOf_iff_prefix.mpr (List.prefix_append ..)
  exact herror ▸ shows_line hline

theorem shows_openLine (h : Part D head) : Shows (Says D) 0 1 false [openLine head] := by
  have hcode : Part D (head ++ " \x7b") := h.close (by decide)
  exact isError_of_isCode hcode.isCode 0 ▸ shows_line (laid_openLine h)

theorem shows_closeLine : Shows (Says D) 1 0 false [closeLine] := shows_line laid_closeLine

theorem Shows.block (hhead : Part D head) (h : Shows (Says D) 0 0 e ls) :
    Shows (Says D) 0 0 e (blockLines head ls) := by
  have hlines := (shows_openLine hhead).append (h.indented.append shows_closeLine)
  rwa [Bool.or_false, Bool.false_or] at hlines

theorem shows_chainHead (first : Bool) (h : Part D code) :
    Shows (Says D) (chainLevel first) 1 false [openLine (chainHead first code)] := by
  have herror : isError (openLine (chainHead first code)) = false := by
    apply isError_eq_false
    cases first <;> simp [openLine, Line.at0, chainHead]
  exact herror ▸ shows_line (laid_chainHead first h)

theorem shows_else : Shows (Says D) 1 1 false [openLine "\x7d else"] := shows_line laid_else

end Lines

section Stmts

variable {D : Typedef → Prop} {T : TypeTable}

theorem emits_exprIn {e : Expr} (he : ∀ d ∈ e.parts, d.IsSpellable) (wanted : Option Ty) :
    Emits D (Part D) (Emit.render fun names => expr ⟨T, names⟩ e wanted) :=
  emits_render fun _ hn => given_expr hn e he wanted

theorem emits_typeCode (t : Ty) : Emits D (Part D) (typeCode t) := emits_render fun _ _ => given_cType t D

theorem emits_variableParts {x : Ident} {e : Expr} (hx : IsIdentifier x.name) (he : ∀ d ∈ e.parts, d.IsSpellable)
    (a : Option TypeExpr) :
    Emits D (fun r => Part D r.1 ∧ Part D r.2.1 ∧ Part D r.2.2) (variableParts T x a e) :=
  (emits_exprIn he _).bind fun _ => (emits_typeCode _).bind fun _ => (emits_declare hx).bind fun _ =>
    .pure fun hname htype hcode => ⟨htype, hname.part, hcode⟩

theorem emits_assignment {target value : Expr} (ht : ∀ d ∈ target.parts, d.IsSpellable)
    (he : ∀ d ∈ value.parts, d.IsSpellable) :
    Emits D (Shows (Says D) 0 0 false) (assignment T target value) := by
  unfold assignment
  split
  · rename_i b i
    have hb : ∀ d ∈ b.parts, d.IsSpellable := fun d hd =>
      ht d (List.mem_cons_of_mem _ (List.mem_append_left _ hd))
    have hi : ∀ d ∈ i.parts, d.IsSpellable := fun d hd =>
      ht d (List.mem_cons_of_mem _ (List.mem_append_right _ hd))
    refine (emits_exprIn hb none).bind fun base => (emits_exprIn hi none).bind fun place =>
      (emits_exprIn he none).bind fun code => ?_
    split
    · refine .pure fun hcode hplace hbase => shows_statement (Part.call (part_of_isPart (by decide)) ?_)
      simp only [List.forall_mem_cons]
      exact ⟨hbase, part_word hplace, part_word hcode, List.forall_mem_nil _⟩
    · refine .pure fun hcode hplace hbase => shows_statement (Part.call (part_of_isPart (by decide)) ?_)
      simp only [List.forall_mem_cons]
      exact ⟨hbase, hplace, part_word hcode, List.forall_mem_nil _⟩
  · exact .pure (shows_statement (part_unsupported _))
  · exact (emits_exprIn ht none).bind fun _ => (emits_exprIn he _).bind fun _ => .pure fun hcode hplace =>
      shows_statement ((hplace.mark (by decide)).append hcode)

theorem emits_loopVars {v : LoopVars} {type list counter : String} (hv : ∀ x ∈ v.names, IsIdentifier x.name) :
    Emits D (fun ls => Part D type → Part D list → Part D counter → Shows (Says D) 0 0 false ls)
      (loopVars v type list counter) := by
  obtain ⟨hindex, hitem⟩ := List.forall_mem_append.mp hv
  refine (emits_declareAll hindex).bind fun index => (emits_declare (hitem _ (List.mem_singleton_self _))).bind
    fun item => .pure fun hitem hindex htype hlist hcounter => ?_
  have hcopies : ∀ c ∈ index.map fun x => "venice_int_t " ++ x ++ " = " ++ counter ++ ";",
      IsStatement c ∧ Says D c := by
    refine List.forall_mem_map.mpr fun x hx => ?_
    have hlead : Leads D "venice_int_t " := leads_of_isLead (by decide)
    exact (((hlead.append (hindex x hx).part).mark (by decide)).append hcounter).statement
  have hindices := shows_codes hcopies
  rw [List.map_map] at hindices
  have hvalue : Part D (type ++ " " ++ item ++ " = VENICE_FROM_WORD(" ++ type ++ ", venice_list_index(" ++ list ++
      ", " ++ counter) :=
    (((((((htype.mark (by decide)).append hitem.part).mark (by decide)).append htype).mark (by decide)).append
      hlist).mark (by decide)).append hcounter
  exact hindices.append (shows_code (hvalue.isCode.statementBy (by decide)) (hvalue.toSays.closeBy (by decide)))

theorem emits_parameters {ps : List (Binding × Ty)} (h : ∀ p ∈ ps, IsIdentifier p.1.name.name) :
    Emits D (fun texts => ∀ t ∈ texts, Part D t) (parameters ps) := by
  induction ps with
  | nil => exact .pure (List.forall_mem_nil _)
  | cons p ps ih =>
    have hps := ih fun q hq => h q (List.mem_cons_of_mem _ hq)
    exact (emits_typeCode _).bind fun _ => (emits_param (h p List.mem_cons_self)).bind fun _ => hps.bind fun _ =>
      .pure fun hrest hname htype => List.forall_mem_cons.mpr ⟨(htype.mark (by decide)).append hname.part, hrest⟩

end Stmts

section Blocks

open Stmt

variable {D : Typedef → Prop} {T : TypeTable}

mutual
/-- A statement is written as lines at one level. One of them stops the C compiler if it declares a type openly. -/
theorem emits_stmt (r : Ty) : ∀ s : Stmt, s.IsSpellable → (∀ t ∈ s.nested, t.IsSpellable) →
    Emits D (Shows (Says D) 0 0 s.declaresOpenly) (stmt T r s)
  | .letVar _ x a e, hs, _ => (emits_variableParts (hs.names x List.mem_cons_self)
      (hs.exprs e List.mem_cons_self) a).bind fun _ => .pure fun hv =>
    shows_statement ((((hv.1.mark (by decide)).append hv.2.1).mark (by decide)).append hv.2.2)
  | .assign _ t e, hs, _ =>
    emits_assignment (hs.exprs t List.mem_cons_self) (hs.exprs e (List.mem_cons_of_mem _ List.mem_cons_self))
  | .ret _ none, _, _ => .pure (shows_code (by decide) (says_plain (by decide)))
  | .ret _ (some e), hs, _ => (emits_exprIn (hs.exprs e List.mem_cons_self) _).bind fun _ => .pure fun hcode =>
    shows_statement ((leads_of_isLead (by decide) : Leads D "return ").append hcode)
  | .expr _ e, hs, _ => (emits_exprIn (hs.exprs e List.mem_cons_self) _).bind fun _ => .pure fun hcode =>
    shows_statement hcode
  | .ifElse _ cs o, hs, hn => by
    have hcs := emits_clauses r true cs (fun c hc => hs.exprs _ (List.mem_map_of_mem hc))
      fun t ht => hn t (List.mem_append_left _ ht)
    have ho := emits_otherwise r o fun t ht => hn t (List.mem_append_right _ ht)
    -- The chain has a first link, which leaves a block open.
    have hempty : cs.isEmpty = false := by simpa [hasClause] using hs.clause
    rw [hempty] at hcs
    refine hcs.bind fun _ => ho.bind fun _ => .pure fun hlast hchain => ?_
    have hlines := (hchain.append hlast).append shows_closeLine
    rwa [Bool.or_false] at hlines
  | .whileLoop _ c b, hs, hn => by
    have hb := (emits_block r b hn).inScope
    exact (emits_exprIn (hs.exprs c List.mem_cons_self) none).bind fun _ => hb.bind fun _ => .pure fun hbody hcond =>
      hbody.block (part_around (by decide) hcond (by decide))
  | .forEach _ v e b, hs, hn => by
    refine (emits_typeCode _).bind fun type => (emits_exprIn (hs.exprs e List.mem_cons_self) none).bind fun code =>
      (emits_temp ⟨by decide, List.all_eq_true.mp (by decide)⟩).bind fun list =>
      (emits_temp ⟨by decide, List.all_eq_true.mp (by decide)⟩).bind fun counter => ?_
    -- The lines of the body use the two names that are made up, which come from outside of it.
    have hb : Emits D (fun ls => Part D type → Part D list → Part D counter →
        Shows (Says D) 0 0 (blockDeclares b) ls) (do
        let vars ← loopVars v type list counter
        let rest ← block T r b
        return vars ++ rest : Emit (List Line)) :=
      (emits_loopVars hs.names).bind fun _ => (emits_block r b hn).bind fun _ => .pure
        fun hrest hvars htype hlist hcounter => (hvars htype hlist hcounter).append hrest
    refine hb.inScope.bind fun _ => .pure fun hbody hcounter hlist hcode htype => ?_
    have hlead : Leads D "venice_list_t* " := leads_of_isLead (by decide)
    exact (shows_statement (((hlead.append hlist.part).mark (by decide)).append hcode)).append
      ((hbody htype hlist.part hcounter.part).block (part_loopHead hlist.part hcounter.part))
  | .matchOn .., _, _ => .pure (shows_statement (part_unsupported _))
  | .struct _ d, hs, _ | .enum _ d, hs, _ => by
    have hname := (hs.names d.name List.mem_cons_self).isWord
    exact .pure (shows_errorLine (isQuotable_between (by decide) hname (by decide)))
theorem emits_clauses (r : Ty) (first : Bool) : ∀ cs : List Clause,
    (∀ c ∈ cs, ∀ d ∈ c.cond.parts, d.IsSpellable) → (∀ t ∈ clauseStmts cs, t.IsSpellable) →
    Emits D (Shows (Says D) (chainLevel first) (chainLevel (first && cs.isEmpty)) (clausesDeclare cs))
      (clauses T r first cs)
  | [], _, _ => by
    rw [List.isEmpty_nil, Bool.and_true]
    exact .pure shows_nil
  | ⟨c, b⟩ :: cs, hcs, hn => by
    have hb := (emits_block r b fun t ht => hn t (List.mem_append_left _ ht)).inScope
    have hrest := emits_clauses r false cs (fun c hc => hcs c (List.mem_cons_of_mem _ hc))
      fun t ht => hn t (List.mem_append_right _ ht)
    rw [List.isEmpty_cons, Bool.and_false]
    exact (emits_exprIn (hcs ⟨c, b⟩ List.mem_cons_self) none).bind fun _ => hb.bind fun _ => hrest.bind fun _ =>
      .pure fun hlines hbody hcond => (shows_chainHead first hcond).append (hbody.indented.append hlines)
theorem emits_otherwise (r : Ty) : ∀ o : Option (List Stmt), (∀ t ∈ otherwiseStmts o, t.IsSpellable) →
    Emits D (Shows (Says D) 1 1 (otherwiseDeclares o)) (otherwise T r o)
  | none, _ => .pure shows_nil
  | some b, hn => (emits_block r b hn).inScope.bind fun _ => .pure fun hbody => shows_else.append hbody.indented
theorem emits_block (r : Ty) : ∀ b : List Stmt, (∀ t ∈ blockStmts b, t.IsSpellable) →
    Emits D (Shows (Says D) 0 0 (blockDeclares b)) (block T r b)
  | [], _ => .pure shows_nil
  | s :: ss, hn => by
    have hs := emits_stmt r s (hn s List.mem_cons_self) fun t ht =>
      hn t (List.mem_cons_of_mem _ (List.mem_append_left _ ht))
    have hss := emits_block r ss fun t ht =>
      hn t (List.mem_cons_of_mem _ (List.mem_append_right _ ht))
    exact hs.bind fun _ => hss.bind fun _ => .pure fun hrest hfirst => hfirst.append hrest
end

end Blocks

section Program

/-- Sections of code and of lines at one level, and whether one of the lines stops the C compiler. -/
structure Sections.Show (S : String → Prop) (error : Bool) (s : Sections) : Prop where
  prototypes : ∀ t ∈ s.prototypes, IsStatement t ∧ S t
  globals : ∀ t ∈ s.globals, IsStatement t ∧ S t
  lines : ∃ a b, Shows S 0 0 a s.functions ∧ Shows S 0 0 b s.main ∧ (a || b) = error

/-- Whether an item of a program stops the C compiler. A function that was not checked does. -/
def stops (T : TypeTable) : Item → Bool
  | .function _ f => (T.function? f.name.name).isNone || Stmt.blockDeclares f.body
  | .stmt s => s.declaresOpenly

variable {S : String → Prop} {D : Typedef → Prop} {T : TypeTable} {a b : Bool} {ls : List Line}

theorem Sections.Show.append {s t : Sections} (h : s.Show S a) (h' : t.Show S b) : (s.append t).Show S (a || b) where
  prototypes := List.forall_mem_append.mpr ⟨h.prototypes, h'.prototypes⟩
  globals := List.forall_mem_append.mpr ⟨h.globals, h'.globals⟩
  lines := by
    obtain ⟨a, b, hfunctions, hmain, rfl⟩ := h.lines
    obtain ⟨a', b', hfunctions', hmain', rfl⟩ := h'.lines
    exact ⟨_, _, hfunctions.append hfunctions', hmain.append hmain', by ac_rfl⟩

theorem Shows.inFunctions (h : Shows S 0 0 a ls) {prototypes : List String}
    (hp : ∀ t ∈ prototypes, IsStatement t ∧ S t) : Sections.Show S a { prototypes := prototypes, functions := ls } :=
  ⟨hp, List.forall_mem_nil _, a, false, h, shows_nil, Bool.or_false a⟩

theorem Shows.inMain (h : Shows S 0 0 a ls) {globals : List String}
    (hg : ∀ t ∈ globals, IsStatement t ∧ S t) : Sections.Show S a { globals := globals, main := ls } :=
  ⟨List.forall_mem_nil _, hg, false, a, shows_nil, h, Bool.false_or a⟩

/-- A function that was checked is written, so that only the types in its body can stop the C compiler. -/
theorem emits_function {s : Span} {f : FunctionDecl} (hf : ∀ x ∈ f.ownNames, IsIdentifier x.name)
    (hn : ∀ t ∈ Stmt.blockStmts f.body, t.IsSpellable) :
    Emits D (Sections.Show (Says D) (stops T (.function s f))) (function T f) := by
  obtain ⟨hname, hparams⟩ := List.forall_mem_cons.mp hf
  refine (emits_declare hname).bind fun name => ?_
  rw [stops]
  cases hsig : T.function? f.name.name with
  | none =>
    refine .pure fun hname => (shows_errorLine ?_).inFunctions (List.forall_mem_nil _)
    exact isQuotable_between (by decide) (hname.isWord (L := dialect)) (by decide)
  | some sig =>
    have hps : ∀ p ∈ f.params.zip sig.params, IsIdentifier p.1.name.name := fun p hp =>
      hparams _ (List.mem_map_of_mem (List.of_mem_zip hp).1)
    refine (emits_typeCode _).bind fun _ => Emits.inFunction ?_
    refine (emits_typeCode _).bind fun result => (emits_parameters hps).bind fun params =>
      (emits_block sig.result f.body hn).bind fun body => .pure fun hbody hparams hresult _ hname => ?_
    -- The prototype and the head of the definition are the same text.
    have hopen : Leads D (result ++ " " ++ name ++ "(") :=
      ((hresult.mark (by decide)).append hname.part).mark (by decide)
    have hhead : Part D (result ++ " " ++ name ++ "(" ++ paramList params ++ ")") :=
      (hopen.before (says_paramList hparams)).close (by decide)
    have hlines := (hbody.block hhead).append (shows_blank (says_plain (by decide)))
    rw [Bool.or_false] at hlines
    exact hlines.inFunctions (List.forall_mem_singleton.mpr hhead.statement)

theorem emits_stmtItem {s : Stmt} (hs : s.IsSpellable) (hn : ∀ t ∈ s.nested, t.IsSpellable) :
    Emits D (Sections.Show (Says D) s.declaresOpenly) (item T (.stmt s)) := by
  have hlines : Emits D (Sections.Show (Says D) s.declaresOpenly) (do
      let lines ← stmt T .any s
      return { main := lines } : Emit Sections) :=
    (emits_stmt .any s hs hn).bind fun _ => .pure fun hls => hls.inMain (List.forall_mem_nil _)
  -- A variable outside of functions is declared in one section and gets its value in another.
  cases s with
  | letVar _ x t e =>
    refine (emits_variableParts (hs.names x List.mem_cons_self) (hs.exprs e List.mem_cons_self) t).bind
      fun v => .pure fun hv => ?_
    obtain ⟨htype, hname, hvalue⟩ := hv
    have hlead : Leads D "static " := leads_of_isLead (by decide)
    have hglobal : Part D ("static " ++ v.1 ++ " " ++ v.2.1) := ((hlead.append htype).mark (by decide)).append hname
    exact (shows_statement ((hname.mark (by decide)).append hvalue)).inMain
      (List.forall_mem_singleton.mpr hglobal.statement)
  | assign | ret | expr | ifElse | whileLoop | forEach | matchOn | struct | enum => exact hlines

theorem emits_sections {is : List Item} (his : ∀ i ∈ is, i.IsSpellable) :
    Emits D (Sections.Show (Says D) (is.any (stops T))) (sections T is) := by
  induction is with
  | nil => exact .pure ⟨List.forall_mem_nil _, List.forall_mem_nil _, false, false, shows_nil, shows_nil, rfl⟩
  | cons i is ih =>
    have hrest := ih fun j hj => his j (List.mem_cons_of_mem _ hj)
    have hspell := his i List.mem_cons_self
    have hfirst : Emits D (Sections.Show (Says D) (stops T i)) (item T i) := by
      cases i with
      | function s f => exact emits_function hspell.1.1 hspell.2
      | stmt s => exact emits_stmtItem hspell.1 hspell.2
    exact hfirst.bind fun _ => hrest.bind fun _ => .pure fun hb ha => ha.append hb

theorem shows_declarations {texts : List String} (hs : S "") (h : ∀ t ∈ texts, IsStatement t ∧ S t) :
    Shows S 0 0 false (declarations texts) := by
  cases texts with
  | nil => exact shows_nil
  | cons t ts => exact (shows_codes h).append (shows_blank hs)

theorem isStatement_text {f : Signature} (h : ∀ c ∈ f.typedef.result :: f.typedef.params, Part D c) :
    IsStatement f.typedef.text := by
  obtain ⟨hresult, hparams⟩ := List.forall_mem_cons.mp h
  have hname := (isWord_name f).isCode
  have hstart : IsCode "typedef " := by decide
  exact (((((hstart.append hresult.line).append (by decide)).append hname.1).append (by decide)).append
    (says_paramList hparams).line).statementBy (by decide)

def needed (T : TypeTable) (p : Program) : List Typedef := (Emit.run space () (sections T p.items)).needs

variable {p : Program}

theorem founded_defined (hp : ∀ i ∈ p.items, i.IsSpellable) :
    Founded (fun _ => False) (firstByName [] (needed T p)) :=
  (((emits_sections hp).run True.intro : Given (fun _ => True) _ _).needs fun _ => False).firstByName (fun _ => id) nofun

theorem shows_below (hp : ∀ i ∈ p.items, i.IsSpellable) : ∃ rest : List Line,
    lines T p = [Line.at0 "#include <venice.h>", Line.at0 ""] ++
      (declarations ((firstByName [] (needed T p)).map Typedef.text) ++ rest) ∧
    Shows (Says (· ∈ needed T p)) 0 0 (p.items.any (stops T)) rest := by
  -- The sections are shown for the definitions that they need themselves.
  have hgiven : Given (· ∈ needed T p) (Sections.Show (Says (· ∈ needed T p)) (p.items.any (stops T)))
      (Emit.run space () (sections T p.items)) := (emits_sections hp).run True.intro
  have hout := hgiven.value fun _ ht => ht
  obtain ⟨a, b, hfunctions, hmain, hany⟩ := hout.lines
  have hblank : Says (· ∈ needed T p) "" := says_plain (by decide)
  have hreturn : Shows (Says (· ∈ needed T p)) 0 0 false [.at0 "return 0;"] :=
    shows_code (by decide) (says_plain (by decide))
  have hhead : Part (· ∈ needed T p) "int main(void)" := part_of_isPart (by decide)
  have hlines := (shows_declarations hblank hout.prototypes).append ((shows_declarations hblank hout.globals).append
    (hfunctions.append ((hmain.append hreturn).block hhead)))
  simp only [Bool.or_false, Bool.false_or, hany] at hlines
  refine ⟨_, ?_, hlines⟩
  rw [lines, ← needed]
  simp only [List.append_assoc]

theorem shows_program (hp : ∀ i ∈ p.items, i.IsSpellable) : Shows Free 0 0 (p.items.any (stops T)) (lines T p) := by
  obtain ⟨rest, hlines, hrest⟩ := shows_below (T := T) hp
  have hfirst : ∀ t ∈ firstByName [] (needed T p), IsStatement t.text ∧ Free t.text := by
    intro t ht
    obtain ⟨before, after, hsplit⟩ := List.append_of_mem ht
    have hfounded := founded_defined (T := T) hp
    rw [hsplit] at hfounded
    obtain ⟨⟨f, rfl⟩, hparts, -⟩ := hfounded.of_append
    exact ⟨isStatement_text hparts, True.intro⟩
  have htypedefs := shows_declarations True.intro (List.forall_mem_map.mpr hfirst)
  have hall := (shows_include.append (shows_blank True.intro)).append (htypedefs.append hrest.free)
  rw [Bool.false_or, Bool.false_or, Bool.false_or] at hall
  rw [hlines]
  exact hall

theorem shows_lines (hp : ∀ i ∈ p.items, i.IsSpellable)
    (hT : ∀ s f, .function s f ∈ p.items → ∃ sig, T.function? f.name.name = some sig) :
    Shows Free 0 0 (p.items.any Item.declaresOpenly) (lines T p) := by
  have hstops : p.items.any (stops T) = p.items.any Item.declaresOpenly := by
    rw [Bool.eq_iff_iff, List.any_eq_true, List.any_eq_true]
    refine exists_congr fun i => and_congr_right fun hi => ?_
    cases i with
    | function s f =>
      obtain ⟨sig, hsig⟩ := hT s f hi
      rw [stops, hsig]
      rfl
    | stmt s => rfl
  rw [← hstops]
  exact shows_program hp

end Program

end Gondola.Native
