import Gondola.Proofs.Code.Emits
import Gondola.Proofs.Code.Python
import Gondola.Proofs.Code.ScriptWords
import Gondola.Proofs.Grammar.Leaves
import Gondola.Proofs.Layout.Blocks
import Gondola.Proofs.Names.Own

/-! The lines of Python programs. A line that ends in a colon is the head of a suite, which is never empty, and no other
line ends so. -/
namespace Gondola.Python

open Text

def Helper.name : Helper → String
  | .showValue => "venice_show_"
  | .printValue => "venice_print_"
  | .divide => "venice_div_"
  | .remainder => "venice_mod_"

theorem Helper.own_name (h : Helper) : Target.python.Own h.name := own_iff.mpr (by cases h <;> decide)

def dialect : Dialect Helper :=
  Script.dialect space rfl Helper.name (fun h => by cases h <;> decide)
    fun f h _ heq => not_own_text f (heq ▸ h.own_name)

abbrev Says (D : Helper → Prop) (s : String) : Prop := Gondola.Says dialect D s

abbrev Part (D : Helper → Prop) (s : String) : Prop := Gondola.Part dialect D s

abbrev Leads (D : Helper → Prop) (s : String) : Prop := Gondola.Leads dialect D s

abbrev Phrase (D : Helper → Prop) (s : String) : Prop := Gondola.Phrase dialect D s

/-- Printing needs showing. -/
abbrev Given (D : Helper → Prop) {α : Type} (P : α → Prop) (x : Fragment Helper α) : Prop :=
  Gondola.Given (.implies .printValue .showValue) D P x

/-- The globals that are kept track of are names. -/
abbrev Emits (D : Helper → Prop) {α : Type} (P : α → Prop) (m : Emit α) : Prop :=
  Gondola.Emits space (.implies .printValue .showValue) (fun texts => ∀ t ∈ texts, IsSpelled space t) D P m

section Values

variable {D : Helper → Prop} {cx : Context} {code : String}

theorem knows_name {h : Helper} (hD : D h) : dialect.Knows D h.name.toList := by
  intro g hg
  have hname := String.toList_inj.mp hg
  obtain rfl : h = g := by
    revert hname
    cases h <;> cases g <;> decide
  exact hD

theorem knows_singleton {h : Helper} (hD : D h) : ∀ w ∈ [h.name.toList], dialect.Knows D w :=
  List.forall_mem_singleton.mpr (knows_name hD)

theorem phrase_name {h : Helper} (hD : D h) : Phrase D h.name := by
  have hword : IsWord h.name := by cases h <;> exact ⟨by decide, List.all_eq_true.mp (by decide)⟩
  exact ⟨hword.part (knows_name hD), hword.endsIn_eq_false (by decide)⟩

theorem given_builtin (hcx : cx.names.In space) {n : Node} {x : Ident} (hx : IsIdentifier x.name) (plain : Bool) :
    Given D (Phrase D) (builtin cx n x plain) := by
  refine (given_use _).bind fun _ => ?_
  split
  · exact .pure fun _ => (hcx.ident hx.isWord).phrase
  · rename_i own hown
    split
    · unfold Target.builtin? at hown
      split at hown
      · obtain rfl := Option.some.inj hown
        exact .pure fun _ => phrase_of_isPart (by decide) (by decide)
      · cases hown
    · refine ⟨fun _ => List.mem_cons_self, fun hD _ => phrase_name (h := .printValue) (hD _ ?_)⟩
      exact List.mem_cons_of_mem _ List.mem_cons_self

theorem given_symbol (hcx : cx.names.In space) {n : Node} {x : Ident} (hx : IsIdentifier x.name) :
    Given D (Phrase D) (symbol cx n x) := by
  unfold symbol
  split
  · exact given_builtin hcx hx false
  · exact (given_use _).bind fun _ => .pure fun _ => (hcx.spell hx).phrase

theorem phrase_unaryCode (op : UnaryOp) (h : Phrase D code) : Phrase D (unaryCode op code) := by
  cases op with
  | neg => exact (leads_of_isLead (by decide) : Leads D "-").phrase h
  | not => exact (leads_of_isLead (by decide) : Leads D "not ").phrase h

theorem name_of_helper? {op : BinaryOp} {helper : Helper} {name : String} (h : helper? op = some (helper, name)) :
    name = helper.name ∧ .printValue ≠ helper := by
  cases op <;> cases h <;> exact ⟨rfl, by decide⟩

theorem given_argumentCode (hcx : cx.names.In space) {a : Option String × Code} (hlabel : ∀ l ∈ a.1, IsWord l)
    (h : Given D (Phrase D) a.2) : Given D (Phrase D) (argumentCode cx a) := by
  obtain ⟨label, code⟩ := a
  cases label with
  | none => exact h
  | some label =>
    exact h.bind fun _ => .pure fun hvalue => ((hcx.ident (hlabel label rfl)).part.mark (by decide)).phrase hvalue

end Values

section Exprs

variable {D : Helper → Prop} {cx : Context}

theorem given_expr (hcx : cx.names.In space) (e : Expr) (h : ∀ d ∈ e.parts, d.IsSpellable) :
    Given D (Phrase D) (expr cx e) := by
  induction e using Expr.induction_children with
  | h e ih =>
    have hgiven : ∀ c ∈ e.children, Given D (Phrase D) (expr cx c) := fun c hc =>
      ih c hc fun d hd => h d (Expr.mem_parts_iff.mpr (.inr ⟨c, hc, hd⟩))
    cases e with
    | int _ v => exact .pure ⟨part_toString v, (isWord_toString v).endsIn_eq_false (by decide)⟩
    | string _ t => exact .pure ⟨part_stringLiteral _ t, endsIn_stringLiteral _ t⟩
    | bool _ b => exact .pure (by cases b <;> exact phrase_of_isPart (by decide) (by decide))
    | symbol n x =>
      have hx : IsIdentifier x.name := h (.symbol n x) List.mem_cons_self
      exact given_symbol hcx hx
    | binary _ op l r =>
      obtain ⟨hl, hr⟩ := List.forall_mem_cons.mp hgiven
      have hr := hr r List.mem_cons_self
      unfold expr
      split
      · rename_i helper name hhelper
        obtain ⟨rfl, hne⟩ := name_of_helper? hhelper
        refine (given_need (Needs.implies_singleton hne)).bind fun _ => hl.bind fun lhs => hr.bind fun rhs => .pure fun hrhs hlhs hD =>
          (phrase_name hD).phraseCall ?_
        exact List.forall_mem_cons.mpr ⟨hlhs.toPart, List.forall_mem_singleton.mpr hrhs.toPart⟩
      · have hsymbol : Part D op.symbol := by cases op <;> exact part_of_isPart (by decide)
        exact hl.bind fun _ => hr.bind fun _ => .pure fun hrhs hlhs =>
          (((((hlhs.operand _ _).mark (by decide)).append hsymbol).mark (by decide)).phrase (hrhs.operand _ _))
    | unary _ op e =>
      exact (hgiven e List.mem_cons_self).bind fun _ => .pure fun hcode => phrase_unaryCode op (hcode.operand _ _)
    | call n c as =>
      obtain ⟨hc, has⟩ := List.forall_mem_cons.mp hgiven
      have hargs : ∀ a ∈ arguments cx as, (∀ l ∈ a.1, IsWord l) ∧ Given D (Phrase D) a.2 := by
        rw [arguments_eq]
        refine List.forall_mem_map.mpr fun a ha => ⟨fun l hl => ?_, List.forall_mem_map.mp has a ha⟩
        obtain ⟨x, hx, rfl⟩ := Option.map_eq_some_iff.mp hl
        have hlabels : ∀ a ∈ as, ∀ x ∈ a.label, IsIdentifier x.name := h (.call n c as) List.mem_cons_self
        exact (hlabels a ha x hx).isWord
      unfold expr
      split
      · rename_i m x sig hb
        obtain rfl := builtinCallee?_eq_some hb
        have hx : IsIdentifier x.name := h (.symbol m x) (List.mem_cons_of_mem _ List.mem_cons_self)
        have hcodes : ∀ code ∈ sig.order (arguments cx as), Given D (Phrase D) code := by
          intro code hcode
          obtain ⟨label, hin⟩ := Signature.mem_order hcode
          exact (hargs _ hin).2
        exact (given_builtin hcx hx _).bind fun _ => (Given.sequence hcodes).bind fun _ => .pure
          fun hvalues hcallee => hcallee.phraseCall fun v hv => (hvalues v hv).toPart
      · have hcodes : ∀ code ∈ (arguments cx as).map (argumentCode cx), Given D (Phrase D) code :=
          List.forall_mem_map.mpr fun a ha => given_argumentCode hcx (hargs a ha).1 (hargs a ha).2
        exact (Given.sequence hcodes).bind fun _ => hc.bind fun _ => .pure fun hcallee hvalues =>
          (hcallee.operand _ _).phraseCall fun v hv => (hvalues v hv).toPart
    | list _ es =>
      have hes : Given D (fun codes => ∀ c ∈ codes, Phrase D c) (items cx es) := by
        rw [items_eq]
        exact Given.sequence (List.forall_mem_map.mpr hgiven)
      have hopen : Leads D "[" := leads_of_isLead (by decide)
      exact hes.bind fun _ => .pure fun hcodes =>
        (hopen.before (says_commaSeparated fun c hc => (hcodes c hc).toPart)).phraseBy (by decide) (by decide)
    | map _ es =>
      have hes : Given D (fun codes => ∀ c ∈ codes, Part D c) (entries cx es) := by
        rw [entries_eq]
        refine Given.sequence (List.forall_mem_map.mpr fun e he => ?_)
        exact (hgiven _ (Expr.key_mem_children _ he)).bind fun _ =>
          (hgiven _ (Expr.value_mem_children _ he)).bind fun _ => .pure fun hvalue hkey =>
            (hkey.mark (by decide)).append hvalue.toPart
      have hopen : Leads D "\x7b" := leads_of_isLead (by decide)
      exact hes.bind fun _ => .pure fun hcodes =>
        (hopen.before (says_commaSeparated hcodes)).phraseBy (by decide) (by decide)
    | index _ b i =>
      obtain ⟨hb, hi⟩ := List.forall_mem_cons.mp hgiven
      exact hb.bind fun _ => (hi i List.mem_cons_self).bind fun _ => .pure fun hplace hbase =>
        (((hbase.operand _ _).mark (by decide)).append hplace.toPart).phraseBy (by decide) (by decide)
    | field n b x =>
      have hx : IsIdentifier x.name := h (.field n b x) List.mem_cons_self
      exact (hgiven b List.mem_cons_self).bind fun _ => .pure fun hbase =>
        ((hbase.operand _ _).mark (by decide)).phrase (hcx.ident hx.isWord).phrase

end Exprs

section Declarations

variable {D : Helper → Prop}

theorem stacked_bindingLines {temp : String} (ht : IsSpelled space temp) {names : List String}
    (h : ∀ x ∈ names, IsSpelled space x) (n : Nat) : Stacked (Says D) 0 (bindingLines temp n names) := by
  induction names generalizing n with
  | nil => exact stacked_nil
  | cons x xs ih =>
    have hx : Part D x := (h x List.mem_cons_self).part
    have hline : Phrase D (x ++ " = " ++ temp ++ ".values[" ++ toString n ++ "]") :=
      ((((hx.mark (by decide)).append ht.part).mark (by decide)).append (part_toString n)).phraseBy (by decide) (by decide)
    exact hline.suite.1.append (ih (fun y hy => h y (List.mem_cons_of_mem _ hy)) (n + 1))

theorem suite_fields {f : String} {fs : List String} (h : ∀ g ∈ f :: fs, IsSpelled space g) :
    Suite (Says D) 0 ((f :: fs).map fun g => .at0 ("self." ++ g ++ " = " ++ g)) := by
  have hline : ∀ g ∈ f :: fs, Suite (Says D) 0 [.at0 ("self." ++ g ++ " = " ++ g)] := by
    intro g hg
    have hself : Leads D "self." := leads_of_isLead (by decide)
    exact (((hself.append (h g hg).part).mark (by decide)).phrase (h g hg).phrase).suite
  exact (hline f List.mem_cons_self).append (stacked_map fun g hg => (hline g (List.mem_cons_of_mem _ hg)).1)

theorem phrase_formatted {text : String} (h : Script.Formatted (dialect.Knows D) text) :
    Phrase D ("return f\"" ++ text ++ "\"") := by
  have hlist : ("return f\"" ++ text ++ "\"").toList = "return f\"".toList ++ (text.toList ++ ['"']) := by
    rw [String.toList_append, String.toList_append, List.append_assoc]
    rfl
  have hcode : IsCode ("return f\"" ++ text ++ "\"") := .append (.append (by decide) h.line) (by decide)
  have hopen : Script.reader.after .code "return f\"".toList = .literal true := by decide
  obtain ⟨hwords, hafter⟩ := Script.reader.words_literal hopen rfl h.after '"'
  have hplain : (Script.reader.words "return f\"".toList).all (fun w => !dialect.special w) = true := by decide
  rw [← hlist] at hwords hafter
  refine ⟨⟨⟨hcode.1, congrArg Script.Mode.isOutside hafter, fun w hw => ?_⟩, hcode.2⟩, ?_⟩
  · have hw' : w ∈ Script.reader.words ("return f\"" ++ text ++ "\"").toList := hw
    rw [hwords] at hw'
    rcases List.mem_append.mp hw' with hw' | hw'
    · exact dialect.knows_of_special D (by simpa using List.all_eq_true.mp hplain w hw')
    · exact h.words w hw'
  · exact (endsIn_append _ (by decide)).trans (by decide)

theorem suite_structLines {name display : String} (hshow : D .showValue) (hname : IsSpelled space name)
    (hdisplay : IsWord display) {fields : List (String × String)} (h : ∀ f ∈ fields, IsWord f.1 ∧ IsSpelled space f.2) :
    Suite (Says D) 0 (structLines name display fields) := by
  have hspelled : ∀ f ∈ fields.map Prod.snd, IsSpelled space f := List.forall_mem_map.mpr fun f hf => (h f hf).2
  have hshown : ∀ t ∈ fields.map fun f => f.1 ++ ": " ++ braced ("venice_show_(self." ++ f.2 ++ ")"),
      Script.Formatted (dialect.Knows D) t := by
    refine List.forall_mem_map.mpr fun f hf => ?_
    obtain ⟨hfield, htext⟩ := h f hf
    have hopen : Says D "venice_show_(self." := says_of_isPlain (by decide) (knows_singleton hshow)
    have hcode : Says D ("venice_show_(self." ++ f.2 ++ ")") :=
      (hopen.append_of_apart htext.part.toSays (.inl (by decide))).closeBy (by decide)
    have hchars : ∀ c ∈ ("venice_show_(self." ++ f.2 ++ ")").toList, c ≠ '"' ∧ c ≠ '\x7d' := by
      have hword := htext.isWord (L := dialect)
      rw [String.toList_append, String.toList_append]
      refine List.forall_mem_append.mpr ⟨List.forall_mem_append.mpr ⟨forall_mem_of_all (by decide), fun c hc => ?_⟩,
        forall_mem_of_all (by decide)⟩
      exact ⟨hword.ne hc (by decide), hword.ne hc (by decide)⟩
    exact ((Script.formatted_word hfield).append (Script.formatted_text (by decide))).append
      (Script.formatted_braced hcode.line hchars hcode.words)
  have hreturn : Phrase D ("return f\"" ++ display ++ "(" ++
      commaSeparated (fields.map fun f => f.1 ++ ": " ++ braced ("venice_show_(self." ++ f.2 ++ ")")) ++ ")\"") := by
    have htext := phrase_formatted ((((Script.formatted_word hdisplay).append (Script.formatted_text (s := "(")
      (by decide))).append (Script.formatted_commaSeparated hshown)).append (Script.formatted_text (s := ")") (by decide)))
    have hend : ")\"" = ")" ++ "\"" := by decide
    rw [hend]
    simpa only [String.append_assoc] using htext
  have hblank : Says D "" := says_plain (by decide)
  have hstr : Suite (Says D) 0 [.at0 "def __str__(self):", ⟨1, _⟩] := hreturn.suite.belowText (by decide) (by decide)
  have hclass : Leads D "class " := leads_of_isLead (by decide)
  have hwith {init : List Line} (hinit : Suite (Says D) 0 init) :=
    ((hinit.append ((stacked_blank hblank).append hstr.1)).indented.below (hclass.append hname.part)
      (by decide : dialect.isMark [':'] = true) (by decide)).append (stacked_blank hblank)
  cases fields with
  | nil =>
    have hpass : Phrase D "pass" := phrase_of_isPart (by decide) (by decide)
    exact hwith (hpass.suite.belowText (by decide) (by decide))
  | cons f fs =>
    have hinit : Leads D "def __init__(self, *, " := leads_of_isLead (by decide)
    exact hwith ((suite_fields hspelled).indented.below
      (hinit.before (says_commaSeparated fun g hg => (hspelled g hg).part)) (by decide) (by decide))

theorem suite_enumLines {name display : String} (hshow : D .showValue) (hname : IsSpelled space name)
    (hdisplay : IsWord display) {cases : List (String × String × Bool)} (h : ∀ c ∈ cases, IsSpelled space c.2.1) :
    Suite (Says D) 0 (enumLines name display cases) := by
  have hblank : Says D "" := says_plain (by decide)
  have htagged : Phrase D "self.tag = tag" := phrase_of_isPart (by decide) (by decide)
  have hvalued : Phrase D "self.values = values" := phrase_of_isPart (by decide) (by decide)
  have hinit : Suite (Says D) 1 [⟨1, "def __init__(self, tag, *values):"⟩, ⟨2, "self.tag = tag"⟩,
      ⟨2, "self.values = values"⟩] :=
    (htagged.suite.append hvalued.suite.1).belowText (by decide) (by decide)
  have hplain : Phrase D ("return \"" ++ display ++ ".\" + self.tag") := by
    have hreturn : Leads D "return " := leads_of_isLead (by decide)
    have hquoted : Part D ("\"" ++ ("" ++ display ++ ".") ++ "\"") :=
      part_quoted (isQuotable_between (by decide) hdisplay (by decide))
    have htag : Phrase D "self.tag" := phrase_of_isPart (by decide) (by decide)
    have htext := ((hreturn.append hquoted).mark (by decide : dialect.isMark [' ', '+', ' '] = true)).phrase htag
    have hstart : "return \"" = "return " ++ "\"" := by decide
    have hend : ".\" + self.tag" = "." ++ "\"" ++ " + " ++ "self.tag" := by decide
    rw [hstart, hend]
    simpa only [String.append_assoc, String.empty_append] using htext
  have hjoined : Phrase D "values = \", \".join(venice_show_(value) for value in self.values)" := by
    exact ⟨⟨says_of_isPlain (by decide) (knows_singleton hshow), by decide⟩, by decide⟩
  have hholding : Phrase D ("return f\"" ++ display ++ "." ++ braced "self.tag" ++ "(" ++ braced "values" ++ ")\"") := by
    have hbraced {s : String} (hs : Says D s) (hc : ∀ c ∈ s.toList, c ≠ '"' ∧ c ≠ '\x7d') :=
      Script.formatted_braced hs.line hc hs.words
    have htag := hbraced (s := "self.tag") (says_plain (by decide)) (forall_mem_of_all (by decide))
    have hvalues := hbraced (s := "values") (says_plain (by decide)) (forall_mem_of_all (by decide))
    have htext := phrase_formatted (((((Script.formatted_word hdisplay).append (Script.formatted_text (s := ".")
      (by decide))).append htag).append (Script.formatted_text (s := "(") (by decide))).append hvalues |>.append
      (Script.formatted_text (s := ")") (by decide)))
    have hend : ")\"" = ")" ++ "\"" := by decide
    rw [hend]
    simpa only [String.append_assoc] using htext
  have hstr : Suite (Says D) 1 [⟨1, "def __str__(self):"⟩, ⟨2, "if not self.values:"⟩, ⟨3, _⟩,
      ⟨2, "values = \", \".join(venice_show_(value) for value in self.values)"⟩, ⟨2, _⟩] :=
    ((((hplain.suite.belowText (by decide) (by decide) : Suite (Says D) 2 [⟨2, "if not self.values:"⟩, ⟨3, _⟩])).append
      hjoined.suite.1).append hholding.suite.1).belowText (by decide) (by decide)
  have hclass : Leads D "class " := leads_of_isLead (by decide)
  have hbody := (hinit.append ((stacked_blank hblank).append hstr.1)).below (hclass.append hname.part)
    (by decide : dialect.isMark [':'] = true) (by decide)
  refine ((hbody.append (stacked_blank hblank)).append (stacked_map fun c hc => ?_)).append (stacked_blank hblank)
  obtain ⟨case, text, holds⟩ := c
  have hmember : Part D (name ++ "." ++ text) := (hname.part.mark (by decide)).append (h _ hc).part
  have hcreated {middle last : List Char} (hm : dialect.isMark middle = true) (hl : dialect.isMark last = true)
      (hend : (last.getLast? == some ':') = false) : Stacked (Says D) 0 [.at0 (name ++ "." ++ text ++
        String.ofList middle ++ name ++ "(" ++ stringLiteral .hex case ++ String.ofList last)] :=
    (((((hmember.mark hm).append hname.part).mark (by decide)).append (part_stringLiteral _ case)).phraseBy hl
      hend).suite.1
  dsimp only
  split
  · exact hcreated (by decide) (by decide) (by decide)
  · exact hcreated (by decide) (by decide) (by decide)

end Declarations

section Stmts

variable {D : Helper → Prop} {T : TypeTable}

theorem emits_exprCode {e : Expr} (he : ∀ d ∈ e.parts, d.IsSpellable) : Emits D (Phrase D) (exprCode T e) :=
  emits_render fun _ hn => given_expr hn e he

theorem forall_mem_insertSorted {P : String → Prop} {s : String} {ts : List String} (hs : P s) (h : ∀ t ∈ ts, P t) :
    ∀ t ∈ insertSorted s ts, P t := by
  induction ts with
  | nil => exact List.forall_mem_singleton.mpr hs
  | cons t ts ih =>
    obtain ⟨ht, hts⟩ := List.forall_mem_cons.mp h
    unfold insertSorted
    split_ifs
    · exact h
    · exact List.forall_mem_cons.mpr ⟨hs, h⟩
    · exact List.forall_mem_cons.mpr ⟨ht, ih hts⟩

theorem emits_noteGlobal {target : Expr} (ht : ∀ d ∈ target.parts, d.IsSpellable) :
    Emits D Free (noteGlobal target) := by
  unfold noteGlobal
  split
  · rename_i n x
    have hx : IsIdentifier x.name := ht (.symbol n x) List.mem_cons_self
    intro w hw he
    refine ⟨?_, .pure True.intro⟩
    change Names.In space (ite _ _ w).names ∧ ∀ t ∈ (ite _ _ w).extra, IsSpelled space t
    split
    · exact ⟨hw, forall_mem_insertSorted (hw.spell hx) he⟩
    · exact ⟨hw, he⟩
  · exact .pure True.intro

theorem emits_takeGlobals : Emits D (fun texts => ∀ t ∈ texts, IsSpelled space t) takeGlobals :=
  fun _ hw he => ⟨⟨hw, List.forall_mem_nil _⟩, .pure he⟩

theorem emits_structDecl {d : StructDecl} (h : ∀ x ∈ d.name :: d.fields.map Binding.name, IsIdentifier x.name) :
    Emits D (Suite (Says D) 0) (structDecl d) := by
  obtain ⟨hname, hfields⟩ := List.forall_mem_cons.mp h
  refine (emits_need (Needs.implies_singleton (by decide))).bind fun _ => (emits_declare hname).bind fun name => emits_space.bind fun space =>
    .pure ?_
  rintro rfl hspelled hshow
  refine suite_structLines hshow hspelled hname.isWord (List.forall_mem_map.mpr fun f hf => ?_)
  have hfield := (List.forall_mem_map.mp hfields f hf).isWord
  exact ⟨hfield, .plain _, hfield, rfl⟩

theorem emits_enumDecl {d : EnumDecl} (h : ∀ x ∈ d.name :: d.cases.map EnumCase.name, IsIdentifier x.name) :
    Emits D (Suite (Says D) 0) (enumDecl d) := by
  obtain ⟨hname, hcases⟩ := List.forall_mem_cons.mp h
  refine (emits_need (Needs.implies_singleton (by decide))).bind fun _ => (emits_declare hname).bind fun name => emits_space.bind fun space =>
    .pure ?_
  rintro rfl hspelled hshow
  refine suite_enumLines hshow hspelled hname.isWord (List.forall_mem_map.mpr fun c hc => ?_)
  exact ⟨.plain _, (List.forall_mem_map.mp hcases c hc).isWord, rfl⟩

theorem suite_loop {vars : List String} {iterable : String} (hv : ∀ x ∈ vars, IsSpelled space x)
    (hi : Part D iterable) {ls : List Line} (h : Suite (Says D) 1 ls) :
    Suite (Says D) 0 (loopHead vars iterable :: ls) := by
  have hfor : Leads D "for " := leads_of_isLead (by decide)
  unfold loopHead
  split
  · rename_i index item
    obtain ⟨hindex, hitem⟩ := List.forall_mem_cons.mp hv
    exact h.below (((((hfor.append hindex.part).mark (by decide)).append (hitem _ (List.mem_singleton_self _)).part).mark
      (by decide)).append hi) (by decide) (by decide)
  · have hvars : Says D (commaSeparated vars) := says_commaSeparated fun x hx => (hv x hx).part
    exact h.below (((hfor.before hvars).mark (by decide)).append hi) (by decide) (by decide)

open Stmt

mutual
theorem emits_stmt : ∀ s : Stmt, s.IsSpellable → (∀ t ∈ s.nested, t.IsSpellable) →
    Emits D (Suite (Says D) 0) (stmt T s)
  | .letVar _ x _ e, hs, _ => (emits_exprCode (hs.exprs e List.mem_cons_self)).bind fun _ =>
    (emits_declare (hs.names x List.mem_cons_self)).bind fun _ => .pure fun hname hvalue =>
      ((hname.part.mark (by decide)).phrase hvalue).suite
  | .assign _ t e, hs, _ => by
    have ht := hs.exprs t List.mem_cons_self
    have he := hs.exprs e (List.mem_cons_of_mem _ List.mem_cons_self)
    exact (emits_noteGlobal ht).bind fun _ => (emits_exprCode ht).bind fun _ => (emits_exprCode he).bind fun _ =>
      .pure fun hvalue htarget _ => ((htarget.mark (by decide)).phrase hvalue).suite
  | .ret _ none, _, _ => .pure (phrase_of_isPart (by decide) (by decide) : Phrase D "return").suite
  | .ret _ (some e), hs, _ => (emits_exprCode (hs.exprs e List.mem_cons_self)).bind fun _ => .pure fun hcode =>
    ((leads_of_isLead (by decide) : Leads D "return ").phrase hcode).suite
  | .expr _ e, hs, _ => (emits_exprCode (hs.exprs e List.mem_cons_self)).bind fun _ => .pure fun hcode => hcode.suite
  | .ifElse _ cs o, hs, hn => by
    have hcs := emits_clauses (part_of_isPart (by decide) : Part D "if") cs
      (fun c hc => hs.exprs _ (List.mem_map_of_mem hc)) fun t ht => hn t (List.mem_append_left _ ht)
    have ho := emits_otherwise o fun t ht => hn t (List.mem_append_right _ ht)
    -- An `if` has a first clause, so that its lines are not all blank.
    have hne : cs ≠ [] := by simpa [hasClause] using hs.clause
    exact hcs.bind fun _ => ho.bind fun _ => .pure fun hlast hchain => Suite.append ⟨hchain.1, hchain.2 hne⟩ hlast
  | .whileLoop _ c b, hs, hn => by
    have hwhile : Leads D "while " := leads_of_isLead (by decide)
    have hb := (emits_block b hn).inScope
    exact (emits_exprCode (hs.exprs c List.mem_cons_self)).bind fun _ => hb.bind fun _ => .pure fun hbody hcond =>
      hbody.indented.below (hwhile.append hcond.toPart) (by decide) (by decide)
  | .forEach _ _ e b, hs, hn => (emits_exprCode (hs.exprs e List.mem_cons_self)).bind fun _ =>
    .inScope ((emits_declareAll hs.names).bind fun _ => (emits_block b hn).bind fun _ => .pure
      fun hbody hvars hiterable => suite_loop hvars hiterable.toPart hbody.indented)
  | .matchOn _ e as o, hs, hn => by
    have hbindings : ∀ a ∈ as, ∀ x ∈ a.pattern.bindings, IsIdentifier x.name := fun a ha x hx =>
      hs.names x (List.mem_flatMap.mpr ⟨a, ha, List.mem_cons_of_mem _ hx⟩)
    have hno : ∀ t ∈ otherwiseStmts o, t.IsSpellable := fun t ht => hn t (List.mem_append_right _ ht)
    refine (emits_exprCode (hs.exprs e List.mem_cons_self)).bind fun scrutinee =>
      (emits_temp ⟨by decide, List.all_eq_true.mp (by decide)⟩).bind fun temp => ?_
    have has := emits_arms temp (part_of_isPart (by decide) : Part D "if") as hbindings fun t ht =>
      hn t (List.mem_append_left _ ht)
    have hwith {last : Emit (List Line)} (hlast : Emits D (Stacked (Says D) 0) last) :
        Emits D (fun ls => IsSpelled space temp → Phrase D scrutinee → Suite (Says D) 0 ls) (do
          let chain ← arms T temp "if" as
          let last ← last
          return .at0 (temp ++ " = " ++ scrutinee) :: (chain ++ last) : Emit (List Line)) :=
      has.bind fun _ => hlast.bind fun _ => .pure fun hlast hchain htemp hscrutinee =>
        ((htemp.part.mark (by decide)).phrase hscrutinee).suite.append ((hchain htemp).append hlast)
    cases as with
    | nil => exact hwith (emits_withoutArms o hno)
    | cons a as => exact hwith (emits_otherwise o hno)
  | .struct _ d, hs, _ => emits_structDecl hs.names
  | .enum _ d, hs, _ => emits_enumDecl hs.names
theorem emits_clauses {keyword : String} (hk : Part D keyword) : ∀ cs : List Clause,
    (∀ c ∈ cs, ∀ d ∈ c.cond.parts, d.IsSpellable) → (∀ t ∈ clauseStmts cs, t.IsSpellable) →
    Emits D (fun ls => Stacked (Says D) 0 ls ∧ (cs ≠ [] → written ls ≠ [])) (clauses T keyword cs)
  | [], _, _ => .pure ⟨stacked_nil, fun hne => absurd rfl hne⟩
  | ⟨c, b⟩ :: cs, hcs, hn => by
    have hb := (emits_block b fun t ht => hn t (List.mem_append_left _ ht)).inScope
    have hrest := emits_clauses (part_of_isPart (by decide) : Part D "elif") cs
      (fun c hc => hcs c (List.mem_cons_of_mem _ hc)) fun t ht => hn t (List.mem_append_right _ ht)
    refine (emits_exprCode (hcs ⟨c, b⟩ List.mem_cons_self)).bind fun cond => hb.bind fun _ => hrest.bind fun _ =>
      .pure fun hlines hbody hcond => ?_
    have hhead : Part D (keyword ++ " " ++ cond) := (hk.mark (by decide)).append hcond.toPart
    have hall := (hbody.indented.below hhead (by decide : dialect.isMark [':'] = true) (by decide)).append hlines.1
    exact ⟨hall.1, fun _ => hall.2⟩
theorem emits_arms (temp : String) {keyword : String} (hk : Part D keyword) : ∀ as : List Arm,
    (∀ a ∈ as, ∀ x ∈ a.pattern.bindings, IsIdentifier x.name) → (∀ t ∈ armStmts as, t.IsSpellable) →
    Emits D (fun ls => IsSpelled space temp → Stacked (Says D) 0 ls) (arms T temp keyword as)
  | [], _, _ => .pure fun _ => stacked_nil
  | ⟨p, b⟩ :: as, has, hn => by
    have hb := emits_block b fun t ht => hn t (List.mem_append_left _ ht)
    have hrest := emits_arms temp (part_of_isPart (by decide) : Part D "elif") as
      (fun a ha => has a (List.mem_cons_of_mem _ ha)) fun t ht => hn t (List.mem_append_right _ ht)
    have hinner : Emits D (fun ls => IsSpelled space temp → Suite (Says D) 0 ls) (Emit.inScope do
        let names ← Emit.declareAll p.bindings
        let body ← block T b
        return bindingLines temp 0 names ++ body : Emit (List Line)) :=
      .inScope ((emits_declareAll (has ⟨p, b⟩ List.mem_cons_self)).bind fun _ => hb.bind fun _ => .pure
        fun hbody hnames ht => (stacked_bindingLines ht hnames 0).before hbody)
    refine hinner.bind fun _ => hrest.bind fun _ => .pure fun hmore hlines ht => ?_
    have hhead : Part D (keyword ++ " " ++ temp ++ ".tag == " ++ stringLiteral .hex p.name.name) :=
      (((hk.mark (by decide)).append ht.part).mark (by decide)).append (part_stringLiteral _ _)
    exact (((hlines ht).indented.below hhead (by decide) (by decide)).append (hmore ht)).1
theorem emits_otherwise : ∀ o : Option (List Stmt), (∀ t ∈ otherwiseStmts o, t.IsSpellable) →
    Emits D (Stacked (Says D) 0) (otherwise T o)
  | none, _ => .pure stacked_nil
  | some b, hn => (emits_block b hn).inScope.bind fun _ => .pure fun hbody =>
    (hbody.indented.belowText (by decide) (by decide)).1
theorem emits_withoutArms : ∀ o : Option (List Stmt), (∀ t ∈ otherwiseStmts o, t.IsSpellable) →
    Emits D (Stacked (Says D) 0) (withoutArms T o)
  | none, _ => .pure stacked_nil
  | some b, hn => (emits_block b hn).inScope.mono fun _ hbody => hbody.1
theorem emits_block : ∀ b : List Stmt, (∀ t ∈ blockStmts b, t.IsSpellable) → Emits D (Suite (Says D) 0) (block T b)
  | [], _ => .pure (phrase_of_isPart (by decide) (by decide) : Phrase D "pass").suite
  | s :: ss, hn => by
    have hs := emits_stmt s (hn s List.mem_cons_self) fun t ht =>
      hn t (List.mem_cons_of_mem _ (List.mem_append_left _ ht))
    have hss := emits_stmts ss fun t ht =>
      hn t (List.mem_cons_of_mem _ (List.mem_append_right _ ht))
    exact hs.bind fun _ => hss.bind fun _ => .pure fun hrest hfirst => hfirst.append hrest
theorem emits_stmts : ∀ b : List Stmt, (∀ t ∈ blockStmts b, t.IsSpellable) → Emits D (Stacked (Says D) 0) (stmts T b)
  | [], _ => .pure stacked_nil
  | s :: ss, hn => by
    have hs := emits_stmt s (hn s List.mem_cons_self) fun t ht =>
      hn t (List.mem_cons_of_mem _ (List.mem_append_left _ ht))
    have hss := emits_stmts ss fun t ht =>
      hn t (List.mem_cons_of_mem _ (List.mem_append_right _ ht))
    exact hs.bind fun _ => hss.bind fun _ => .pure fun hrest hfirst => hfirst.1.append hrest
end

theorem emits_function {f : FunctionDecl} (hf : ∀ x ∈ f.ownNames, IsIdentifier x.name)
    (hn : ∀ t ∈ blockStmts f.body, t.IsSpellable) : Emits D (Stacked (Says D) 0) (function T f) := by
  obtain ⟨hname, hparams⟩ := List.forall_mem_cons.mp hf
  refine (emits_declare hname).bind fun name => ?_
  have hbody : Emits D (fun r => IsSpelled space name →
      (∀ ls, Suite (Says D) 1 ls → Suite (Says D) 0 (r.1 :: ls)) ∧ Suite (Says D) 0 r.2) (Emit.inFunction do
        let params ← Emit.params (f.params.map Binding.name)
        let body ← block T f.body
        return (Line.at0 ("def " ++ callCode name params ++ ":"), body) : Emit (Line × List Line)) := by
    have hdef : Leads D "def " := leads_of_isLead (by decide)
    exact .inFunction ((emits_params hparams).bind fun _ => (emits_block f.body hn).bind fun _ => .pure
      fun hbody hparams hname => ⟨fun _ hls => hls.below (hdef.append (hname.part.call fun t ht => (hparams t ht).part))
        (by decide) (by decide), hbody⟩)
  refine hbody.bind fun r => emits_takeGlobals.bind fun globals => .pure fun hglobals hr hname => ?_
  obtain ⟨hhead, hsuite⟩ := hr hname
  have hwith {declared : List Line} (h : Stacked (Says D) 0 declared) :=
    ((hhead _ (h.before hsuite).indented).append (stacked_blank (says_plain (by decide)))).1
  -- The declaration of globals is left out if there are none.
  cases globals with
  | nil => exact hwith stacked_nil
  | cons g gs =>
    have hlead : Leads D "global " := leads_of_isLead (by decide)
    have hnames : Phrase D (commaSeparated (g :: gs)) :=
      phrase_commaSeparated (fun t ht => (hglobals t ht).phrase) (List.cons_ne_nil g gs)
    exact hwith (hlead.phrase hnames).suite.1

theorem emits_itemLines {is : List Item} (his : ∀ i ∈ is, i.IsSpellable) :
    Emits D (Stacked (Says D) 0) (itemLines T is) := by
  induction is with
  | nil => exact .pure stacked_nil
  | cons i is ih =>
    have hspell := his i List.mem_cons_self
    have hrest := ih fun j hj => his j (List.mem_cons_of_mem _ hj)
    have hfirst : Emits D (Stacked (Says D) 0) (item T i) := by
      cases i with
      | function _ f => exact emits_function hspell.1.1 hspell.2
      | stmt s => exact (emits_stmt s hspell.1 hspell.2).mono fun _ h => h.1
    exact hfirst.bind fun _ => hrest.bind fun _ => .pure fun hb ha => ha.append hb

theorem emits_program {p : Program} (hp : ∀ i ∈ p.items, i.IsSpellable) :
    Emits D (Stacked (Says D) 0) (program T p) := by
  unfold program
  split
  · exact .pure (phrase_of_isPart (by decide) (by decide) : Phrase D "pass").suite.1
  · exact emits_itemLines hp

end Stmts

end Gondola.Python
