import Gondola.Proofs.Code.Emits
import Gondola.Proofs.Code.JavaScript
import Gondola.Proofs.Code.ScriptWords
import Gondola.Proofs.Grammar.Leaves
import Gondola.Proofs.Layout.Blocks
import Gondola.Proofs.Names.Own

/-! The lines of JavaScript programs. Each stands at the level of the blocks around it, and names only helpers that the
program needs. -/
namespace Gondola.JavaScript

open Text

def Helper.name : Helper → String
  | .showValue => "$show"
  | .printValue => "$print"

theorem Helper.own_name (h : Helper) : Target.javascript.Own h.name := own_iff.mpr (.inl (by cases h <;> decide))

def dialect : Dialect Helper :=
  Script.dialect space rfl Helper.name (fun h => by cases h <;> decide)
    fun _ h hf heq => not_own_text hf (heq ▸ h.own_name)

abbrev Says (D : Helper → Prop) (s : String) : Prop := Gondola.Says dialect D s

abbrev Part (D : Helper → Prop) (s : String) : Prop := Gondola.Part dialect D s

abbrev Leads (D : Helper → Prop) (s : String) : Prop := Gondola.Leads dialect D s

/-- Printing needs showing. -/
abbrev Given (D : Helper → Prop) {α : Type} (P : α → Prop) (x : Fragment Helper α) : Prop :=
  Gondola.Given (.implies .printValue .showValue) D P x

abbrev Emits (D : Helper → Prop) {α : Type} (P : α → Prop) (m : Emit α) : Prop :=
  Gondola.Emits space (.implies .printValue .showValue) Free D P m

section Values

variable {D : Helper → Prop} {cx : Context} {code : String}

theorem knows_name {h : Helper} (hD : D h) : dialect.Knows D h.name.toList := by
  intro g hg
  have hname := String.toList_inj.mp hg
  obtain rfl : h = g := by
    revert hname
    cases h <;> cases g <;> decide
  exact hD

theorem part_isWord (h : IsWord code) : Part D code := by
  refine h.part fun g hg => ?_
  have hdollar : '$' ∈ g.name.toList := by cases g <;> decide
  exact absurd rfl (h.ne (hg ▸ hdollar) (by decide))

theorem part_matchTemp (n : Nat) : Part D ("$match" ++ toString n) := by
  have hcode : IsCode ("$match" ++ toString n) := .append (by decide) (isCode_toString n).1
  have hlist : ("$match" ++ toString n).toList = ['$', 'm', 'a', 't', 'c', 'h'] ++ (toString n).toList :=
    String.toList_append
  have hne : ("$match" ++ toString n).toList ≠ [] := by rw [hlist]; nofun
  obtain ⟨hwords, hclosed⟩ := Script.read_name hne (by
    rw [hlist]
    refine List.forall_mem_append.mpr ⟨forall_mem_of_all (by decide), fun c hc => ?_⟩
    exact Bool.or_eq_true_iff.mpr (.inl ((isWord_toString n).2 c hc)))
  refine ⟨⟨hcode.1, hclosed, fun w hw g hg => ?_⟩, hcode.2⟩
  have hw' : w ∈ Script.reader.words ("$match" ++ toString n).toList := hw
  rw [hwords, List.mem_singleton] at hw'
  have hstart : w.take 2 = ['$', 'm'] := by rw [hw', hlist]; rfl
  rw [hg] at hstart
  cases g <;> exact absurd hstart (by decide)

theorem given_builtin (hcx : cx.names.In space) {n : Node} {x : Ident} (hx : IsIdentifier x.name) (plain : Bool) :
    Given D (Part D) (builtin cx n x plain) := by
  refine (given_use _).bind fun _ => ?_
  split
  · exact .pure fun _ => (hcx.ident hx.isWord).part
  · rename_i own hown
    split
    · unfold Target.builtin? at hown
      split at hown
      · obtain rfl := Option.some.inj hown
        exact .pure fun _ => part_of_isPart (by decide)
      · cases hown
    · refine ⟨fun _ => List.mem_cons_self, fun hD _ => part_naming (by decide) (by decide) (knows_name (h := .printValue) (hD _ ?_))⟩
      exact List.mem_cons_of_mem _ List.mem_cons_self

theorem given_symbol (hcx : cx.names.In space) {n : Node} {x : Ident} (hx : IsIdentifier x.name) :
    Given D (Part D) (symbol cx n x) := by
  unfold symbol
  split
  · exact given_builtin hcx hx false
  · exact (given_use _).bind fun _ => .pure fun _ => (hcx.spell hx).part

theorem part_binaryCode (op : BinaryOp) {lhs rhs : String} (hl : Part D lhs) (hr : Part D rhs) :
    Part D (binaryCode op lhs rhs) := by
  have hoperator : Part D (operator op) := by cases op <;> exact part_of_isPart (by decide)
  have hcode : Part D (lhs ++ " " ++ operator op ++ " " ++ rhs) :=
    (((hl.mark (by decide)).append hoperator).mark (by decide)).append hr
  unfold binaryCode
  dsimp only
  split
  · exact part_around (by decide) hcode (by decide)
  · exact hcode

theorem part_unaryCode (op : UnaryOp) (h : Part D code) : Part D (unaryCode op code) := by
  cases op with
  | neg => exact (leads_of_isLead (by decide) : Leads D "-").append h
  | not => exact (leads_of_isLead (by decide) : Leads D "!").append h

theorem part_braced (h : Says D code) : Part D (braced code) :=
  ((leads_of_isLead (by decide) : Leads D "\x7b").before h).close (by decide)

theorem part_fields {fields : List String} (h : ∀ f ∈ fields, Part D f) :
    Part D (braced (" " ++ commaSeparated fields ++ " ")) := by
  have hspace : Says D " " := says_plain (by decide)
  exact part_braced ((hspace.append_of_apart (says_commaSeparated h) (.inl (by decide))).closeBy (by decide))

theorem part_constructCode (h : Part D code) {fields : List String} (hf : ∀ f ∈ fields, Part D f) :
    Part D (constructCode code fields) := by
  have hnew : Leads D "new " := leads_of_isLead (by decide)
  have hopen : Leads D ("new " ++ code ++ "(") := (hnew.append h).mark (by decide)
  unfold constructCode
  split
  · exact (hopen.append (part_braced (says_plain (by decide)))).close (by decide)
  · exact (hopen.append (part_fields hf)).close (by decide)

theorem given_fieldCode (hcx : cx.names.In space) {a : Option String × Code} (hlabel : ∀ l ∈ a.1, IsWord l)
    (h : Given D (Part D) a.2) : Given D (Part D) (fieldCode cx a) := by
  obtain ⟨label, code⟩ := a
  cases label with
  | none => exact h
  | some label =>
    exact h.bind fun _ => .pure fun hvalue => ((hcx.ident (hlabel label rfl)).part.mark (by decide)).append hvalue

theorem part_mapCode {entries : List String} (h : ∀ e ∈ entries, Part D e) : Part D (mapCode entries) := by
  unfold mapCode
  split
  · exact part_of_isPart (by decide)
  · exact ((leads_of_isLead (by decide) : Leads D "new Map([").before (says_commaSeparated h)).close (by decide)

end Values

section Exprs

variable {D : Helper → Prop} {cx : Context}

theorem given_expr (hcx : cx.names.In space) (e : Expr) (h : ∀ d ∈ e.parts, d.IsSpellable) :
    Given D (Part D) (expr cx e) := by
  induction e using Expr.induction_children with
  | h e ih =>
    have hgiven : ∀ c ∈ e.children, Given D (Part D) (expr cx c) := fun c hc =>
      ih c hc fun d hd => h d (Expr.mem_parts_iff.mpr (.inr ⟨c, hc, hd⟩))
    cases e with
    | int _ v => exact .pure (part_toString v)
    | string _ t => exact .pure (part_stringLiteral _ t)
    | bool _ b => exact .pure (by cases b <;> exact part_of_isPart (by decide))
    | symbol n x =>
      have hx : IsIdentifier x.name := h (.symbol n x) List.mem_cons_self
      exact given_symbol hcx hx
    | binary _ op l r =>
      obtain ⟨hl, hr⟩ := List.forall_mem_cons.mp hgiven
      exact hl.bind fun _ => (hr r List.mem_cons_self).bind fun _ => .pure fun hrhs hlhs =>
        part_binaryCode op (hlhs.operand _ _) (hrhs.operand _ _)
    | unary _ op e =>
      exact (hgiven e List.mem_cons_self).bind fun _ => .pure fun hcode => part_unaryCode op (hcode.operand _ _)
    | call n c as =>
      obtain ⟨hc, has⟩ := List.forall_mem_cons.mp hgiven
      have hargs : ∀ a ∈ arguments cx as, (∀ l ∈ a.1, IsWord l) ∧ Given D (Part D) a.2 := by
        rw [arguments_eq]
        refine List.forall_mem_map.mpr fun a ha => ⟨fun l hl => ?_, List.forall_mem_map.mp has a ha⟩
        obtain ⟨x, hx, rfl⟩ := Option.map_eq_some_iff.mp hl
        have hlabels : ∀ a ∈ as, ∀ x ∈ a.label, IsIdentifier x.name := h (.call n c as) List.mem_cons_self
        exact (hlabels a ha x hx).isWord
      unfold expr
      split
      · rename_i sig _
        have hcodes : ∀ code ∈ sig.order (arguments cx as), Given D (Part D) code := by
          intro code hcode
          obtain ⟨label, hin⟩ := Signature.mem_order hcode
          exact (hargs _ hin).2
        have hcall {callee : Code} (hcallee : Given D (Part D) callee) : Given D (Part D) (do
            let callee ← callee
            let args ← Fragment.sequence (sig.order (arguments cx as))
            return callCode callee args : Code) :=
          hcallee.bind fun _ => (Given.sequence hcodes).bind fun _ => .pure fun hvalues hcallee => hcallee.call hvalues
        split
        · rename_i m x hb
          obtain ⟨rfl, -⟩ := TypeTable.eq_symbol_of_builtinSymbol? hb
          have hx : IsIdentifier x.name := h (.symbol m x) (List.mem_cons_of_mem _ List.mem_cons_self)
          exact hcall (given_builtin hcx hx _)
        · exact hcall (hc.map fun _ hcode => hcode.operand _ _)
      · have hfields : ∀ code ∈ (arguments cx as).map (fieldCode cx), Given D (Part D) code :=
          List.forall_mem_map.mpr fun a ha => given_fieldCode hcx (hargs a ha).1 (hargs a ha).2
        exact (Given.sequence hfields).bind fun _ => hc.bind fun _ => .pure fun hcallee hvalues =>
          part_constructCode (hcallee.operand _ _) hvalues
    | list _ es =>
      have hes : Given D (fun codes => ∀ c ∈ codes, Part D c) (items cx es) := by
        rw [items_eq]
        exact Given.sequence (List.forall_mem_map.mpr hgiven)
      have hopen : Leads D "[" := leads_of_isLead (by decide)
      exact hes.bind fun _ => .pure fun hcodes => (hopen.before (says_commaSeparated hcodes)).close (by decide)
    | map _ es =>
      have hes : Given D (fun codes => ∀ c ∈ codes, Part D c) (entries cx es) := by
        rw [entries_eq]
        refine Given.sequence (List.forall_mem_map.mpr fun e he => ?_)
        have hopen : Leads D "[" := leads_of_isLead (by decide)
        exact (hgiven _ (Expr.key_mem_children _ he)).bind fun _ =>
          (hgiven _ (Expr.value_mem_children _ he)).bind fun _ => .pure fun hvalue hkey =>
            (((hopen.append hkey).mark (by decide)).append hvalue).close (by decide)
      exact hes.bind fun _ => .pure fun hcodes => part_mapCode hcodes
    | index _ b i =>
      obtain ⟨hb, hi⟩ := List.forall_mem_cons.mp hgiven
      refine hb.bind fun _ => (hi i List.mem_cons_self).bind fun _ => .pure fun hplace hbase => ?_
      split
      · exact (((hbase.operand _ _).mark (by decide)).append hplace).close (by decide)
      · exact (((hbase.operand _ _).mark (by decide)).append hplace).close (by decide)
    | field n b x =>
      have hx : IsIdentifier x.name := h (.field n b x) List.mem_cons_self
      exact (hgiven b List.mem_cons_self).bind fun _ => .pure fun hbase =>
        ((hbase.operand _ _).mark (by decide)).append (hcx.ident hx.isWord).part

end Exprs

section Declarations

variable {D : Helper → Prop}

theorem laid_bindingLines {temp : String} (ht : Part D temp) {names : List String}
    (h : ∀ x ∈ names, IsSpelled space x) : Laid (Says D) 0 0 (bindingLines temp names) := by
  unfold bindingLines
  split
  · exact laid_nil
  · have hlet : Leads D "let [" := leads_of_isLead (by decide)
    have hnames : Says D (commaSeparated names) := says_commaSeparated fun x hx => (h x hx).part
    exact (((hlet.before hnames).mark (by decide)).append ht).laid (by decide) (by decide)

theorem laid_constructor {fields : List String} (h : ∀ f ∈ fields, IsSpelled space f) :
    Laid (Says D) 0 0 (blockLines ("constructor(" ++ braced (" " ++ commaSeparated fields ++ " ") ++ ")")
      (fields.map fun f => .at0 ("this." ++ f ++ " = " ++ f ++ ";"))) := by
  refine Laid.block (part_around (by decide) (part_fields fun f hf => (h f hf).part) (by decide)) (laid_map fun f hf => ?_)
  have hthis : Leads D "this." := leads_of_isLead (by decide)
  exact laid_statement (((hthis.append (h f hf).part).mark (by decide)).append (h f hf).part)

theorem Part.hole {s code : String} {cs : List Char} (hs : Part D s) (h : dialect.isPlain [] cs = true)
    (hapart : cs.head?.all dialect.apart = true) (hcode : Says D code) :
    Gondola.Part dialect D (s ++ String.ofList cs ++ braced code) := by
  have hbrace : (braced code).toList.head? = some '\x7b' := by
    rw [braced, String.toList_append, String.toList_append]
    rfl
  refine (hs.append_of_apart (says_plain h) (.inr ?_)).append_of_apart (part_braced hcode).toSays (.inr ?_)
  · rw [String.toList_ofList, hapart]
  · rw [hbrace]
    decide

theorem laid_structLines {name display : String} (hshow : D .showValue) (hname : IsSpelled space name)
    (hdisplay : IsWord display) {fields : List (String × String)} (h : ∀ f ∈ fields, IsWord f.1 ∧ IsSpelled space f.2) :
    Laid (Says D) 0 0 (structLines name display fields) := by
  have hblank : Says D "" := says_plain (by decide)
  have hshown : ∀ t ∈ fields.map fun f => f.1 ++ ": $" ++ braced ("$show(this." ++ f.2 ++ ")"), Part D t := by
    refine List.forall_mem_map.mpr fun f hf => ?_
    have hcall : Part D "$show(this." := part_naming (by decide) (by decide) (knows_name hshow)
    have hcode : Part D ("$show(this." ++ f.2 ++ ")") :=
      (hcall.append_of_apart (h f hf).2.part.toSays (.inl (by decide))).close (by decide)
    exact Part.hole (part_isWord (h f hf).1) (by decide) (by decide) hcode.toSays
  have hreturn : Leads D "return `" := leads_of_isLead (by decide)
  have hopen : Leads D ("return `" ++ display ++ "(") := (hreturn.append (part_isWord hdisplay)).mark (by decide)
  have hline : Laid (Says D) 0 0 [.at0 ("return `" ++ display ++ "(" ++ commaSeparated (fields.map fun f =>
      f.1 ++ ": $" ++ braced ("$show(this." ++ f.2 ++ ")")) ++ ")`;")] :=
    (hopen.before (says_commaSeparated hshown)).laid (by decide) (by decide)
  have htoString := hline.block (part_of_isPart (by decide) : Part D "toString()")
  have hclass : Leads D "class " := leads_of_isLead (by decide)
  have hwith {init : List Line} (hinit : Laid (Says D) 0 0 init) :=
    ((hinit.append ((laid_blank hblank).append htoString)).block (hclass.append hname.part)).append (laid_blank hblank)
  cases fields with
  | nil => exact hwith (laid_code (by decide) (says_plain (by decide)))
  | cons f fs => exact hwith (laid_constructor (List.forall_mem_map.mpr fun f hf => (h f hf).2))

theorem laid_enumLines {name display : String} (hshow : D .showValue) (hname : IsSpelled space name)
    (hdisplay : IsWord display) {cases : List (String × String × Bool)} (h : ∀ c ∈ cases, IsSpelled space c.2.1) :
    Laid (Says D) 0 0 (enumLines name display cases) := by
  have hblank : Says D "" := says_plain (by decide)
  have hinit : Laid (Says D) 0 0 (blockLines "constructor(tag, values)"
      [.at0 "this.tag = tag;", .at0 "this.values = values;"]) :=
    Laid.block (part_of_isPart (by decide)) ((laid_code (by decide) (says_plain (by decide))).append
      (laid_code (by decide : IsStatement "this.values = values;") (says_plain (by decide))))
  have hreturn : Leads D "return `" := leads_of_isLead (by decide)
  have htag := Part.hole (hreturn.append (part_isWord hdisplay)) (by decide : dialect.isPlain [] ['.', '$'] = true)
    (by decide) (says_plain (by decide) : Says D "this.tag")
  have hvalues : Part D "this.values.map($show).join(\", \")" :=
    part_naming (by decide) (by decide) (knows_name hshow)
  have hholding := Part.hole htag (by decide : dialect.isPlain [] ['(', '$'] = true) (by decide) hvalues.toSays
  have htoString : Laid (Says D) 0 0 _ := Laid.block (part_of_isPart (by decide) : Part D "toString()")
    (((htag.laid (by decide : dialect.isMark ['\x60', ';'] = true) (by decide)).block
      (part_of_isPart (by decide) : Part D "if (this.values.length === 0)")).append
      (hholding.laid (by decide : dialect.isMark [')', '\x60', ';'] = true) (by decide)))
  have hclass : Leads D "class " := leads_of_isLead (by decide)
  have hbody := (hinit.append ((laid_blank hblank).append htoString)).block (hclass.append hname.part)
  refine (hbody.append ((laid_blank hblank).append (laid_map fun c hc => ?_))).append (laid_blank hblank)
  obtain ⟨case, text, holds⟩ := c
  have hmember : Part D (name ++ "." ++ text) := (hname.part.mark (by decide)).append (h _ hc).part
  have hcreated {middle last : List Char} (hm : dialect.isMark middle = true) (hl : dialect.isMark last = true)
      (hend : (last.getLast? == some '\x7b') = false) : Laid (Says D) 0 0 [.at0 (name ++ "." ++ text ++
        String.ofList middle ++ name ++ "(" ++ stringLiteral .hex case ++ String.ofList last)] :=
    ((((hmember.mark hm).append hname.part).mark (by decide)).append (part_stringLiteral _ case)).laid hl hend
  dsimp only
  split
  · exact hcreated (by decide) (by decide) (by decide)
  · exact hcreated (by decide) (by decide) (by decide)

end Declarations

section Stmts

variable {D : Helper → Prop} {T : TypeTable}

theorem emits_exprCode {e : Expr} (he : ∀ d ∈ e.parts, d.IsSpellable) : Emits D (Part D) (exprCode T e) :=
  emits_render fun _ hn => given_expr hn e he

theorem emits_operandOf {e : Expr} (he : ∀ d ∈ e.parts, d.IsSpellable) : Emits D (Part D) (operandOf T e) :=
  (emits_exprCode he).bind fun _ => .pure fun hcode => hcode.operand _ _

theorem emits_matchTemp : Emits D (Part D) matchTemp :=
  fun w hw _ => ⟨⟨hw, True.intro⟩, .pure (part_matchTemp w.extra)⟩

theorem emits_structDecl {d : StructDecl} (h : ∀ x ∈ d.name :: d.fields.map Binding.name, IsIdentifier x.name) :
    Emits D (Laid (Says D) 0 0) (structDecl d) := by
  obtain ⟨hname, hfields⟩ := List.forall_mem_cons.mp h
  refine (emits_need (Needs.implies_singleton (by decide))).bind fun _ => (emits_declare hname).bind fun name =>
    emits_space.bind fun space => .pure ?_
  rintro rfl hspelled hshow
  refine laid_structLines hshow hspelled hname.isWord (List.forall_mem_map.mpr fun f hf => ?_)
  have hfield := (List.forall_mem_map.mp hfields f hf).isWord
  exact ⟨hfield, .plain _, hfield, rfl⟩

theorem emits_enumDecl {d : EnumDecl} (h : ∀ x ∈ d.name :: d.cases.map EnumCase.name, IsIdentifier x.name) :
    Emits D (Laid (Says D) 0 0) (enumDecl d) := by
  obtain ⟨hname, hcases⟩ := List.forall_mem_cons.mp h
  refine (emits_need (Needs.implies_singleton (by decide))).bind fun _ => (emits_declare hname).bind fun name =>
    emits_space.bind fun space => .pure ?_
  rintro rfl hspelled hshow
  refine laid_enumLines hshow hspelled hname.isWord (List.forall_mem_map.mpr fun c hc => ?_)
  exact ⟨.plain _, (List.forall_mem_map.mp hcases c hc).isWord, rfl⟩

theorem emits_assignment {target value : Expr} (ht : ∀ d ∈ target.parts, d.IsSpellable)
    (he : ∀ d ∈ value.parts, d.IsSpellable) : Emits D (Laid (Says D) 0 0) (assignment T target value) := by
  have hplain (code : String) : Emits D (fun ls => Part D code → Laid (Says D) 0 0 ls) (do
      let place ← exprCode T target
      return [.at0 (place ++ " = " ++ code ++ ";")] : Emit (List Line)) :=
    (emits_exprCode ht).bind fun _ => .pure fun hplace hcode =>
      laid_statement ((hplace.mark (by decide)).append hcode)
  refine (emits_exprCode he).bind fun code => ?_
  split
  · rename_i b i
    have hb : ∀ d ∈ b.parts, d.IsSpellable := fun d hd => ht d (List.mem_cons_of_mem _ (List.mem_append_left _ hd))
    have hi : ∀ d ∈ i.parts, d.IsSpellable := fun d hd => ht d (List.mem_cons_of_mem _ (List.mem_append_right _ hd))
    split
    · exact (emits_operandOf hb).bind fun _ => (emits_exprCode hi).bind fun _ => .pure fun hplace hbase hcode =>
        ((((hbase.mark (by decide)).append hplace).mark (by decide)).append hcode).laid (by decide) (by decide)
    · exact hplain code
  · exact hplain code

theorem part_loopHead {vars : List String} {iterable : String} (hv : ∀ x ∈ vars, IsSpelled space x)
    (hi : Part D iterable) : Part D (loopHead vars iterable) := by
  unfold loopHead
  split
  · rename_i index item
    obtain ⟨hindex, hitem⟩ := List.forall_mem_cons.mp hv
    have hfor : Leads D "for (let [" := leads_of_isLead (by decide)
    exact (((((hfor.append hindex.part).mark (by decide)).append (hitem _ (List.mem_singleton_self _)).part).mark
      (by decide)).append hi).close (by decide)
  · have hfor : Leads D "for (let " := leads_of_isLead (by decide)
    have hvars : Says D (commaSeparated vars) := says_commaSeparated fun x hx => (hv x hx).part
    exact (((hfor.before hvars).mark (by decide)).append hi).close (by decide)

open Stmt

mutual
theorem emits_stmt : ∀ s : Stmt, s.IsSpellable → (∀ t ∈ s.nested, t.IsSpellable) →
    Emits D (Laid (Says D) 0 0) (stmt T s)
  | .letVar _ x _ e, hs, _ => by
    have hlet : Leads D "let " := leads_of_isLead (by decide)
    exact (emits_exprCode (hs.exprs e List.mem_cons_self)).bind fun _ =>
      (emits_declare (hs.names x List.mem_cons_self)).bind fun _ => .pure fun hname hvalue =>
        laid_statement (((hlet.append hname.part).mark (by decide)).append hvalue)
  | .assign _ t e, hs, _ =>
    emits_assignment (hs.exprs t List.mem_cons_self) (hs.exprs e (List.mem_cons_of_mem _ List.mem_cons_self))
  | .ret _ none, _, _ => .pure (laid_code (by decide) (says_plain (by decide)))
  | .ret _ (some e), hs, _ => (emits_exprCode (hs.exprs e List.mem_cons_self)).bind fun _ => .pure fun hcode =>
    laid_statement ((leads_of_isLead (by decide) : Leads D "return ").append hcode)
  | .expr _ e, hs, _ => (emits_exprCode (hs.exprs e List.mem_cons_self)).bind fun _ => .pure laid_statement
  | .ifElse _ cs o, hs, hn => by
    have hcs := emits_clauses true cs (fun c hc => hs.exprs _ (List.mem_map_of_mem hc))
      fun t ht => hn t (List.mem_append_left _ ht)
    have ho := emits_otherwise o fun t ht => hn t (List.mem_append_right _ ht)
    -- The chain has a first link, which leaves a block open.
    have hempty : cs.isEmpty = false := by simpa [hasClause] using hs.clause
    rw [hempty] at hcs
    exact hcs.bind fun _ => ho.bind fun _ => .pure fun hlast hchain => (hchain.append hlast).append laid_closeLine
  | .whileLoop _ c b, hs, hn => by
    have hb := (emits_block b hn).inScope
    exact (emits_exprCode (hs.exprs c List.mem_cons_self)).bind fun _ => hb.bind fun _ => .pure fun hbody hcond =>
      hbody.block (part_around (by decide) hcond (by decide))
  | .forEach _ _ e b, hs, hn => (emits_operandOf (hs.exprs e List.mem_cons_self)).bind fun _ =>
    .inScope ((emits_declareAll hs.names).bind fun _ => (emits_block b hn).bind fun _ => .pure
      fun hbody hvars hiterable => hbody.block (part_loopHead hvars hiterable))
  | .matchOn _ e as o, hs, hn => by
    have hbindings : ∀ a ∈ as, ∀ x ∈ a.pattern.bindings, IsIdentifier x.name := fun a ha x hx =>
      hs.names x (List.mem_flatMap.mpr ⟨a, ha, List.mem_cons_of_mem _ hx⟩)
    have hno : ∀ t ∈ otherwiseStmts o, t.IsSpellable := fun t ht => hn t (List.mem_append_right _ ht)
    refine emits_matchTemp.bind fun temp => (emits_exprCode (hs.exprs e List.mem_cons_self)).bind fun scrutinee => ?_
    have has := emits_arms temp true as hbindings fun t ht => hn t (List.mem_append_left _ ht)
    have hconst : Leads D "const " := leads_of_isLead (by decide)
    have hwith {last : Emit (List Line)} (hlast : Emits D (Laid (Says D) (chainLevel (true && as.isEmpty)) 0) last) :
        Emits D (fun ls => Part D scrutinee → Part D temp → Laid (Says D) 0 0 ls) (do
          let chain ← arms T temp true as
          let last ← last
          return .at0 ("const " ++ temp ++ " = " ++ scrutinee ++ ";") :: (chain ++ last) : Emit (List Line)) :=
      has.bind fun _ => hlast.bind fun _ => .pure fun hlast hchain hscrutinee htemp =>
        (laid_statement (((hconst.append htemp).mark (by decide)).append hscrutinee)).append
          ((hchain htemp).append hlast)
    -- Without arms no block is open, and the default is one of its own.
    cases as with
    | nil => exact hwith (emits_withoutArms o hno)
    | cons a as => exact hwith ((emits_otherwise o hno).map fun _ hlines => hlines.append laid_closeLine)
  | .struct _ d, hs, _ => emits_structDecl hs.names
  | .enum _ d, hs, _ => emits_enumDecl hs.names
theorem emits_clauses (first : Bool) : ∀ cs : List Clause,
    (∀ c ∈ cs, ∀ d ∈ c.cond.parts, d.IsSpellable) → (∀ t ∈ clauseStmts cs, t.IsSpellable) →
    Emits D (Laid (Says D) (chainLevel first) (chainLevel (first && cs.isEmpty))) (clauses T first cs)
  | [], _, _ => by
    rw [List.isEmpty_nil, Bool.and_true]
    exact .pure laid_nil
  | ⟨c, b⟩ :: cs, hcs, hn => by
    have hb := (emits_block b fun t ht => hn t (List.mem_append_left _ ht)).inScope
    have hrest := emits_clauses false cs (fun c hc => hcs c (List.mem_cons_of_mem _ hc))
      fun t ht => hn t (List.mem_append_right _ ht)
    rw [List.isEmpty_cons, Bool.and_false]
    exact (emits_exprCode (hcs ⟨c, b⟩ List.mem_cons_self)).bind fun _ => hb.bind fun _ => hrest.bind fun _ => .pure
      fun hlines hbody hcond => (laid_chainHead first hcond).append (hbody.indented.append hlines)
theorem emits_arms (temp : String) (first : Bool) : ∀ as : List Arm,
    (∀ a ∈ as, ∀ x ∈ a.pattern.bindings, IsIdentifier x.name) → (∀ t ∈ armStmts as, t.IsSpellable) →
    Emits D (fun ls => Part D temp → Laid (Says D) (chainLevel first) (chainLevel (first && as.isEmpty)) ls)
      (arms T temp first as)
  | [], _, _ => by
    rw [List.isEmpty_nil, Bool.and_true]
    exact .pure fun _ => laid_nil
  | ⟨p, b⟩ :: as, has, hn => by
    have hb := emits_block b fun t ht => hn t (List.mem_append_left _ ht)
    have hrest := emits_arms temp false as (fun a ha => has a (List.mem_cons_of_mem _ ha))
      fun t ht => hn t (List.mem_append_right _ ht)
    have hinner : Emits D (fun ls => Part D temp → Laid (Says D) 0 0 ls) (Emit.inScope do
        let names ← Emit.declareAll p.bindings
        let body ← block T b
        return bindingLines temp names ++ body : Emit (List Line)) :=
      .inScope ((emits_declareAll (has ⟨p, b⟩ List.mem_cons_self)).bind fun _ => hb.bind fun _ => .pure
        fun hbody hnames ht => (laid_bindingLines ht hnames).append hbody)
    rw [List.isEmpty_cons, Bool.and_false]
    exact hinner.bind fun _ => hrest.bind fun _ => .pure fun hmore hlines ht =>
      (laid_chainHead first ((ht.mark (by decide)).append (part_stringLiteral _ _))).append
        ((hlines ht).indented.append (hmore ht))
theorem emits_otherwise : ∀ o : Option (List Stmt), (∀ t ∈ otherwiseStmts o, t.IsSpellable) →
    Emits D (Laid (Says D) 1 1) (otherwise T o)
  | none, _ => .pure laid_nil
  | some b, hn => (emits_block b hn).inScope.bind fun _ => .pure fun hbody => laid_else.append hbody.indented
theorem emits_withoutArms : ∀ o : Option (List Stmt), (∀ t ∈ otherwiseStmts o, t.IsSpellable) →
    Emits D (Laid (Says D) 0 0) (withoutArms T o)
  | none, _ => .pure laid_nil
  | some b, hn => by
    have hopen : Laid (Says D) 0 1 [.at0 "\x7b"] :=
      laid_line (l := .at0 "\x7b") (Line.tidy_of_isCode (by decide) 0) (by decide) (says_plain (by decide))
    exact (emits_block b hn).inScope.bind fun _ => .pure fun hbody =>
      hopen.append (hbody.indented.append laid_closeLine)
theorem emits_block : ∀ b : List Stmt, (∀ t ∈ blockStmts b, t.IsSpellable) → Emits D (Laid (Says D) 0 0) (block T b)
  | [], _ => .pure laid_nil
  | s :: ss, hn => by
    have hs := emits_stmt s (hn s List.mem_cons_self) fun t ht =>
      hn t (List.mem_cons_of_mem _ (List.mem_append_left _ ht))
    have hss := emits_block ss fun t ht =>
      hn t (List.mem_cons_of_mem _ (List.mem_append_right _ ht))
    exact hs.bind fun _ => hss.bind fun _ => .pure fun hrest hfirst => hfirst.append hrest
end

theorem emits_function {f : FunctionDecl} (hf : ∀ x ∈ f.ownNames, IsIdentifier x.name)
    (hn : ∀ t ∈ blockStmts f.body, t.IsSpellable) : Emits D (Laid (Says D) 0 0) (function T f) := by
  obtain ⟨hname, hparams⟩ := List.forall_mem_cons.mp hf
  refine (emits_declare hname).bind fun name => ?_
  have hfunction : Leads D "function " := leads_of_isLead (by decide)
  have hbody : Emits D (fun ls => IsSpelled space name → Laid (Says D) 0 0 ls) (Emit.inFunction do
      let params ← Emit.params (f.params.map Binding.name)
      let body ← block T f.body
      return blockLines ("function " ++ callCode name params) body : Emit (List Line)) :=
    .inFunction ((emits_params hparams).bind fun _ => (emits_block f.body hn).bind fun _ => .pure
      fun hbody hparams hname => hbody.block (hfunction.append (hname.part.call fun t ht => (hparams t ht).part)))
  exact hbody.bind fun _ => .pure fun hlines hname => (hlines hname).append (laid_blank (says_plain (by decide)))

theorem emits_itemLines {is : List Item} (his : ∀ i ∈ is, i.IsSpellable) :
    Emits D (Laid (Says D) 0 0) (itemLines T is) := by
  induction is with
  | nil => exact .pure laid_nil
  | cons i is ih =>
    have hspell := his i List.mem_cons_self
    have hfirst : Emits D (Laid (Says D) 0 0) (item T i) := by
      cases i with
      | function _ f => exact emits_function hspell.1.1 hspell.2
      | stmt s => exact emits_stmt s hspell.1 hspell.2
    exact hfirst.bind fun _ => (ih fun j hj => his j (List.mem_cons_of_mem _ hj)).bind fun _ => .pure
      fun hrest hfirst => hfirst.append hrest

end Stmts

end Gondola.JavaScript
