import Gondola.Proofs.Names.Spelling
import Gondola.Proofs.Parser.Recognition
import Mathlib.Data.List.Forall2

/-! Expressions in Python that are expressions of the language as well: where no construct needs another
form, the code of an expression is read as that expression. -/
namespace Gondola

open Grammar Text

/-- No expression starts like the mark that a minus sign would join. -/
theorem Lexes.head_ne_greater {cs : List Char} {l : Precedence} {e : Expr}
    (h : Lexes cs fun ts => IsExpr l ts e) : cs.head? ≠ some '>' := by
  intro hhead
  obtain ⟨ds, rfl⟩ := List.head?_eq_some_iff.mp hhead
  obtain ⟨ts, stop, htokens, -, hexpr⟩ := h.tokens {} false
  obtain ⟨t, us, rfl, hstart⟩ := hexpr.head
  -- Otherwise the first token of the expression is a comparison sign.
  obtain ⟨lexeme, hlexeme, hkind⟩ := Lexeme.first?_greater ds
  have hsplit : splitTrivia false ('>' :: ds) = ([], '>' :: ds) :=
    splitTrivia_of_text (isBlank_of_visible (by decide)) fun hslash => absurd hslash (by decide)
  have htext : Scanner.text ⟨'>' :: ds, {}, false⟩ = '>' :: ds := congrArg Prod.snd hsplit
  have hnext := Scanner.next_of_token htext hlexeme
  rw [Scanner.tokens_of_ok hnext, if_neg (Lexeme.first?_kind_ne_eof hlexeme)] at htokens
  have hsame : t.kind = lexeme.kind := by
    cases hrest : Scanner.tokens _ with
    | error e =>
      rw [hrest] at htokens
      cases htokens
    | ok vs =>
      rw [hrest] at htokens
      rw [← (List.cons.inj (Except.ok.inj htokens)).1]
  rw [hsame] at hstart
  rcases hkind with hk | hk
  · rw [hk] at hstart
    cases hstart
  · rw [hk] at hstart
    cases hstart

/-! Code of the constructs that all targets write as the source does. -/
section Constructs

variable {code lhs rhs : String} {l min : Precedence} {e f : Expr}

theorem lexes_parenthesized (h : Lexes code.toList fun ts => IsExpr l ts e) (hl : 0 < l.rank) :
    Lexes ("(" ++ code ++ ")").toList fun ts => IsExpr .atom ts e := by
  rw [String.toList_append, String.toList_append]
  apply h.enclosed .round
  intro t ts u ht hts hu
  exact .group ht (hts.of_le (by decide) hl) hu

theorem lexes_operandCode (h : Lexes code.toList fun ts => IsExpr l ts e) (hl : 0 < l.rank)
    (hmin : 0 < min.rank) : Lexes (operandCode l min code).toList fun ts => IsExpr min ts e := by
  unfold operandCode
  by_cases hlt : l < min
  · rw [if_pos hlt]
    apply (lexes_parenthesized h hl).mono
    intro ts hts
    have hle : min.rank ≤ Precedence.atom.rank := by cases min <;> decide
    exact hts.of_le hmin hle
  · rw [if_neg hlt]
    apply h.mono
    intro ts hts
    exact hts.of_le hmin (Nat.le_of_not_lt hlt)

theorem lexes_operator {op : BinaryOp} (hop : op ≠ .div) :
    Lexes op.symbol.toList fun ts => ∃ t, ts = [t] ∧ Parser.binaryOp? t.kind = some op := by
  cases op with
  | div => exact absurd rfl hop
  | _ =>
    apply Lexes.single (isBlank_of_visible (by decide)) (by decide) rfl rfl
    intro t ht _
    refine ⟨t, rfl, ?_⟩
    rw [ht]
    rfl

theorem lexes_binary {op : BinaryOp} (hop : op ≠ .div)
    (hl : Lexes lhs.toList fun ts => IsExpr op.precedence ts e)
    (hr : Lexes rhs.toList fun ts => IsExpr op.precedence.next ts f) :
    Lexes (lhs ++ " " ++ op.symbol ++ " " ++ rhs).toList fun ts =>
      IsExpr op.precedence ts (.binary default op e f) := by
  have htext : (lhs ++ " " ++ op.symbol ++ " " ++ rhs).toList =
      lhs.toList ++ ' ' :: (op.symbol.toList ++ ' ' :: rhs.toList) := by
    simp only [String.toList_append, List.append_assoc]
    rfl
  have hspace : isSeparator ' ' = true := isSeparator_of_mem (by decide)
  rw [htext]
  apply hl.append (.cons _ hspace)
  intro ts hts
  apply LexesBefore.blank isBlank_space
  apply (lexes_operator hop).append (.cons _ hspace)
  rintro us ⟨t, rfl, ht⟩
  apply LexesBefore.blank isBlank_space
  apply hr.mono
  intro vs hvs
  exact .binary hts (isBinary_iff.mpr ⟨ht, rfl, rfl⟩) hvs

theorem lexes_neg (h : Lexes code.toList fun ts => IsExpr .call ts e) :
    Lexes ("-" ++ code).toList fun ts => IsExpr .unary ts (.unary default .neg e) := by
  have hpair : ∀ d ∈ code.toList.head?, Mark.ofPair? '-' d = none := by
    intro d hd
    have hne : d ≠ '>' := by
      rintro rfl
      exact h.head_ne_greater hd
    unfold Mark.ofPair?
    split <;> simp_all
  rw [String.toList_append]
  apply Lexes.mark rfl (by decide) hpair
  intro t ht
  apply h.mono
  intro ts hts
  exact .unary (ht ▸ .neg) (hts.of_le (by decide) (by decide))

theorem lexes_not (h : Lexes code.toList fun ts => IsExpr .call ts e) :
    Lexes ("not " ++ code).toList fun ts => IsExpr .unary ts (.unary default .not e) := by
  have hword : Lexes ['n', 'o', 't'] fun ts => ∃ t, ts = [t] ∧ t.kind = .keyword .notKw := by
    apply Lexes.single (isBlank_of_visible (by decide)) (by decide) rfl rfl
    intro t ht _
    exact ⟨t, rfl, ht⟩
  rw [String.toList_append]
  apply hword.append (.cons code.toList (d := ' ') (isSeparator_of_mem (by decide)))
  rintro us ⟨t, rfl, ht⟩
  apply LexesBefore.blank isBlank_space
  apply h.mono
  intro ts hts
  exact .unary (ht ▸ .not) (hts.of_le (by decide) (by decide))

theorem lexes_commaSeparated {α : Type} {item : List Token → α → Prop} {codes : List String} {as : List α}
    (h : List.Forall₂ (fun code a => Lexes code.toList fun ts => item ts a) codes as) :
    Lexes (commaSeparated codes).toList fun ts => Sequence item ts as := by
  induction h with
  | nil => exact .nil .nil
  | @cons code a codes as hcode hcodes ih =>
    cases hcodes with
    | nil =>
      apply hcode.mono
      intro ts hts
      exact .last hts
    | @cons code' a' codes as hcode' hcodes =>
      have htext : (commaSeparated (code :: code' :: codes)).toList =
          code.toList ++ ',' :: ' ' :: (commaSeparated (code' :: codes)).toList := by
        rw [commaSeparated, String.intercalate_cons_cons, String.toList_append, String.toList_append,
          List.append_assoc]
        rfl
      rw [htext]
      apply hcode.append (.cons _ (isSeparator_of_mem (by decide)))
      intro ts hts
      apply Lexes.mark rfl (by decide) (fun _ _ => rfl)
      intro comma hcomma
      apply LexesBefore.blank isBlank_space
      apply ih.mono
      intro us hus
      exact .cons hts hcomma hus

theorem lexes_list {codes : List String} {es : List Expr}
    (h : List.Forall₂ (fun code e => Lexes code.toList fun ts => IsExpr .or ts e) codes es) :
    Lexes ("[" ++ commaSeparated codes ++ "]").toList fun ts => IsExpr .atom ts (.list default es) := by
  rw [String.toList_append, String.toList_append]
  apply (lexes_commaSeparated h).enclosed .square
  intro o ts r ho hts hr
  exact .list ho hts hr

theorem lexes_map {codes : List String} {es : List (Expr × Expr)}
    (h : List.Forall₂ (fun code kv => Lexes code.toList fun ts => IsEntry ts kv) codes es) :
    Lexes (braced (commaSeparated codes)).toList fun ts => IsExpr .atom ts (.map default es) := by
  rw [braced, String.toList_append, String.toList_append]
  apply (lexes_commaSeparated h).enclosed .curly
  intro o ts r ho hts hr
  exact .map ho hts hr

theorem lexes_call {codes : List String} {as : List Argument} (hc : Lexes code.toList fun ts => IsExpr .call ts e)
    (has : List.Forall₂ (fun code a => Lexes code.toList fun ts => IsArgument ts a) codes as) :
    Lexes (callCode code codes).toList fun ts => IsExpr .call ts (.call default e as) := by
  have htext : (callCode code codes).toList = code.toList ++ '(' :: ((commaSeparated codes).toList ++ [')']) := by
    simp only [callCode, String.toList_append, List.append_assoc]
    rfl
  rw [htext]
  apply hc.append (.cons _ (isSeparator_of_mem (by decide)))
  intro ts hts
  apply (lexes_commaSeparated has).enclosed .round
  intro o us r ho hus hr
  rw [← List.append_assoc]
  exact .call hts ho hus hr

theorem lexes_index (hb : Lexes lhs.toList fun ts => IsExpr .call ts e)
    (hi : Lexes rhs.toList fun ts => IsExpr .or ts f) :
    Lexes (lhs ++ "[" ++ rhs ++ "]").toList fun ts => IsExpr .call ts (.index default e f) := by
  have htext : (lhs ++ "[" ++ rhs ++ "]").toList = lhs.toList ++ '[' :: (rhs.toList ++ [']']) := by
    simp only [String.toList_append, List.append_assoc]
    rfl
  rw [htext]
  apply hb.append (.cons _ (isSeparator_of_mem (by decide)))
  intro ts hts
  apply hi.enclosed .square
  intro o us r ho hus hr
  rw [← List.append_assoc]
  exact .index hts ho hus hr

theorem lexes_field {name : String} (hb : Lexes code.toList fun ts => IsExpr .call ts e)
    (hname : IsIdentifier name) :
    Lexes (code ++ "." ++ name).toList fun ts => IsExpr .call ts (.field default e ⟨name, default⟩) := by
  have htext : (code ++ "." ++ name).toList = code.toList ++ '.' :: name.toList := by
    simp only [String.toList_append, List.append_assoc]
    rfl
  rw [htext]
  apply hb.append (.cons _ (isSeparator_of_mem (by decide)))
  intro ts hts
  apply Lexes.mark rfl (by decide) (fun _ _ => rfl)
  intro dot hdot
  apply Lexes.identifier hname
  intro x hx htx
  rw [← htx]
  exact .field hts hdot hx

theorem lexes_entry (hk : Lexes lhs.toList fun ts => IsExpr .or ts e)
    (hv : Lexes rhs.toList fun ts => IsExpr .or ts f) :
    Lexes (lhs ++ ": " ++ rhs).toList fun ts => IsEntry ts (e, f) := by
  have htext : (lhs ++ ": " ++ rhs).toList = lhs.toList ++ ':' :: ' ' :: rhs.toList := by
    simp only [String.toList_append, List.append_assoc]
    rfl
  rw [htext]
  apply hk.append (.cons _ (isSeparator_of_mem (by decide)))
  intro ts hts
  apply Lexes.mark rfl (by decide) (fun _ _ => rfl)
  intro colon hcolon
  apply LexesBefore.blank isBlank_space
  apply hv.mono
  intro us hus
  exact .mk hts hcolon hus

theorem lexes_int {v : Nat} (hv : v ≤ Nat.pow 2 63 - 1) :
    Lexes (toString v).toList fun ts => IsExpr .atom ts (.int default v) := by
  rw [toList_toString]
  apply Lexes.numeral
  intro t hk ht
  have hvalue : Parser.digitsValue t.text.toList = v := by
    rw [ht, String.toList_ofList]
    exact Nat.ofDigitChars_toDigits (by decide) (by decide)
  exact .int hk (numeral_iff.mpr hvalue) hv

end Constructs

namespace Python

/-- Names that are spelled as they are. -/
def keepsName (name : String) : Bool := !reserved.contains name && name.toList.getLast? != some '_'

/-- Expressions that are written as in source, their parts apart: no `true` or `false`, no division, no
keyword arguments, no names that are spelled otherwise and no control characters that source has no
escape for. -/
def isVerbatim : Expr → Bool
  | .string _ t => t.toList.all isWritable
  | .bool .. => false
  | .symbol _ x | .field _ _ x => keepsName x.name
  | .binary _ op _ _ => op != .div && op != .rem
  | .call _ _ as => as.all fun a => a.label.isNone
  | .int .. | .unary .. | .list .. | .map .. | .index .. => true

/-- Where nothing is known of types and no name is declared. -/
def untyped : Context := ⟨{}, { space := space }⟩

theorem ident_of_keepsName {name : String} (h : keepsName name = true) : space.ident name = name := by
  simp only [keepsName, Bool.and_eq_true, Bool.not_eq_true', bne_iff_ne, ne_eq] at h
  have htaken : space.taken name = false := by
    rw [Namespace.taken, Namespace.inLibrary, space, h.1]
    simpa using h.2
  rw [Namespace.ident, htaken]
  rfl

theorem level_pos (e : Expr) : 0 < (level e).rank := by
  cases e with
  | binary n op l r => cases op <;> exact Nat.zero_lt_succ _
  | _ => exact Nat.zero_lt_succ _

/-- What the code of an expression needs to be read as the expression. -/
def Written (d : Expr) : Prop := isVerbatim d = true ∧ d.IsSpellable

theorem lexes_symbol {n : Node} {x : Ident} (h : Written (.symbol n x)) :
    Lexes (expr untyped (.symbol n x)).value.toList fun ts => IsExpr .atom ts (Expr.symbol n x).bare := by
  have hcode : (expr untyped (.symbol n x)).value = x.name := ident_of_keepsName h.1
  rw [hcode]
  apply Lexes.identifier h.2
  intro t hk ht
  rw [Expr.bare, Ident.bare, ← ht]
  exact .symbol hk

theorem builtinCallee?_untyped (c : Expr) : builtinCallee? untyped c = none := by
  cases c <;> rfl

mutual
/-- The code of an expression is scanned as tokens that derive it, at the level of the code. -/
theorem lexes_expr : ∀ e : Expr, (∀ d ∈ e.parts, Written d) →
    Lexes (expr untyped e).value.toList fun ts => IsExpr (level e) ts e.bare
  | .int n v, h => by
    have hd := h (.int n v) List.mem_cons_self
    exact lexes_int hd.2
  | .string n t, h => by
    have hd := h (.string n t) List.mem_cons_self
    have hchars : ∀ c ∈ t.toList, isWritable c = true := List.all_eq_true.mp hd.1
    apply Lexes.literal hchars
    intro u hk hu
    rw [← hu]
    exact .string hk
  | .bool n b, h => by
    have hd := h (.bool n b) List.mem_cons_self
    cases hd.1
  | .symbol n x, h => lexes_symbol (h _ List.mem_cons_self)
  | .binary n op l r, h => by
    have hd := h (.binary n op l r) List.mem_cons_self
    have hop : op ≠ .div ∧ op ≠ .rem := by simpa [isVerbatim] using hd.1
    have hl := lexes_expr l fun d hd => h d (List.mem_cons_of_mem _ (List.mem_append_left _ hd))
    have hr := lexes_expr r fun d hd => h d (List.mem_cons_of_mem _ (List.mem_append_right _ hd))
    -- Only division and remainder have a helper, and with it a level of their own.
    have hhelper : helper? op = none := by
      cases op <;> simp_all [helper?]
    have hlevel : level (.binary n op l r) = op.precedence := by rw [level, hhelper]; rfl
    rw [hlevel, expr, hhelper]
    have hpos : 0 < op.precedence.rank := by cases op <;> decide
    have hnext : 0 < op.precedence.next.rank := by cases op <;> decide
    exact lexes_binary hop.1 (lexes_operandCode hl (level_pos l) hpos) (lexes_operandCode hr (level_pos r) hnext)
  | .unary n op e, h => by
    have he := lexes_expr e fun d hd => h d (List.mem_cons_of_mem _ hd)
    have hoperand : Lexes (operandCode (level e) .call (expr untyped e).value).toList fun ts =>
        IsExpr .call ts e.bare := lexes_operandCode he (level_pos e) (by decide)
    cases op with
    | neg => exact lexes_neg hoperand
    | not => exact lexes_not hoperand
  | .call n c as, h => by
    have hd := h (.call n c as) List.mem_cons_self
    have hlabels : ∀ a ∈ as, a.label = none := by simpa [isVerbatim] using hd.1
    have hc := lexes_expr c fun d hd => h d (List.mem_cons_of_mem _ (List.mem_append_left _ hd))
    have has := lexes_arguments as hlabels fun d hd =>
      h d (List.mem_cons_of_mem _ (List.mem_append_right _ hd))
    -- Without types no callee is a built-in, so that the arguments keep their order.
    rw [expr, builtinCallee?_untyped]
    exact lexes_call (lexes_operandCode hc (level_pos c) (by decide)) has
  | .list n es, h => by
    have hes := lexes_items es fun d hd => h d (List.mem_cons_of_mem _ hd)
    exact lexes_list hes
  | .map n es, h => by
    have hes := lexes_entries es fun d hd => h d (List.mem_cons_of_mem _ hd)
    exact lexes_map hes
  | .index n b i, h => by
    have hb := lexes_expr b fun d hd => h d (List.mem_cons_of_mem _ (List.mem_append_left _ hd))
    have hi := lexes_expr i fun d hd => h d (List.mem_cons_of_mem _ (List.mem_append_right _ hd))
    apply lexes_index (lexes_operandCode hb (level_pos b) (by decide))
    apply hi.mono
    intro ts hts
    exact hts.of_le (by decide) (level_pos i)
  | .field n b x, h => by
    have hd := h (.field n b x) List.mem_cons_self
    have hb := lexes_expr b fun d hd => h d (List.mem_cons_of_mem _ hd)
    have hname : untyped.names.space.ident x.name = x.name := ident_of_keepsName hd.1
    simp only [expr, Fragment.value_bind, Fragment.value_pure, hname]
    exact lexes_field (lexes_operandCode hb (level_pos b) (by decide)) hd.2
theorem lexes_arguments : ∀ as : List Argument, (∀ a ∈ as, a.label = none) →
    (∀ d ∈ Expr.argumentParts as, Written d) →
    List.Forall₂ (fun code a => Lexes code.toList fun ts => IsArgument ts a)
      (Fragment.sequence ((arguments untyped as).map (argumentCode untyped))).value (Expr.bareArguments as)
  | [], _, _ => .nil
  | ⟨label, value⟩ :: as, hlabels, h => by
    obtain rfl : label = none := hlabels _ List.mem_cons_self
    have hvalue := lexes_expr value fun d hd => h d (List.mem_append_left _ hd)
    have has := lexes_arguments as (fun a ha => hlabels a (List.mem_cons_of_mem _ ha)) fun d hd =>
      h d (List.mem_append_right _ hd)
    refine .cons (hvalue.mono ?_) has
    intro ts hts
    exact .positional (hts.of_le (by decide) (level_pos value))
theorem lexes_items : ∀ es : List Expr, (∀ d ∈ Expr.itemParts es, Written d) →
    List.Forall₂ (fun code e => Lexes code.toList fun ts => IsExpr .or ts e)
      (items untyped es).value (Expr.bareItems es)
  | [], _ => .nil
  | e :: es, h => by
    have he := lexes_expr e fun d hd => h d (List.mem_append_left _ hd)
    have hes := lexes_items es fun d hd => h d (List.mem_append_right _ hd)
    refine .cons (he.mono ?_) hes
    intro ts hts
    exact hts.of_le (by decide) (level_pos e)
theorem lexes_entries : ∀ es : List (Expr × Expr), (∀ d ∈ Expr.entryParts es, Written d) →
    List.Forall₂ (fun code kv => Lexes code.toList fun ts => IsEntry ts kv)
      (entries untyped es).value (Expr.bareEntries es)
  | [], _ => .nil
  | (k, v) :: es, h => by
    have hk := lexes_expr k fun d hd => h d (List.mem_append_left _ (List.mem_append_left _ hd))
    have hv := lexes_expr v fun d hd => h d (List.mem_append_left _ (List.mem_append_right _ hd))
    have hes := lexes_entries es fun d hd => h d (List.mem_append_right _ hd)
    refine .cons (lexes_entry (hk.mono ?_) (hv.mono ?_)) hes
    · intro ts hts
      exact hts.of_le (by decide) (level_pos k)
    · intro ts hts
      exact hts.of_le (by decide) (level_pos v)
end

/-- The code of an expression that is written as in source is read as that expression, but for numbers and
places. -/
theorem parseExpr_expr {source : String} {e : Expr} (h : parseExpr source = .ok e)
    (hv : ∀ d ∈ e.parts, isVerbatim d = true) :
    ∃ e', parseExpr (expr untyped e).value = .ok e' ∧ e'.bare = e.bare := by
  obtain ⟨ts, stop, hts, hoc⟩ := Parser.occupies_of_parseExpr h
  have hnames : ∀ t ∈ ts, t.kind = .identifier → IsIdentifier t.text := by
    intro t ht
    exact Scanner.isIdentifier_of_tokens hts t (List.mem_append_left _ ht)
  have hwritten : ∀ d ∈ e.parts, Written d := fun d hd => ⟨hv d hd, hoc.spellable hnames d hd⟩
  obtain ⟨us, stop', hus, hstop, hagain⟩ := (lexes_expr e hwritten).tokens {} false
  exact Parser.parseExpr_of_isExpr hus hstop (hagain.of_le (by decide) (level_pos e))

/-- Parentheses that say nothing and zeros in front of a number are gone from the code; the others stay. -/
theorem parseExpr_expr_nested :
    ∃ e, parseExpr "((a)-(2-b))*-(-f(\"q\\n\",[1])[007]) == \x7bc:not(d.e)\x7d.g or (i or j)" = .ok e ∧
      (∀ d ∈ e.parts, isVerbatim d = true) ∧
      (expr untyped e).value = "(a - (2 - b)) * -(-f(\"q\\n\", [1])[7]) == \x7bc: not d.e\x7d.g or (i or j)" ∧
      ∃ e', parseExpr (expr untyped e).value = .ok e' ∧ e'.bare = e.bare := by
  have hread : ((parseExpr "((a)-(2-b))*-(-f(\"q\\n\",[1])[007]) == \x7bc:not(d.e)\x7d.g or (i or j)").toOption.any
      fun e => e.parts.all isVerbatim && (expr untyped e).value ==
        "(a - (2 - b)) * -(-f(\"q\\n\", [1])[7]) == \x7bc: not d.e\x7d.g or (i or j)") = true := by
    decide +kernel
  cases hp : parseExpr "((a)-(2-b))*-(-f(\"q\\n\",[1])[007]) == \x7bc:not(d.e)\x7d.g or (i or j)" with
  | error f =>
    rw [hp] at hread
    cases hread
  | ok e =>
    rw [hp] at hread
    have hparts := Bool.and_eq_true_iff.mp hread
    have hall : ∀ d ∈ e.parts, isVerbatim d = true := List.all_eq_true.mp hparts.1
    exact ⟨e, rfl, hall, beq_iff_eq.mp hparts.2, parseExpr_expr hp hall⟩

end Python

end Gondola
