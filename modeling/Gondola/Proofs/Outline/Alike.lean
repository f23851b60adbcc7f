import Gondola.Proofs.Code.Rereading
import Gondola.Proofs.Outline.Legible
import Gondola.Proofs.Typing.Annotation

/-! Outlines without types leave out the numbers of expressions, lines and columns, and the places of names and types,
and nothing else. -/
namespace Gondola

open Text

/-- The bytes that a span covers. -/
def Span.extent (s : Span) : Nat × Nat := (s.lo, s.len)

theorem not_mem_toDigits {c : Char} (hc : c.isDigit = false) (n : Nat) : c ∉ Nat.toDigits 10 n := by
  intro h
  rw [Nat.isDigit_of_mem_toDigits (by decide) (by decide) h] at hc
  cases hc

theorem Span.toList_range (s : Span) :
    s.range.toList = (Nat.toDigits 10 s.lo ++ ['.']) ++ '.' :: Nat.toDigits 10 s.hi := by
  simp [range]

theorem Span.range_inj {s t : Span} (h : s.range = t.range) : s.extent = t.extent := by
  have hchars := congrArg String.toList h
  rw [toList_range, toList_range] at hchars
  have hdot (n : Nat) : '.' ∉ Nat.toDigits 10 n := not_mem_toDigits (by decide) n
  obtain ⟨hlo, hhi⟩ := append_cons_inj (hdot _) (hdot _) hchars
  have hlo' := toDigits_inj (List.append_cancel_right hlo)
  have hhi' := toDigits_inj hhi
  simp only [hi, hlo', Nat.add_left_cancel_iff] at hhi'
  rw [extent, extent, hlo', hhi']

def Item.span : Item → Span
  | .function s _ => s
  | .stmt s => s.span

namespace Outline

theorem titled_inj {a b : String} {s t : Span} {ts us : List Tree} (h : titled a s ts = titled b t us) :
    a = b ∧ s.extent = t.extent ∧ ts = us := by
  have hchars (a : String) (s : Span) : (a ++ (" (" ++ s.range ++ ")")).toList =
      (a.toList ++ [' ']) ++ '(' :: (s.range.toList ++ [')']) := by
    simp
  have hopen (s : Span) : '(' ∉ s.range.toList ++ [')'] := by
    simp [Span.toList_range, not_mem_toDigits]
  obtain ⟨htext, hbelow⟩ := Tree.node.inj h
  have hcut := congrArg String.toList htext
  rw [hchars, hchars] at hcut
  -- The last parenthesis that opens is that of the range, whatever the label holds.
  obtain ⟨hlabel, hrange⟩ := append_cons_inj (hopen s) (hopen t) hcut
  exact ⟨String.toList_inj.mp (List.append_cancel_right hlabel),
    Span.range_inj (String.toList_inj.mp (List.append_cancel_right hrange)), hbelow⟩

/-! Expressions. -/

/-- What outlines tell of two things with the given parts and statements: that they have the same shape and texts, and
that their parts and statements are the same bytes. -/
structure Same {α : Type} (a a' : α) (es es' : List Expr) (ss ss' : List Stmt) : Prop where
  bare : a = a'
  parts : es.map (·.span.extent) = es'.map (·.span.extent)
  stmts : ss.map (·.span.extent) = ss'.map (·.span.extent)

abbrev SameExpr (e e' : Expr) : Prop := Same e.bare e'.bare e.parts e'.parts [] []

attribute [local simp] Expr.bare Expr.parts Expr.bareArguments Expr.argumentParts Expr.bareItems Expr.itemParts
  Expr.bareEntries Expr.entryParts Ident.bare

theorem binaryName_inj {op op' : BinaryOp} (h : op.name = op'.name) : op = op' := by
  cases op <;> cases op' <;> first | rfl | simp [BinaryOp.name] at h

theorem unaryName_inj {op op' : UnaryOp} (h : op.name = op'.name) : op = op' := by
  cases op <;> cases op' <;> first | rfl | simp [UnaryOp.name] at h

theorem ofExpr_titled (e : Expr) : ∃ a ts, ofExpr e = titled a e.span ts := by
  cases e <;> exact ⟨_, _, rfl⟩

theorem extent_of_titled {t u : Tree} {s s' : Span} (ht : ∃ a ts, t = titled a s ts) (hu : ∃ a ts, u = titled a s' ts)
    (h : t = u) : s.extent = s'.extent := by
  obtain ⟨a, ts, rfl⟩ := ht
  obtain ⟨b, us, rfl⟩ := hu
  exact (titled_inj h).2.1

def start : Expr → List Char
  | .int .. => ['i', 'n', 't', ' ']
  | .string .. => ['s', 't', 'r', 'i']
  | .bool .. => ['b', 'o', 'o', 'l']
  | .symbol .. => ['s', 'y', 'm', 'b']
  | .binary .. => ['i', 'n', 'f', 'i']
  | .unary .. => ['p', 'r', 'e', 'f']
  | .call .. => ['c', 'a', 'l', 'l']
  | .list .. => ['l', 'i', 's', 't']
  | .map .. => ['m', 'a', 'p', ' ']
  | .index .. => ['i', 'n', 'd', 'e']
  | .field .. => ['f', 'i', 'e', 'l']

theorem take_ofExpr (e : Expr) : (ofExpr e).text.toList.take 4 = start e := by
  cases e <;> simp [ofExpr, titled, Tree.text, start]

theorem ofExpr_ne_keyword (e : Expr) {x : String} {ts : List Tree} : ofExpr e ≠ .node ("keyword " ++ x) ts := by
  intro h
  have hstart := take_ofExpr e
  rw [h] at hstart
  cases e <;> simp [Tree.text, start] at hstart

mutual
theorem same_expr (e e' : Expr) (h : ofExpr e = ofExpr e') : SameExpr e e' := by
  have hstart : start e = start e' := by rw [← take_ofExpr, h, take_ofExpr]
  have hextent := extent_of_titled (ofExpr_titled e) (ofExpr_titled e') h
  cases e <;> cases e' <;> try (simp [start] at hstart; done)
  all_goals
    obtain ⟨hlabel, -, hbelow⟩ := titled_inj h
    clear h hstart
  case int.int _ v _ v' =>
    obtain rfl : v = v' := toDigits_inj (by simpa using congrArg String.toList hlabel)
    constructor <;> simp [*]
  case string.string _ t _ t' =>
    obtain rfl : t = t' := quoted_inj (String.append_right_inj _ |>.mp hlabel)
    constructor <;> simp [*]
  case bool.bool _ v _ v' =>
    obtain rfl : v = v' := by cases v <;> cases v' <;> simp_all
    constructor <;> simp [*]
  case symbol.symbol _ x _ x' =>
    have hx : x.name = x'.name := String.append_right_inj _ |>.mp hlabel
    constructor <;> simp [*]
  case binary.binary _ op l r _ op' l' r' =>
    obtain rfl := binaryName_inj (String.append_right_inj _ |>.mp hlabel)
    obtain ⟨hl, hr⟩ := List.cons.inj hbelow
    obtain ⟨hl, hlparts, -⟩ := same_expr l l' hl
    obtain ⟨hr, hrparts, -⟩ := same_expr r r' (List.cons.inj hr).1
    constructor <;> simp [*]
  case unary.unary _ op e _ op' e' =>
    obtain rfl := unaryName_inj (String.append_right_inj _ |>.mp hlabel)
    obtain ⟨he, hparts, -⟩ := same_expr e e' (List.cons.inj hbelow).1
    constructor <;> simp [*]
  case call.call _ c as _ c' as' =>
    obtain ⟨hc, has⟩ := List.cons.inj hbelow
    obtain ⟨hc, hcparts, -⟩ := same_expr c c' hc
    obtain ⟨has, haparts, -⟩ := same_arguments as as' has
    constructor <;> simp [*]
  case list.list _ es _ es' =>
    obtain ⟨hes, hparts, -⟩ := same_items es es' hbelow
    constructor <;> simp [*]
  case map.map _ es _ es' =>
    obtain ⟨hes, hparts, -⟩ := same_entries es es' hbelow
    constructor <;> simp [*]
  case index.index _ b i _ b' i' =>
    obtain ⟨hb, hi⟩ := List.cons.inj hbelow
    obtain ⟨hb, hbparts, -⟩ := same_expr b b' hb
    obtain ⟨hi, hiparts, -⟩ := same_expr i i' (List.cons.inj hi).1
    constructor <;> simp [*]
  case field.field _ b x _ b' x' =>
    have hx : x.name = x'.name := String.append_right_inj _ |>.mp hlabel
    obtain ⟨hb, hparts, -⟩ := same_expr b b' (List.cons.inj hbelow).1
    constructor <;> simp [*]
theorem same_arguments : ∀ as as' : List Argument, ofArguments as = ofArguments as' →
    Same (Expr.bareArguments as) (Expr.bareArguments as') (Expr.argumentParts as) (Expr.argumentParts as') [] []
  | [], [], _ => ⟨rfl, rfl, rfl⟩
  | [], ⟨none, _⟩ :: _, h | [], ⟨some _, _⟩ :: _, h | ⟨none, _⟩ :: _, [], h | ⟨some _, _⟩ :: _, [], h => by cases h
  | ⟨none, e⟩ :: as, ⟨none, e'⟩ :: as', h => by
    obtain ⟨he, has⟩ := List.cons.inj h
    obtain ⟨he, heparts, -⟩ := same_expr e e' he
    obtain ⟨has, haparts, -⟩ := same_arguments as as' has
    constructor <;> simp [*]
  | ⟨none, e⟩ :: as, ⟨some x, e'⟩ :: as', h => absurd (List.cons.inj h).1 (ofExpr_ne_keyword e)
  | ⟨some x, e⟩ :: as, ⟨none, e'⟩ :: as', h => absurd (List.cons.inj h).1.symm (ofExpr_ne_keyword e')
  | ⟨some x, e⟩ :: as, ⟨some x', e'⟩ :: as', h => by
    obtain ⟨hfirst, has⟩ := List.cons.inj h
    obtain ⟨hword, he⟩ := Tree.node.inj hfirst
    have hx : x.name = x'.name := String.append_right_inj _ |>.mp hword
    obtain ⟨he, heparts, -⟩ := same_expr e e' (List.cons.inj he).1
    obtain ⟨has, haparts, -⟩ := same_arguments as as' has
    constructor <;> simp [*]
theorem same_items : ∀ es es' : List Expr, ofItems es = ofItems es' →
    Same (Expr.bareItems es) (Expr.bareItems es') (Expr.itemParts es) (Expr.itemParts es') [] []
  | [], [], _ => ⟨rfl, rfl, rfl⟩
  | [], _ :: _, h | _ :: _, [], h => by cases h
  | e :: es, e' :: es', h => by
    obtain ⟨he, hes⟩ := List.cons.inj h
    obtain ⟨he, heparts, -⟩ := same_expr e e' he
    obtain ⟨hes, hparts, -⟩ := same_items es es' hes
    constructor <;> simp [*]
theorem same_entries : ∀ es es' : List (Expr × Expr), ofEntries es = ofEntries es' →
    Same (Expr.bareEntries es) (Expr.bareEntries es') (Expr.entryParts es) (Expr.entryParts es') [] []
  | [], [], _ => ⟨rfl, rfl, rfl⟩
  | [], _ :: _, h | _ :: _, [], h => by cases h
  | (k, v) :: es, (k', v') :: es', h => by
    obtain ⟨hfirst, hes⟩ := List.cons.inj h
    obtain ⟨hk, hv⟩ := List.cons.inj (Tree.node.inj hfirst).2
    obtain ⟨hk, hkparts, -⟩ := same_expr k k' hk
    obtain ⟨hv, hvparts, -⟩ := same_expr v v' (List.cons.inj hv).1
    obtain ⟨hes, hparts, -⟩ := same_entries es es' hes
    constructor <;> simp [*]
end

/-! Names, types and lists of them, as they stand in the lines of statements. -/

theorem name_inj {x y : Ident} {s t : List Char} (hx : IsIdentifier x.name) (hy : IsIdentifier y.name)
    (hs : ∀ c ∈ s.head?, continuesName c = false) (ht : ∀ c ∈ t.head?, continuesName c = false)
    (h : x.name.toList ++ s = y.name.toList ++ t) : x.bare = y.bare ∧ s = t := by
  have hcut {x : Ident} {s : List Char} (hx : IsIdentifier x.name) (hs : ∀ c ∈ s.head?, continuesName c = false) :
      (x.name.toList ++ s).takeWhile continuesName = x.name.toList ∧
        (x.name.toList ++ s).dropWhile continuesName = s := by
    have hall := hx.continuesName
    obtain ⟨htake, hdrop⟩ := Lexeme.span_append (fun _ => hs)
    rw [htake, hdrop, List.takeWhile_eq_self_iff.mpr hall, List.dropWhile_eq_nil_iff.mpr hall]
    exact ⟨rfl, rfl⟩
  have hname := (hcut hx hs).1
  have hrest := (hcut hx hs).2
  rw [h, (hcut hy ht).1] at hname
  rw [h, (hcut hy ht).2] at hrest
  exact ⟨by rw [Ident.bare, Ident.bare, String.toList_inj.mp hname], hrest.symm⟩

theorem text_inj {a b : TypeExpr} (ha : ∀ x ∈ a.names, IsIdentifier x.name) (hb : ∀ x ∈ b.names, IsIdentifier x.name)
    (h : a.text = b.text) : a.bare = b.bare := by
  obtain ⟨c, hc, hca⟩ := TypeExpr.whole_text ha
  obtain ⟨d, hd, hdb⟩ := TypeExpr.whole_text hb
  rw [h, hd] at hc
  rw [← hca, ← hdb, Except.ok.inj hc]

theorem typeSuffix_inj {a b : Option TypeExpr} (ha : ∀ t ∈ a.toList, ∀ x ∈ t.names, IsIdentifier x.name)
    (hb : ∀ t ∈ b.toList, ∀ x ∈ t.names, IsIdentifier x.name) (h : typeSuffix a = typeSuffix b) :
    a.map TypeExpr.bare = b.map TypeExpr.bare := by
  cases a <;> cases b
  · rfl
  · simp [typeSuffix] at h
  · simp [typeSuffix] at h
  · exact congrArg some (text_inj (ha _ (by simp)) (hb _ (by simp)) (String.append_right_inj _ |>.mp h))

section Lists

open Grammar Gondola.Parser

variable {α : Type} {G : List Token → α → Prop} {item : Nat → Parse α} {bare : α → α} {text : α → String} {xs ys : List α}

/-- Items of lists that are read one by one. -/
structure Listed (G : List Token → α → Prop) (item : Nat → Parse α) (bare : α → α) : Prop where
  first : ∀ {ts a}, G ts a → ∃ t vs, ts = t :: vs ∧ startsExpr t.kind
  accepts : ∀ {n us a r} rs, us.length < n → G us a → endsItem r.kind → Accepts (item n) bare us a (r :: rs)

theorem commaSeparated_inj (hG : Listed G item bare) (hxs : ∀ x ∈ xs, Lexes (text x).toList (G · (bare x)))
    (hys : ∀ y ∈ ys, Lexes (text y).toList (G · (bare y)))
    (h : commaSeparated (xs.map text) = commaSeparated (ys.map text)) : xs.map bare = ys.map bare := by
  have hread {xs : List α} (hxs : ∀ x ∈ xs, Lexes (text x).toList (G · (bare x))) :
      ∃ as, whole (fun n => payloadOf (item n) n) ("(" ++ commaSeparated (xs.map text) ++ ")") = .ok as ∧
        as.map bare = xs.map bare := by
    have hitems : List.Forall₂ (fun code a => Lexes code.toList (G · a)) (xs.map text) (xs.map bare) := by
      rw [List.forall₂_map_left_iff, List.forall₂_map_right_iff, List.forall₂_same]
      exact hxs
    have hlist : Lexes ("(" ++ commaSeparated (xs.map text) ++ ")").toList (Payload G · (xs.map bare)) := by
      rw [String.toList_append, String.toList_append]
      exact (lexes_commaSeparated hitems).enclosed .round fun _ _ _ hl hs hr => .present hl hs hr
    obtain ⟨ts, stop, htokens, hstop, hts⟩ := hlist.tokens default false
    exact whole_of_accepts htokens hstop fun n hn => payloadOf_accepts hts hG.first
      (fun rs hle hg he => hG.accepts rs (by omega) hg he) hn (by rw [hstop]; exact nofun) []
  obtain ⟨as, has, hxs⟩ := hread hxs
  obtain ⟨bs, hbs, hys⟩ := hread hys
  rw [h, hbs] at has
  rw [← hxs, ← hys, Except.ok.inj has]

theorem payload_inj (hG : Listed G item bare) (hxs : ∀ x ∈ xs, Lexes (text x).toList (G · (bare x)))
    (hys : ∀ y ∈ ys, Lexes (text y).toList (G · (bare y)))
    (h : payload (xs.map text) = payload (ys.map text)) : xs.map bare = ys.map bare := by
  cases xs <;> cases ys
  · rfl
  · simp [payload] at h
  · simp [payload] at h
  · refine commaSeparated_inj hG hxs hys ?_
    simpa [payload] using h

theorem listed_name : Listed IsName (fun _ => ident) Ident.bare := ⟨IsName.head, fun _ _ hg _ => ident_accepts hg _⟩

theorem listed_type : Listed IsType typeExpr TypeExpr.bare :=
  ⟨IsType.head, fun rs hn hg he => typeExpr_accepts hg hn (ne_less_of_endsItem he) rs⟩

theorem listed_binding : Listed IsBinding bindingWithin Binding.bare :=
  ⟨IsBinding.head, fun rs hn hg he => bindingWithin_accepts hg hn (ne_less_of_endsItem he) rs⟩

theorem lexes_name {x : Ident} (hx : IsIdentifier x.name) : Lexes x.name.toList (IsName · x.bare) := by
  refine .identifier hx fun t hk ht => ?_
  have hname := IsName.mk hk
  rwa [word, ht] at hname

theorem lexes_type {a : TypeExpr} (ha : ∀ x ∈ a.names, IsIdentifier x.name) : Lexes a.text.toList (IsType · a.bare) := by
  intro here done ds hds
  refine TypeExpr.lexes_text a ha here done ds fun d hd => ?_
  have hsep := hds d hd
  simp only [isSeparator, Bool.and_eq_true, Bool.not_eq_true', bne_iff_ne] at hsep
  exact ⟨hsep.1.1.1.1, hsep.1.1.2⟩

theorem lexes_binding {b : Binding} (hx : IsIdentifier b.name.name) (hb : ∀ x ∈ b.type.names, IsIdentifier x.name) :
    Lexes (bindingText b).toList (IsBinding · b.bare) := by
  rw [bindingText, String.append_assoc, String.toList_append, String.toList_append]
  have hname : Lexes b.name.name.toList fun ts => ∃ t, ts = [t] ∧ t.kind = .identifier ∧ t.text = b.name.name :=
    .identifier hx fun t hk ht => ⟨t, rfl, hk, ht⟩
  refine hname.append (.cons _ (isSeparator_of_mem (by decide))) ?_
  rintro _ ⟨t, rfl, hk, ht⟩
  refine Lexes.mark rfl (by decide) (fun _ _ => rfl) fun c hc => ?_
  refine LexesBefore.blank isBlank_space ((lexes_type hb).mono fun ts hts => ?_)
  have hbinding := IsBinding.mk hk hc hts
  rwa [word, ht] at hbinding

end Lists

/-! Statements. -/

theorem ofStmt_titled {s : Stmt} (h : s.IsSpellable) : ∃ a ts, ofStmt s = titled a s.span ts := by
  cases s with
  | expr sp e =>
    rw [ofStmt, Stmt.span, h.single sp e rfl]
    exact ofExpr_titled e
  | letVar | assign | ret | ifElse | whileLoop | forEach | matchOn | struct | enum => exact ⟨_, _, rfl⟩

def startStmt : Stmt → List Char
  | .letVar .. => ['l', 'e', 't', ' ']
  | .assign .. => ['a', 's', 's', 'i']
  | .ret .. => ['r', 'e', 't', 'u']
  | .expr _ e => start e
  | .ifElse .. => ['i', 'f', ' ', '(']
  | .whileLoop .. => ['w', 'h', 'i', 'l']
  | .forEach .. => ['f', 'o', 'r', ' ']
  | .matchOn .. => ['m', 'a', 't', 'c']
  | .struct .. => ['s', 't', 'r', 'u']
  | .enum .. => ['e', 'n', 'u', 'm']

theorem take_ofStmt (s : Stmt) : (ofStmt s).text.toList.take 4 = startStmt s := by
  cases s
  case expr e => exact take_ofExpr e
  all_goals simp [ofStmt, titled, Tree.text, startStmt]

theorem expr_of_start {s : Stmt} {e : Expr} (h : startStmt s = start e) : ∃ sp d, s = .expr sp d := by
  cases s
  case expr sp d => exact ⟨sp, d, rfl⟩
  all_goals cases e <;> simp [startStmt, start] at h

theorem head_typeSuffix (a : Option TypeExpr) : ∀ c ∈ (typeSuffix a).toList.head?, continuesName c = false := by
  cases a with
  | none => exact nofun
  | some a =>
    rw [typeSuffix, String.toList_append]
    rintro _ ⟨⟩
    decide

theorem head_payload (items : List String) : ∀ c ∈ (payload items).toList.head?, continuesName c = false := by
  cases items with
  | nil => exact nofun
  | cons x xs =>
    intro c hc
    obtain rfl : '(' = c := by simpa [payload] using hc
    decide

theorem declared_inj {x y : Ident} {a b : Option TypeExpr} (hx : Spelled [x] a.toList) (hy : Spelled [y] b.toList)
    (h : x.name ++ typeSuffix a = y.name ++ typeSuffix b) : x.bare = y.bare ∧ a.map TypeExpr.bare = b.map TypeExpr.bare := by
  have hchars := congrArg String.toList h
  rw [String.toList_append, String.toList_append] at hchars
  obtain ⟨hname, htype⟩ := name_inj (hx.1 x (by simp)) (hy.1 y (by simp)) (head_typeSuffix a) (head_typeSuffix b) hchars
  exact ⟨hname, typeSuffix_inj hx.2 hy.2 (String.toList_inj.mp htype)⟩

theorem bindingText_inj {b c : Binding} (hb : Spelled [b.name] [b.type]) (hc : Spelled [c.name] [c.type])
    (h : bindingText b = bindingText c) : b.bare = c.bare := by
  rw [bindingText, bindingText, String.append_assoc, String.append_assoc] at h
  obtain ⟨hname, htype⟩ := declared_inj (a := some b.type) (b := some c.type) hb hc h
  rw [Binding.bare, Binding.bare, hname, Option.some.inj htype]

section Applied

variable {α : Type} {G : List Token → α → Prop} {item : Nat → Parse α} {bare : α → α} {text : α → String}

theorem applied_inj {x y : Ident} {xs ys : List α} (hG : Listed G item bare) (hx : IsIdentifier x.name)
    (hy : IsIdentifier y.name) (hxs : ∀ x ∈ xs, Lexes (text x).toList (G · (bare x)))
    (hys : ∀ y ∈ ys, Lexes (text y).toList (G · (bare y)))
    (h : x.name ++ payload (xs.map text) = y.name ++ payload (ys.map text)) :
    x.bare = y.bare ∧ xs.map bare = ys.map bare := by
  have hchars := congrArg String.toList h
  rw [String.toList_append, String.toList_append] at hchars
  obtain ⟨hname, hitems⟩ := name_inj hx hy (head_payload _) (head_payload _) hchars
  exact ⟨hname, payload_inj hG hxs hys (String.toList_inj.mp hitems)⟩

end Applied

attribute [local simp] Stmt.bare Stmt.parts Stmt.nested Stmt.bareClauses Stmt.clauseParts Stmt.clauseStmts
  Stmt.bareArms Stmt.armParts Stmt.armStmts Stmt.bareOtherwise Stmt.otherwiseParts Stmt.otherwiseStmts Stmt.bareBlock
  Stmt.blockParts Stmt.blockStmts

mutual
theorem same_stmt (s s' : Stmt) (hs : ∀ t ∈ s :: s.nested, t.IsSpellable) (hs' : ∀ t ∈ s' :: s'.nested, t.IsSpellable)
    (h : ofStmt s = ofStmt s') : Same s.bare s'.bare s.parts s'.parts (s :: s.nested) (s' :: s'.nested) := by
  obtain ⟨hown, hin⟩ := List.forall_mem_cons.mp hs
  obtain ⟨hown', hin'⟩ := List.forall_mem_cons.mp hs'
  have hstart : startStmt s = startStmt s' := by rw [← take_ofStmt, h, take_ofStmt]
  have hextent := extent_of_titled (ofStmt_titled hown) (ofStmt_titled hown') h
  clear hs hs'
  cases s <;> cases s' <;> try (simp [startStmt] at hstart; done)
  case expr.expr _ e _ e' =>
    obtain ⟨he, hparts, -⟩ := same_expr e e' h
    constructor <;> simp [*]
  -- An expression starts like no other statement, so that the two are of one kind here.
  all_goals
    first
    | obtain ⟨_, _, h⟩ := expr_of_start hstart; cases h
    | obtain ⟨_, _, h⟩ := expr_of_start hstart.symm; cases h
    | obtain ⟨hlabel, -, hbelow⟩ := titled_inj h; clear h hstart
  case letVar.letVar _ x a e _ x' a' e' =>
    rw [String.append_assoc, String.append_assoc, String.append_right_inj] at hlabel
    obtain ⟨hx, ha⟩ := declared_inj hown.spelled hown'.spelled hlabel
    obtain ⟨he, hparts, -⟩ := same_expr e e' (List.cons.inj hbelow).1
    exact ⟨by simp only [Stmt.bare, hx, ha, he], hparts, congrArg (fun x => [x]) hextent⟩
  case assign.assign _ t e _ t' e' =>
    obtain ⟨ht, he⟩ := List.cons.inj hbelow
    obtain ⟨ht, htparts, -⟩ := same_expr t t' ht
    obtain ⟨he, heparts, -⟩ := same_expr e e' (List.cons.inj he).1
    constructor <;> simp [*]
  case ret.ret _ e _ e' =>
    cases e <;> cases e' <;> try (cases hbelow; done)
    · constructor <;> simp [*]
    · obtain ⟨he, hparts, -⟩ := same_expr _ _ (List.cons.inj hbelow).1
      constructor <;> simp [*]
  case ifElse.ifElse _ cs o _ cs' o' =>
    obtain ⟨hin, hino⟩ := List.forall_mem_append.mp hin
    obtain ⟨hin', hino'⟩ := List.forall_mem_append.mp hin'
    obtain ⟨⟨hcs, hcparts, hcstmts⟩, ho⟩ := same_clauses cs cs' hin hin' hbelow
    obtain ⟨ho, hoparts, hostmts⟩ := same_otherwise o o' hino hino' ho
    constructor <;> simp [*]
  case whileLoop.whileLoop _ c b _ c' b' =>
    obtain ⟨hc, hb⟩ := List.cons.inj hbelow
    obtain ⟨hc, hcparts, -⟩ := same_expr c c' hc
    obtain ⟨hb, hbparts, hbstmts⟩ := same_block b b' hin hin' hb
    constructor <;> simp [*]
  case forEach.forEach _ vs e b _ vs' e' b' =>
    have hnames : vs.names.map Ident.bare = vs'.names.map Ident.bare :=
      commaSeparated_inj listed_name (fun x hx => lexes_name (hown.names x hx))
        (fun x hx => lexes_name (hown'.names x hx)) (String.append_right_inj _ |>.mp hlabel)
    have hvs : vs.bare = vs'.bare := by
      obtain ⟨_ | i, x⟩ := vs <;> obtain ⟨_ | i', x'⟩ := vs' <;> simp_all [LoopVars.bare, LoopVars.names]
    obtain ⟨he, hb⟩ := List.cons.inj hbelow
    obtain ⟨he, heparts, -⟩ := same_expr e e' he
    obtain ⟨hb, hbparts, hbstmts⟩ := same_block b b' hin hin' hb
    constructor <;> simp [*]
  case matchOn.matchOn _ e as o _ e' as' o' =>
    obtain ⟨he, has⟩ := List.cons.inj hbelow
    obtain ⟨he, heparts, -⟩ := same_expr e e' he
    obtain ⟨hin, hino⟩ := List.forall_mem_append.mp hin
    obtain ⟨hin', hino'⟩ := List.forall_mem_append.mp hin'
    obtain ⟨⟨has, haparts, hastmts⟩, ho⟩ := same_arms as as' hown.names hown'.names hin hin' has
    obtain ⟨ho, hoparts, hostmts⟩ := same_otherwise o o' hino hino' ho
    constructor <;> simp [*]
  case struct.struct _ d _ d' =>
    have hname : d.name.name = d'.name.name := String.append_right_inj _ |>.mp hlabel
    have hfields := map_eq_of_map_eq (fun b hb c hc h => bindingText_inj (spelled_field hown hb) (spelled_field hown' hc)
      (Tree.node.inj h).1) hbelow
    constructor <;> simp [StructDecl.bare, *]
  case enum.enum _ d _ d' =>
    have hname : d.name.name = d'.name.name := String.append_right_inj _ |>.mp hlabel
    have hcases : d.cases.map EnumCase.bare = d'.cases.map EnumCase.bare := by
      refine map_eq_of_map_eq (fun c hc c' hc' h => ?_) hbelow
      obtain ⟨hx, hps⟩ := spelled_case hown hc
      obtain ⟨hx', hps'⟩ := spelled_case hown' hc'
      obtain ⟨hname, hparams⟩ := applied_inj listed_type (hx _ List.mem_cons_self) (hx' _ List.mem_cons_self)
        (fun a ha => lexes_type (hps a ha)) (fun a ha => lexes_type (hps' a ha)) (Tree.node.inj h).1
      rw [EnumCase.bare, EnumCase.bare, hname, hparams]
    constructor <;> simp [EnumDecl.bare, *]
theorem same_clauses : ∀ cs cs' : List Clause, (∀ t ∈ Stmt.clauseStmts cs, t.IsSpellable) →
    (∀ t ∈ Stmt.clauseStmts cs', t.IsSpellable) → ∀ {o o' : Option Block},
    ofClauses cs ++ ofOtherwise "else" o = ofClauses cs' ++ ofOtherwise "else" o' →
    Same (Stmt.bareClauses cs) (Stmt.bareClauses cs') (Stmt.clauseParts cs) (Stmt.clauseParts cs')
      (Stmt.clauseStmts cs) (Stmt.clauseStmts cs') ∧ ofOtherwise "else" o = ofOtherwise "else" o'
  | [], [], _, _, _, _, h => ⟨⟨rfl, rfl, rfl⟩, h⟩
  | [], ⟨_, _⟩ :: _, _, _, o, _, h | ⟨_, _⟩ :: _, [], _, _, _, o, h => by
    cases o <;> simp [ofClauses, ofOtherwise] at h
  | ⟨c, b⟩ :: cs, ⟨c', b'⟩ :: cs', hs, hs', o, o', h => by
    obtain ⟨hb, hcs⟩ := List.forall_mem_append.mp hs
    obtain ⟨hb', hcs'⟩ := List.forall_mem_append.mp hs'
    obtain ⟨hc, h⟩ := List.cons.inj h
    obtain ⟨hbody, h⟩ := List.cons.inj h
    obtain ⟨hc, hcparts, -⟩ := same_expr c c' (List.cons.inj (Tree.node.inj hc).2).1
    obtain ⟨hb, hbparts, hbstmts⟩ := same_block b b' hb hb' (Tree.node.inj hbody).2
    obtain ⟨⟨hcs, hrparts, hrstmts⟩, ho⟩ := same_clauses cs cs' hcs hcs' h
    refine ⟨?_, ho⟩
    constructor <;> simp [*]
theorem same_arms : ∀ as as' : List Arm,
    (∀ x ∈ as.flatMap fun a => a.pattern.name :: a.pattern.bindings, IsIdentifier x.name) →
    (∀ x ∈ as'.flatMap fun a => a.pattern.name :: a.pattern.bindings, IsIdentifier x.name) →
    (∀ t ∈ Stmt.armStmts as, t.IsSpellable) → (∀ t ∈ Stmt.armStmts as', t.IsSpellable) → ∀ {o o' : Option Block},
    ofArms as ++ ofOtherwise "default" o = ofArms as' ++ ofOtherwise "default" o' →
    Same (Stmt.bareArms as) (Stmt.bareArms as') (Stmt.armParts as) (Stmt.armParts as')
      (Stmt.armStmts as) (Stmt.armStmts as') ∧ ofOtherwise "default" o = ofOtherwise "default" o'
  | [], [], _, _, _, _, _, _, h => ⟨⟨rfl, rfl, rfl⟩, h⟩
  | [], ⟨_, _⟩ :: _, _, _, _, _, o, _, h | ⟨_, _⟩ :: _, [], _, _, _, _, _, o, h => by
    have hstart := congrArg (fun ts : List Tree => ts.head?.map (·.text.toList.head?)) h
    cases o <;> simp [ofArms, ofOtherwise, Tree.text] at hstart
  | ⟨p, b⟩ :: as, ⟨p', b'⟩ :: as', hx, hx', hs, hs', o, o', h => by
    obtain ⟨hb, has⟩ := List.forall_mem_append.mp hs
    obtain ⟨hb', has'⟩ := List.forall_mem_append.mp hs'
    obtain ⟨hp, hx⟩ := List.forall_mem_append.mp hx
    obtain ⟨hp', hx'⟩ := List.forall_mem_append.mp hx'
    obtain ⟨hp, hxs⟩ := List.forall_mem_cons.mp hp
    obtain ⟨hp', hxs'⟩ := List.forall_mem_cons.mp hp'
    obtain ⟨hfirst, h⟩ := List.cons.inj h
    obtain ⟨hpattern, hbody⟩ := Tree.node.inj hfirst
    rw [String.append_assoc, String.append_assoc, String.append_right_inj] at hpattern
    obtain ⟨hname, hnames⟩ := applied_inj listed_name hp hp' (fun x hx => lexes_name (hxs x hx))
      (fun x hx => lexes_name (hxs' x hx)) hpattern
    obtain ⟨hb, hbparts, hbstmts⟩ := same_block b b' hb hb' hbody
    obtain ⟨⟨has, haparts, hastmts⟩, ho⟩ := same_arms as as' hx hx' has has' h
    refine ⟨⟨?_, ?_, ?_⟩, ho⟩
    · simp only [Stmt.bareArms, Pattern.bare, hname, hnames, hb, has]
    · simp [*]
    · simp [*]
theorem same_otherwise {word : String} : ∀ o o' : Option Block, (∀ t ∈ Stmt.otherwiseStmts o, t.IsSpellable) →
    (∀ t ∈ Stmt.otherwiseStmts o', t.IsSpellable) → ofOtherwise word o = ofOtherwise word o' →
    Same (Stmt.bareOtherwise o) (Stmt.bareOtherwise o') (Stmt.otherwiseParts o) (Stmt.otherwiseParts o')
      (Stmt.otherwiseStmts o) (Stmt.otherwiseStmts o')
  | none, none, _, _, _ => ⟨rfl, rfl, rfl⟩
  | none, some _, _, _, h | some _, none, _, _, h => by cases h
  | some b, some b', hs, hs', h => by
    obtain ⟨hb, hparts, hstmts⟩ := same_block b b' hs hs' (Tree.node.inj (List.cons.inj h).1).2
    exact ⟨congrArg some hb, hparts, hstmts⟩
theorem same_block : ∀ b b' : Block, (∀ t ∈ Stmt.blockStmts b, t.IsSpellable) →
    (∀ t ∈ Stmt.blockStmts b', t.IsSpellable) → ofBlock b = ofBlock b' →
    Same (Stmt.bareBlock b) (Stmt.bareBlock b') (Stmt.blockParts b) (Stmt.blockParts b')
      (Stmt.blockStmts b) (Stmt.blockStmts b')
  | [], [], _, _, _ => ⟨rfl, rfl, rfl⟩
  | [], _ :: _, _, _, h | _ :: _, [], _, _, h => by cases h
  | s :: ss, s' :: ss', hs, hs', h => by
    obtain ⟨hown, hrest⟩ := forall_blockStmts_cons.mp hs
    obtain ⟨hown', hrest'⟩ := forall_blockStmts_cons.mp hs'
    obtain ⟨hfirst, h⟩ := List.cons.inj h
    obtain ⟨hs, hparts, hstmts⟩ := same_stmt s s' hown hown' hfirst
    obtain ⟨hss, hrparts, hrstmts⟩ := same_block ss ss' hrest hrest' h
    simp only [List.map_cons, List.cons.injEq] at hstmts
    constructor <;> simp [*]
end

/-! Items. -/

theorem function_inj {s s' : Span} {f f' : FunctionDecl} (hf : Spelled f.ownNames f.annotations)
    (hf' : Spelled f'.ownNames f'.annotations) (h : ofItem (.function s f) = ofItem (.function s' f')) :
    f.name.bare = f'.name.bare ∧ f.params.map Binding.bare = f'.params.map Binding.bare ∧
      f.result.map TypeExpr.bare = f'.result.map TypeExpr.bare := by
  have hclose {f : FunctionDecl} (hf : Spelled f.ownNames f.annotations) :
      ')' ∉ (commaSeparated (f.params.map bindingText)).toList := by
    refine (plain_commaSeparated ?_).ne (by decide) (by decide)
    exact List.forall_mem_map.mpr fun b hb => plain_bindingText (spelled_param hf b hb)
  have hlexes {f : FunctionDecl} (hf : Spelled f.ownNames f.annotations) (b : Binding) (hb : b ∈ f.params) :
      Lexes (bindingText b).toList (Grammar.IsBinding · b.bare) := by
    obtain ⟨hname, htype⟩ := spelled_param hf b hb
    exact lexes_binding (hname _ List.mem_cons_self) (htype _ List.mem_cons_self)
  have hopen : ∀ cs : List Char, ∀ c ∈ ('(' :: cs).head?, continuesName c = false := by
    rintro cs c ⟨⟩
    decide
  have hchars := congrArg String.toList (titled_inj h).1
  simp only [String.toList_append, List.append_assoc, List.append_cancel_left_eq] at hchars
  obtain ⟨hname, hrest⟩ := name_inj (hf.1 _ List.mem_cons_self) (hf'.1 _ List.mem_cons_self) (hopen _) (hopen _) hchars
  obtain ⟨hparams, hresult⟩ := append_cons_inj_of_first (hclose hf) (hclose hf') (List.cons.inj hrest).2
  refine ⟨hname, commaSeparated_inj listed_binding (hlexes hf) (hlexes hf') (String.toList_inj.mp hparams), ?_⟩
  exact typeSuffix_inj (List.forall_mem_append.mp hf.2).2 (List.forall_mem_append.mp hf'.2).2
    (String.toList_inj.mp hresult)

theorem same_item {i i' : Item} (hi : i.IsSpellable) (hi' : i'.IsSpellable) (h : ofItem i = ofItem i') :
    i.span.extent = i'.span.extent ∧ Same i.bare i'.bare i.parts i'.parts i.stmts i'.stmts := by
  have hapart {s : Stmt} {sp : Span} {f : FunctionDecl} (h : ofStmt s = ofItem (.function sp f)) : False := by
    have hstart := take_ofStmt s
    rw [h] at hstart
    cases s
    case expr e => cases e <;> simp [ofItem, titled, Tree.text, startStmt, start] at hstart
    all_goals simp [ofItem, titled, Tree.text, startStmt] at hstart
  cases i <;> cases i'
  case function.function s f s' f' =>
    obtain ⟨hname, hparams, hresult⟩ := function_inj hi.1 hi'.1 h
    obtain ⟨-, hextent, hbelow⟩ := titled_inj h
    obtain ⟨hb, hparts, hstmts⟩ := same_block f.body f'.body hi.2 hi'.2 hbelow
    refine ⟨hextent, ?_, hparts, hstmts⟩
    simp only [Item.bare, FunctionDecl.bare, hname, hparams, hresult, hb]
  case function.stmt => exact (hapart h.symm).elim
  case stmt.function => exact (hapart h).elim
  case stmt.stmt s s' =>
    obtain ⟨hs, hparts, hstmts⟩ := same_stmt s s' (List.forall_mem_cons.mpr hi) (List.forall_mem_cons.mpr hi') h
    exact ⟨extent_of_titled (ofStmt_titled hi.1) (ofStmt_titled hi'.1) h, congrArg Item.stmt hs, hparts, hstmts⟩

theorem same_all : ∀ is is' : List Item, (∀ i ∈ is, i.IsSpellable) → (∀ i ∈ is', i.IsSpellable) →
    is.map ofItem = is'.map ofItem →
    is.map (·.span.extent) = is'.map (·.span.extent) ∧ Same (is.map Item.bare) (is'.map Item.bare)
      (is.flatMap Item.parts) (is'.flatMap Item.parts) (is.flatMap Item.stmts) (is'.flatMap Item.stmts)
  | [], [], _, _, _ => ⟨rfl, rfl, rfl, rfl⟩
  | [], _ :: _, _, _, h | _ :: _, [], _, _, h => by cases h
  | i :: is, i' :: is', hi, hi', h => by
    obtain ⟨hi, his⟩ := List.forall_mem_cons.mp hi
    obtain ⟨hi', his'⟩ := List.forall_mem_cons.mp hi'
    obtain ⟨hfirst, h⟩ := List.cons.inj h
    obtain ⟨hextent, hbare, hparts, hstmts⟩ := same_item hi hi' hfirst
    obtain ⟨hextents, hrbare, hrparts, hrstmts⟩ := same_all is is' his his' h
    refine ⟨?_, ?_, ?_, ?_⟩ <;> simp [*]

end Outline

namespace Program

/-- Equal but for the numbers of expressions, for lines and columns, and for the places of names and types. -/
structure Alike (p q : Program) : Prop where
  bare : p.bare = q.bare
  items : p.items.map (·.span.extent) = q.items.map (·.span.extent)
  stmts : p.stmts.map (·.span.extent) = q.stmts.map (·.span.extent)
  parts : p.parts.map (·.span.extent) = q.parts.map (·.span.extent)

/-- Programs that were read and have the same outline are alike. -/
theorem alike_of_outline {source source' : String} {p q : Program} (hp : parseProgram source = .ok p)
    (hq : parseProgram source' = .ok q) (h : p.outline noTypes = q.outline noTypes) : p.Alike q := by
  have hspell := Parser.spellable_of_parseProgram hp
  have hspell' := Parser.spellable_of_parseProgram hq
  rw [outline_eq, outline_eq] at h
  have htrees := Outline.renderLines_inj (List.forall_mem_map.mpr fun i hi => Outline.legible_item (hspell i hi))
    (List.forall_mem_map.mpr fun i hi => Outline.legible_item (hspell' i hi)) h
  obtain ⟨hitems, hbare, hparts, hstmts⟩ := Outline.same_all _ _ hspell hspell' htrees
  exact ⟨congrArg Program.mk hbare, hitems, hstmts, hparts⟩

/-- The one source has a break where the other has a space, and the type of `x` stands elsewhere. -/
theorem alike_of_outline_moved :
    ∃ p q, parseProgram "let x: int = f(1, 2); x" = .ok p ∧ parseProgram "let x :int = f(1,\n2); x" = .ok q ∧
      p.outline noTypes = q.outline noTypes ∧ p.Alike q := by
  have hread : ((parseProgram "let x: int = f(1, 2); x").toOption.any fun p =>
      (parseProgram "let x :int = f(1,\n2); x").toOption.any fun q => p.outline noTypes == q.outline noTypes) =
        true := by decide +kernel
  have hok {source : String} {p : Program} (h : (parseProgram source).toOption = some p) :
      parseProgram source = .ok p := by
    generalize parseProgram source = r at h
    cases r with
    | error e => cases h
    | ok q => rw [Option.some.inj h]
  obtain ⟨p, hp, hread⟩ := (Option.any_eq_true _ _).mp hread
  obtain ⟨q, hq, hread⟩ := (Option.any_eq_true _ _).mp hread
  have hsame := beq_iff_eq.mp hread
  exact ⟨p, q, hok hp, hok hq, hsame, alike_of_outline (hok hp) (hok hq) hsame⟩

end Program

end Gondola
