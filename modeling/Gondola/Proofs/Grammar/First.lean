import Gondola.Proofs.Grammar

/-! How expressions start: induction along the left operands, the first token, and what can follow a name
that is the first token. -/
namespace Gondola

variable {l min : Precedence} {op : BinaryOp} {k : TokenKind} {ts : List Token} {e : Expr}

namespace Precedence

theorem lt_iff {a b : Precedence} : a < b ↔ a.rank < b.rank := Iff.rfl

theorem rank_injective {a b : Precedence} (h : a.rank = b.rank) : a = b := by
  cases a <;> cases b <;> simp_all [rank]

/-- The level of the operands in a context that takes only tighter operators than `min`. A prefix operator
is no operator of such a context, so it may stand in every one. -/
def operand (min : Precedence) : Precedence := if min < unary then min.next else unary

theorem operand_pos (min : Precedence) : 0 < (operand min).rank := by
  cases min <;> decide

theorem operand_le (h : min < l) : (operand min).rank ≤ l.rank := by
  cases min <;> cases l <;> revert h <;> decide

theorem rank_le_operand (h : min.rank ≤ unary.rank) : min.rank ≤ (operand min).rank := by
  cases min <;> revert h <;> decide

theorem lt_of_operand_le (h : (operand min).rank ≤ op.precedence.rank) : min < op.precedence := by
  cases min <;> cases op <;> revert h <;> decide

end Precedence

namespace Grammar

open Gondola.Parser (binaryOp? digitsValue maxInt extensionPrecedence?)

theorem Looser.rank {m : Precedence} (h : Looser l m) : m.rank = l.rank + 1 := by
  cases h <;> rfl

theorem looser_next (h : 0 < l.rank) (h' : l.rank < Precedence.atom.rank) : Looser l l.next := by
  cases l with
  | lowest => exact absurd h (by decide)
  | atom => exact absurd h' (by decide)
  | _ => constructor

theorem isBinary_iff {m n : Precedence} :
    IsBinary k op m n ↔ binaryOp? k = some op ∧ m = op.precedence ∧ n = op.precedence.next := by
  constructor
  · intro h
    cases h <;> exact ⟨rfl, rfl, rfl⟩
  · rintro ⟨h, rfl, rfl⟩
    unfold binaryOp? at h
    split at h
    case h_14 => cases h
    all_goals
      obtain rfl := Option.some.inj h
      constructor

theorem Numeral.append {ds cs : List Char} {n : Nat} (h : Numeral ds n) :
    Numeral (ds ++ cs) (cs.foldl (fun n c => 10 * n + (c.toNat - '0'.toNat)) n) := by
  induction cs generalizing ds n with
  | nil => rwa [List.append_nil]
  | cons c cs ih =>
    rw [List.append_cons]
    exact ih (.snoc h)

theorem numeral_iff {cs : List Char} {n : Nat} : Numeral cs n ↔ digitsValue cs = n := by
  constructor
  · intro h
    induction h with
    | nil => rfl
    | snoc _ ih => rw [digitsValue, List.foldl_append, ← ih]; rfl
  · rintro rfl
    exact Numeral.nil.append

theorem isTarget_iff : IsTarget e ↔ e.isPlace = true := by
  cases e with
  | symbol => exact ⟨fun _ => rfl, fun _ => .symbol⟩
  | index => exact ⟨fun _ => rfl, fun _ => .index⟩
  | field => exact ⟨fun _ => rfl, fun _ => .field⟩
  | _ => exact ⟨nofun, nofun⟩

theorem IsExpr.of_le {m : Precedence} (h : IsExpr m ts e)
    (hpos : 0 < l.rank) (hl : l.rank ≤ m.rank) : IsExpr l ts e := by
  induction hd : m.rank - l.rank generalizing l with
  | zero => exact Precedence.rank_injective (by omega : l.rank = m.rank) ▸ h
  | succ d ih =>
    have hm : m.rank ≤ Precedence.atom.rank := by cases m <;> decide
    have hnext := looser_next hpos (by omega)
    have hr := hnext.rank
    exact .looser hnext (ih (by omega) (by omega) (by omega))

/-- Induction along the left operands of an expression, and into parentheses. -/
theorem IsExpr.spine {P : (l : Precedence) → (ts : List Token) → (e : Expr) → IsExpr l ts e → Prop}
    (looser : ∀ {l m : Precedence} {ts : List Token} {e : Expr} (hl : Looser l m) (h : IsExpr m ts e),
      P m ts e h → P l ts e (.looser hl h))
    (binary : ∀ {m n : Precedence} {ts us : List Token} {t : Token} {op : BinaryOp} {l r : Expr}
      (hl : IsExpr m ts l) (ht : IsBinary t.kind op m n) (hr : IsExpr n us r), P m ts l hl →
      P m (ts ++ t :: us) (.binary default op l r) (.binary hl ht hr))
    (unary : ∀ {t : Token} {ts : List Token} {op : UnaryOp} {e : Expr}
      (ht : IsUnary t.kind op) (h : IsExpr .unary ts e),
      P .unary (t :: ts) (.unary default op e) (.unary ht h))
    (call : ∀ {ts us : List Token} {l r : Token} {c : Expr} {as : List Argument}
      (hc : IsExpr .call ts c) (hl : l.kind = .mark .lparen)
      (ha : Sequence IsArgument us as) (hr : r.kind = .mark .rparen), P .call ts c hc →
      P .call (ts ++ l :: us ++ [r]) (.call default c as) (.call hc hl ha hr))
    (index : ∀ {ts us : List Token} {l r : Token} {b i : Expr} (hb : IsExpr .call ts b)
      (hl : l.kind = .mark .lbracket) (hi : IsExpr .or us i) (hr : r.kind = .mark .rbracket),
      P .call ts b hb →
      P .call (ts ++ l :: us ++ [r]) (.index default b i) (.index hb hl hi hr))
    (field : ∀ {ts : List Token} {d x : Token} {b : Expr} (hb : IsExpr .call ts b)
      (hd : d.kind = .mark .dot) (hx : x.kind = .identifier), P .call ts b hb →
      P .call (ts ++ [d, x]) (.field default b (word x)) (.field hb hd hx))
    (symbol : ∀ {t : Token} (h : t.kind = .identifier),
      P .atom [t] (.symbol default (word t)) (.symbol h))
    (int : ∀ {t : Token} {n : Nat} (h : t.kind = .int) (hv : Numeral t.text.toList n)
      (hn : n ≤ Nat.pow 2 63 - 1), P .atom [t] (.int default n) (.int h hv hn))
    (string : ∀ {t : Token} (h : t.kind = .string), P .atom [t] (.string default t.text) (.string h))
    (trueLit : ∀ {t : Token} (h : t.kind = .keyword .trueKw),
      P .atom [t] (.bool default true) (.trueLit h))
    (falseLit : ∀ {t : Token} (h : t.kind = .keyword .falseKw),
      P .atom [t] (.bool default false) (.falseLit h))
    (group : ∀ {l r : Token} {ts : List Token} {e : Expr} (hl : l.kind = .mark .lparen)
      (h : IsExpr .or ts e) (hr : r.kind = .mark .rparen), P .or ts e h →
      P .atom (l :: ts ++ [r]) e (.group hl h hr))
    (list : ∀ {l r : Token} {ts : List Token} {es : List Expr} (hl : l.kind = .mark .lbracket)
      (h : Sequence (IsExpr .or) ts es) (hr : r.kind = .mark .rbracket),
      P .atom (l :: ts ++ [r]) (.list default es) (.list hl h hr))
    (map : ∀ {l r : Token} {ts : List Token} {es : List (Expr × Expr)}
      (hl : l.kind = .mark .lbrace) (h : Sequence IsEntry ts es) (hr : r.kind = .mark .rbrace),
      P .atom (l :: ts ++ [r]) (.map default es) (.map hl h hr)) (h : IsExpr l ts e) : P l ts e h := by
  -- Only what stands to the left or in parentheses counts, and nothing is asked of the rest.
  refine @IsExpr.rec P (fun _ _ _ => True) (fun _ _ _ => True) (fun _ _ _ => True) (fun _ _ _ => True)
    (fun _ _ _ => True) @looser (fun hl ht hr ih _ => binary hl ht hr ih) (fun ht h _ => unary ht h)
    (fun hc hl ha hr ih _ => call hc hl ha hr ih) (fun hb hl hi hr ih _ => index hb hl hi hr ih) @field @symbol @int
    @string @trueLit @falseLit (fun hl h hr ih => group hl h hr ih) (fun hl h hr _ => list hl h hr)
    (fun hl h hr _ => map hl h hr) ?_ ?_ ?_ ?_ ?_ ?_ ?_ ?_ ?_ ?_ ?_ ?_ l ts e h
  all_goals
    intros
    trivial

def startsExpr : TokenKind → Bool
  | .identifier | .int | .string => true
  | .keyword .trueKw | .keyword .falseKw | .keyword .notKw => true
  | .mark .lparen | .mark .lbracket | .mark .lbrace | .mark .minus => true
  | _ => false

theorem IsExpr.head (h : IsExpr l ts e) : ∃ t us, ts = t :: us ∧ startsExpr t.kind := by
  induction h using IsExpr.spine with
  | looser _ _ ih => exact ih
  | binary _ _ _ ih | call _ _ _ _ ih | index _ _ _ _ ih | field _ _ _ ih =>
    obtain ⟨t, us, rfl, ht⟩ := ih
    exact ⟨t, _, rfl, ht⟩
  | @unary t _ _ _ ht _ =>
    refine ⟨_, _, rfl, ?_⟩
    cases hk : t.kind <;> rw [hk] at ht <;> cases ht <;> rfl
  | symbol h | int h | string h | trueLit h | falseLit h | group h | list h | map h =>
    exact ⟨_, _, rfl, by rw [h]; rfl⟩

theorem IsArgument.head {a : Argument} (h : IsArgument ts a) : ∃ t us, ts = t :: us ∧ startsExpr t.kind := by
  cases h with
  | positional h => exact h.head
  | keyword hx _ _ => exact ⟨_, _, rfl, by rw [hx]; rfl⟩

theorem IsEntry.head {kv : Expr × Expr} (h : IsEntry ts kv) : ∃ t us, ts = t :: us ∧ startsExpr t.kind := by
  cases h with
  | mk hk _ _ =>
    obtain ⟨t, us, rfl, ht⟩ := hk.head
    exact ⟨t, _, rfl, ht⟩

theorem IsBinary.extension {m n : Precedence} (h : IsBinary k op m n) : extensionPrecedence? k = some m := by
  cases h <;> rfl

theorem IsExpr.second (h : IsExpr l ts e)
    {t u : Token} {us : List Token} (hts : ts = t :: u :: us) (ht : t.kind = .identifier) :
    extensionPrecedence? u.kind ≠ none := by
  -- The operator after a left operand of one token, or what follows in a longer one.
  have step {vs ws : List Token} {o : Token} (hne : vs ≠ [])
      (ho : extensionPrecedence? o.kind ≠ none)
      (ih : ∀ {us}, vs = t :: u :: us → extensionPrecedence? u.kind ≠ none) {us : List Token}
      (h : vs ++ o :: ws = t :: u :: us) : extensionPrecedence? u.kind ≠ none := by
    match vs with
    | [] => exact absurd rfl hne
    | [v] =>
      simp only [List.cons_append, List.nil_append, List.cons.injEq] at h
      exact h.2.1 ▸ ho
    | v :: w :: vs =>
      simp only [List.cons_append, List.cons.injEq] at h
      exact ih (by rw [h.1, h.2.1])
  induction h using IsExpr.spine generalizing us with
  | looser _ _ ih => exact ih hts
  | binary hl ho _ ih =>
    obtain ⟨v, vs, rfl, -⟩ := hl.head
    exact step (by simp) (by rw [ho.extension]; simp) ih hts
  | unary hu _ =>
    simp only [List.cons.injEq] at hts
    rw [hts.1, ht] at hu
    cases hu
  | call hc hl _ _ ih =>
    obtain ⟨v, vs, rfl, -⟩ := hc.head
    rw [List.append_assoc] at hts
    exact step (by simp) (by rw [hl]; simp [extensionPrecedence?]) ih hts
  | index hb hl _ _ ih =>
    obtain ⟨v, vs, rfl, -⟩ := hb.head
    rw [List.append_assoc] at hts
    exact step (by simp) (by rw [hl]; simp [extensionPrecedence?]) ih hts
  | field hb hd _ ih =>
    obtain ⟨v, vs, rfl, -⟩ := hb.head
    exact step (by simp) (by rw [hd]; simp [extensionPrecedence?]) ih hts
  | symbol | int | string | trueLit | falseLit => simp at hts
  | group hl _ _ | list hl _ _ | map hl _ _ =>
    simp only [List.cons_append, List.cons.injEq] at hts
    rw [hts.1, ht] at hl
    cases hl

theorem IsName.head {x : Ident} (h : IsName ts x) : ∃ t us, ts = t :: us ∧ startsExpr t.kind := by
  cases h with
  | mk h => exact ⟨_, _, rfl, by rw [h]; rfl⟩

theorem IsType.head {t : TypeExpr} (h : IsType ts t) : ∃ u us, ts = u :: us ∧ startsExpr u.kind := by
  cases h with
  | plain h | applied h => exact ⟨_, _, rfl, by rw [h]; rfl⟩

theorem IsBinding.head {b : Binding} (h : IsBinding ts b) : ∃ t us, ts = t :: us ∧ startsExpr t.kind := by
  cases h with
  | mk hx _ _ => exact ⟨_, _, rfl, by rw [hx]; rfl⟩

theorem IsEnumCase.head {c : EnumCase} (h : IsEnumCase ts c) : ∃ t us, ts = t :: us ∧ startsExpr t.kind := by
  cases h with
  | mk hx _ => exact ⟨_, _, rfl, by rw [hx]; rfl⟩

def startsStmt : TokenKind → Bool
  | .keyword .letKw | .keyword .returnKw | .keyword .ifKw | .keyword .whileKw => true
  | .keyword .forKw | .keyword .matchKw | .keyword .structKw | .keyword .enumKw => true
  | k => startsExpr k

theorem startsStmt_of_startsExpr (h : startsExpr k) : startsStmt k := by
  unfold startsStmt
  split
  case h_9 => exact h
  all_goals rfl

theorem IsSimple.head {s : Stmt} (h : IsSimple ts s) : ∃ t us, ts = t :: us ∧ startsStmt t.kind := by
  cases h with
  | letVar hk | ret hk | retValue hk => exact ⟨_, _, rfl, by rw [hk]; rfl⟩
  | expr he | assign he =>
    obtain ⟨t, us, rfl, ht⟩ := he.head
    exact ⟨t, _, rfl, startsStmt_of_startsExpr ht⟩

theorem IsCompound.head {s : Stmt} (h : IsCompound ts s) : ∃ t us, ts = t :: us ∧ startsStmt t.kind := by
  cases h with
  | ifElse hk | whileLoop hk | forEach hk | matchOn hk | struct hk | enum hk => exact ⟨_, _, rfl, by rw [hk]; rfl⟩

theorem IsBlock.head {b : Block} (h : IsBlock ts b) : ∃ t us, ts = t :: us ∧ t.kind = .mark .lbrace := by
  cases h with
  | mk hl _ _ => exact ⟨_, _, rfl, hl⟩

theorem IsBody.head {ss : Block} (h : IsBody ts ss) : ts = [] ∨ ∃ t us, ts = t :: us ∧ startsStmt t.kind := by
  cases h with
  | nil => exact .inl rfl
  | compound h | simple h =>
    obtain ⟨t, us, rfl, ht⟩ := h.head
    exact .inr ⟨t, _, rfl, ht⟩
  | last h => exact .inr h.head

theorem IsItems.head {is : List Item} (h : IsItems ts is) :
    ts = [] ∨ ∃ t us, ts = t :: us ∧ (startsStmt t.kind ∨ t.kind = .keyword .fnKw) := by
  cases h with
  | nil => exact .inl rfl
  | function h _ =>
    cases h with
    | mk hk => exact .inr ⟨_, _, rfl, .inr hk⟩
  | compound h | simple h | last h =>
    obtain ⟨t, us, rfl, ht⟩ := h.head
    exact .inr ⟨t, _, rfl, .inl ht⟩

end Grammar

end Gondola
