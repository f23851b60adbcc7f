import Gondola.Proofs.Grammar.Occupies
import Gondola.Proofs.Parser.Takes

/-! What is read as a type or an expression derives from the grammar. An expression is read at a level: the loop that
extends it keeps the level, and the next token never binds tighter than that. -/
namespace Gondola

variable {l : Precedence} {t : Token} {bound : Nat}

namespace Parser

open Grammar

/-- Items between commas, and the token that closes them. -/
abbrev Listed {α : Type} (close : TokenKind) (ids : α → List Nat) (G : List Token → α → Prop) :
    Taking (List α × Token) :=
  fun _ ts is r => is = r.1.flatMap ids ∧ ∃ us, ts = us ++ [r.2] ∧ r.2.kind = close ∧ Sequence G us r.1

theorem takes_listOf {α : Type} {close : TokenKind} {item : Parse α} {ids : α → List Nat}
    {G : List Token → α → Prop} (hc : isFiller close = true)
    (hi : ∀ p, Takes p item fun _ ts is a => is = ids a ∧ G ts a) (n : Nat) (p : Parser) :
    Takes p (listOf close item n) (Listed close ids G) := by
  have hne : close ≠ .eof := by
    rintro rfl
    cases hc
  have hmissing : Fillable (Found (Listed close ids G)) :=
    fillable_one close hc fun t ht => ⟨p, [], ([], t), rfl, [], rfl, ht, .nil⟩
  induction n generalizing p with
  | zero => exact ⟨continues_endless, hmissing⟩
  | succ n ih =>
    refine ⟨(takes_take hne (fun q t ht => ?_) fun q => ?_).toContinues, hmissing⟩
    · exact (takes_pure ⟨rfl, [], rfl, ht, .nil⟩).toContinues
    refine (hi q).bind ?_
    rintro q₁ ts _ a ⟨rfl, ha⟩
    refine takes_take hne (fun q₂ t ht => ?_) fun q₂ => ?_
    · exact (takes_pure ⟨by simp, ts, by simp, ht, .last ha⟩).toContinues
    refine takes_consume rfl fun q₃ comma hcomma => (ih q₃).bind ?_
    rintro q₄ _ _ ⟨as, t⟩ ⟨rfl, us, rfl, ht, has⟩
    exact takes_pure ⟨by simp, ts ++ comma :: us, by simp, ht, .cons ha hcomma has⟩

theorem takes_typeArgs {type : Parse TypeExpr}
    (hi : ∀ p, Takes p type fun _ ts is t => is = [] ∧ IsType ts t.bare) (n : Nat) (p : Parser) :
    Takes p (typeArgs type n) fun _ ts is r => is = [] ∧
      ∃ us, ts = us ++ [r.2] ∧ r.2.kind = .mark .greater ∧ OneOrMore IsType us (r.1.map TypeExpr.bare) := by
  induction n generalizing p with
  | zero =>
    refine ⟨continues_endless, .token .identifier rfl fun t ht => fillable_one (.mark .greater) rfl fun u hu => ?_⟩
    exact ⟨p, [], ([.mk ⟨t.text, t.span⟩ [] t.span], u), rfl, [t], rfl, hu, .last (.plain ht)⟩
  | succ n ih =>
    refine (hi p).bind ?_
    rintro q₁ ts _ a ⟨rfl, ha⟩
    refine takes_take (by simp) (fun q₂ t ht => ?_) fun q₂ => ?_
    · exact (takes_pure ⟨rfl, ts, by simp, ht, .last ha⟩).toContinues
    refine takes_consume rfl fun q₃ comma hcomma => (ih q₃).bind ?_
    rintro q₄ _ _ ⟨as, t⟩ ⟨rfl, us, rfl, ht, has⟩
    exact takes_pure ⟨rfl, ts ++ comma :: us, by simp, ht, .cons ha hcomma has⟩

theorem takes_typeExpr (n : Nat) (p : Parser) :
    Takes p (typeExpr n) fun _ ts is t => is = [] ∧ IsType ts t.bare := by
  induction n generalizing p with
  | zero =>
    refine ⟨continues_endless, fillable_one .identifier rfl fun t ht => ?_⟩
    exact ⟨p, [], .mk ⟨t.text, t.span⟩ [] t.span, rfl, .plain ht⟩
  | succ n ih =>
    refine takes_ident fun q t ht => takes_take (by simp) (fun q₁ l hl => ?_) fun q₁ => ?_
    · refine ((takes_typeArgs ih n q₁).bind ?_).toContinues
      rintro q₂ _ _ ⟨as, stop⟩ ⟨rfl, us, rfl, hs, has⟩
      refine takes_pure ⟨rfl, ?_⟩
      simp only [TypeExpr.bare, TypeExpr.bareAll_eq_map, List.append_nil]
      exact .applied ht hl has hs
    · exact takes_pure ⟨rfl, .plain ht⟩

/-- The token that was put back binds no tighter than a level. -/
def Stops (l : Precedence) (p : Parser) : Prop :=
  ∃ t, p.held = some t ∧ ∀ m, extensionPrecedence? t.kind = some m → ¬ l < m

/-- The next token binds no tighter than a level. -/
def Limit (l : Precedence) (p : Parser) : Prop :=
  ∀ t q m, advance p = .ok t q → extensionPrecedence? t.kind = some m → ¬ l < m

theorem Stops.limit {p p' : Parser} (h : Stops l p) (hh : p'.held = p.held) : Limit l p' := by
  intro t q m ha hm
  obtain ⟨u, hu, hs⟩ := h
  obtain rfl : u = t := advance_of_held ha (hh.trans hu)
  exact hs m hm

theorem extensionPrecedence?_le {k : TokenKind} {m : Precedence}
    (h : extensionPrecedence? k = some m) : m.rank ≤ Precedence.call.rank := by
  unfold extensionPrecedence? at h
  split at h
  case h_4 =>
    obtain ⟨op, -, rfl⟩ := Option.map_eq_some_iff.mp h
    cases op <;> decide
  all_goals
    obtain rfl := Option.some.inj h
    exact Nat.le_refl _

theorem limit_of_call_le (h : Precedence.call.rank ≤ l.rank) (p : Parser) : Limit l p := by
  intro t q m _ hm hl
  have := extensionPrecedence?_le hm
  rw [Precedence.lt_iff] at hl
  omega

/-- A parser that has nothing left to read. -/
def finished : Parser := { scanner := .ofString "", held := some ⟨.eof, "", {}⟩ }

theorem stops_finished (l : Precedence) : Stops l finished := ⟨_, rfl, by simp [extensionPrecedence?, binaryOp?]⟩

/-- An operand of a context, up to a token that binds no tighter than the context. -/
abbrev Operand (min : Precedence) : Taking Expr :=
  fun r ts ids e => ids = e.ids ∧ Stops min r ∧ e.Occupies min.operand ts

theorem fillable_operand (min : Precedence) : Fillable (Found (Operand min)) := by
  refine fillable_one .identifier rfl fun t ht => ?_
  refine ⟨finished, _, .symbol ⟨0, t.span⟩ ⟨t.text, t.span⟩, rfl, stops_finished min, ?_⟩
  exact (Expr.Occupies.leaf (.symbol ht) rfl rfl).of_le min.operand_pos (by cases min <;> decide)

/-- What a reader of expressions has to do: with the first token taken, it takes an operand of the context. -/
def Reader (read : ExprReader) : Prop :=
  ∀ {t min p q}, Past p t q → Continues p q (read t min) (Operand min)

/-- An argument of a call, with the value where it stands. -/
abbrev Passed : Taking Argument :=
  fun _ ts ids a => ids = a.value.ids ∧ IsArgument ts a.bare ∧ Among ts (a.value.Occupies .or)

/-- An atom, or something behind a prefix operator. -/
abbrev Start : Taking Expr :=
  fun r ts ids e => ids = e.ids ∧ ∃ l, Precedence.unary.rank ≤ l.rank ∧ Limit l r ∧ e.Occupies l ts

/-- An expression on the tokens `ts`, extended to an operand of a context. -/
abbrev Extended (lhs : Expr) (ts : List Token) (min : Precedence) : Taking Expr :=
  fun r us ids e => e.ids = lhs.ids ++ ids ∧ Stops min r ∧ e.Occupies min.operand (ts ++ us)

section Expr

variable {read : ExprReader} (hread : Reader read) {p q : Parser}

include hread

theorem takes_exprBy (min : Precedence) (p : Parser) : Takes p (exprBy read min) (Operand min) :=
  ⟨continues_advance fun _ _ ht => hread (past_of_advance ht), fillable_operand min⟩

theorem takes_expr (p : Parser) :
    Takes p (exprBy read .lowest) fun _ ts ids e => ids = e.ids ∧ e.Occupies .or ts :=
  (takes_exprBy hread .lowest p).mono fun _ _ _ _ h => ⟨h.1, h.2.2⟩

theorem takes_entryBy (p : Parser) :
    Takes p (entryBy read) fun _ ts ids e => ids = e.1.ids ++ e.2.ids ∧
      IsEntry ts (Prod.map Expr.bare Expr.bare e) ∧ Among ts (e.1.Occupies .or) ∧ Among ts (e.2.Occupies .or) := by
  refine (takes_expr hread p).bind ?_
  rintro q ts _ k ⟨rfl, hk⟩
  refine takes_consume rfl fun q₁ c hc => (takes_expr hread q₁).last ?_
  rintro q₂ us _ v ⟨rfl, hv⟩
  exact ⟨_, rfl, rfl, .mk hk.grammar hc hv.grammar, (among_self hk).append_right _,
    ((among_self hv).cons c).append_left ts⟩

theorem takes_argumentBy (p : Parser) : Takes p (argumentBy read) Passed := by
  -- The first token starts an argument without a label.
  have positional {x : Token} {r : Parser} (h : Past p x r) :
      Continues p r (do return ⟨none, ← read x .lowest⟩) Passed := by
    refine (hread h).last ?_
    rintro _ ts _ e ⟨rfl, -, he⟩
    exact ⟨_, rfl, rfl, .positional he.grammar, among_self he⟩
  refine ⟨continues_advance fun x q hx => ?_, (fillable_operand .lowest).mono ?_⟩
  rotate_left
  · rintro us ⟨r, _, e, rfl, -, he⟩
    exact ⟨r, _, ⟨none, e⟩, rfl, .positional he.grammar, among_self he⟩
  split
  · rename_i hk
    have h₁ := advance_reads hx (by simp [hk])
    refine continues_advance fun c q₁ hc => ?_
    split
    · rename_i hck
      refine .after (h₁.trans (advance_reads hc (by simp [hck]))) ((takes_expr hread q₁).last ?_).toContinues
      rintro _ ts _ e ⟨rfl, he⟩
      exact ⟨_, rfl, rfl, .keyword hk hck he.grammar, ((among_self he).cons c).cons x⟩
    · exact continues_pushBack hc fun r _ hr => positional (.token (by simp [hk]) (h₁.trans hr))
  · exact positional (past_of_advance hx)

theorem takes_unaryBy {op : UnaryOp} (ht : IsUnary t.kind op) (p : Parser) :
    Takes p (unaryBy read op t) fun r ts ids e => ids = e.ids ∧ Limit .unary r ∧ e.Occupies .unary (t :: ts) := by
  refine (takes_exprBy hread .unary p).bind ?_
  rintro q ts _ e ⟨rfl, hs, he⟩
  refine takes_node fun q₁ n hn hh => takes_pure ⟨rfl, hs.limit hh, ?_⟩
  rw [List.append_nil]
  exact .unary ht he hn

theorem continues_primary (ht : Past p t q) : Continues p q (primary read bound t) Start := by
  have atom {r : Parser} {e : Expr} {ids : List Nat} {ts : List Token} (hids : ids = e.ids)
      (h : e.Occupies .atom ts) : Start r ts ids e :=
    ⟨hids, .atom, by decide, limit_of_call_le (by decide) r, h⟩
  have leaf {make : Node → Expr} (hk : t.kind ≠ .eof) (hids : ∀ n, [n.id] = (make n).ids)
      (h : ∀ n, n.span = t.span → (make n).Occupies .atom [t]) :
      Continues p q (node t.span >>= fun n => pure (make n)) Start := by
    refine .after (ht.reads hk) (takes_node fun r n hn _ => takes_pure ?_).toContinues
    exact atom (hids n) (h n hn)
  have unary {op : UnaryOp} (hk : t.kind ≠ .eof) (hop : IsUnary t.kind op) :
      Continues p q (unaryBy read op t) Start :=
    .after (ht.reads hk) ((takes_unaryBy hread hop q).mono fun _ _ _ _ h =>
      ⟨h.1, .unary, Nat.le_refl _, h.2⟩).toContinues
  unfold primary
  split
  case h_1 hk => exact leaf (by simp [hk]) (fun _ => rfl) fun n hn => .leaf (.symbol hk) hn rfl
  case h_2 hk =>
    show Continues p q (if _ then _ else _) _
    split
    · rename_i hv
      exact leaf (by simp [hk]) (fun _ => rfl) fun n hn => .leaf (.int hk (numeral_iff.mpr rfl) hv) hn rfl
    · exact continues_fail (by simp)
  case h_3 hk => exact leaf (by simp [hk]) (fun _ => rfl) fun n hn => .leaf (.string hk) hn rfl
  case h_4 hk => exact leaf (by simp [hk]) (fun _ => rfl) fun n hn => .leaf (.trueLit hk) hn rfl
  case h_5 hk => exact leaf (by simp [hk]) (fun _ => rfl) fun n hn => .leaf (.falseLit hk) hn rfl
  case h_6 hk =>
    refine .after (ht.reads (by simp [hk])) ((takes_expr hread q).bind ?_).toContinues
    rintro q₁ ts _ e ⟨rfl, he⟩
    exact takes_consume rfl fun q₂ stop hs => takes_pure (atom (by simp [Expr.ids_relocate]) (.group hk he hs))
  case h_7 hk =>
    refine .after (ht.reads (by simp [hk])) ((takes_listOf rfl (takes_expr hread) bound q).bind ?_).toContinues
    rintro q₁ _ _ ⟨items, stop⟩ ⟨rfl, ts, rfl, hs, hitems⟩
    refine takes_node fun q₂ n hn _ => takes_pure (atom (by simp [Expr.ids, Expr.itemIds_eq_flatMap]) ?_)
    simpa using Expr.Occupies.list hk hitems hs hn
  case h_8 hk =>
    refine .after (ht.reads (by simp [hk])) ((takes_listOf rfl (takes_entryBy hread) bound q).bind ?_).toContinues
    rintro q₁ _ _ ⟨entries, stop⟩ ⟨rfl, ts, rfl, hs, hentries⟩
    refine takes_node fun q₂ n hn _ => takes_pure (atom (by simp [Expr.ids, Expr.entryIds_eq_flatMap]) ?_)
    simpa using Expr.Occupies.map hk hentries hs hn
  case h_9 hk => exact unary (by simp [hk]) (by rw [hk]; exact .neg)
  case h_10 hk => exact unary (by simp [hk]) (by rw [hk]; exact .not)
  case h_11 =>
    refine continues_unexpected ht ((fillable_operand .unary).mono fun us ⟨r, ids, e, hids, hs, he⟩ => ?_)
    exact ⟨r, ids, e, hids, .unary, Nat.le_refl _, hs.limit rfl, he⟩

/-- An operator takes a left operand of its own level and leaves an expression of that level. -/
theorem continues_extend {lhs : Expr} {level : Precedence} {ts : List Token}
    (hl : extensionPrecedence? t.kind = some level) (hg : lhs.Occupies level ts) (p : Parser) :
    Continues p p (extend read bound t lhs level) fun r us ids e =>
      e.ids = lhs.ids ++ ids ∧ Limit level r ∧ e.Occupies level (ts ++ t :: us) := by
  have call (hk : extensionPrecedence? t.kind = some .call) : level = .call := Option.some.inj (hl.symm.trans hk)
  unfold extend
  split
  case h_1 hk =>
    obtain rfl := call (by rw [hk]; rfl)
    refine ((takes_listOf rfl (takes_argumentBy hread) bound p).bind ?_).toContinues
    rintro q _ _ ⟨args, stop⟩ ⟨rfl, us, rfl, hs, hargs⟩
    refine takes_node fun q₁ n hn _ => takes_pure ⟨?_, limit_of_call_le (Nat.le_refl _) _, ?_⟩
    · rw [Expr.ids, Expr.argumentIds_eq_flatMap, List.append_assoc]
    · simpa using Expr.Occupies.call hg hk hargs hs hn
  case h_2 hk =>
    obtain rfl := call (by rw [hk]; rfl)
    refine ((takes_expr hread p).bind ?_).toContinues
    rintro q us _ i ⟨rfl, hi⟩
    refine takes_consume rfl fun q₁ stop hs => takes_node fun q₂ n hn _ => takes_pure ⟨?_, ?_, ?_⟩
    · rw [Expr.ids, List.append_assoc]
    · exact limit_of_call_le (Nat.le_refl _) _
    · simpa using Expr.Occupies.index hg hk hi hs hn
  case h_3 hk =>
    obtain rfl := call (by rw [hk]; rfl)
    exact (takes_ident fun q x hx => takes_node fun q₁ n hn _ =>
      takes_pure ⟨rfl, limit_of_call_le (Nat.le_refl _) _, .field hg hk hx hn⟩).toContinues
  case h_4 h₁ h₂ h₃ =>
    have hm : (binaryOp? t.kind).map BinaryOp.precedence = some level := by
      unfold extensionPrecedence? at hl
      split at hl
      case h_1 hk => exact (h₁ hk).elim
      case h_2 hk => exact (h₂ hk).elim
      case h_3 hk => exact (h₃ hk).elim
      case h_4 => exact hl
    obtain ⟨op, ho, rfl⟩ := Option.map_eq_some_iff.mp hm
    have hnext : op.precedence.operand = op.precedence.next := by cases op <;> rfl
    simp only [ho]
    refine ((takes_exprBy hread op.precedence p).bind ?_).toContinues
    rintro q us _ r ⟨rfl, hs, hr⟩
    rw [hnext] at hr
    refine takes_node fun q₁ n hn hh => takes_pure ⟨?_, hs.limit hh, ?_⟩
    · rw [Expr.ids, List.append_assoc]
    · simpa using Expr.Occupies.binary hg (isBinary_iff.mpr ⟨ho, rfl, rfl⟩) hr hn

/-- The loop takes any expression of a level that the context allows, if the next token binds no
tighter. -/
theorem takes_extendAll {min : Precedence} (n : Nat) {lhs : Expr} {ts : List Token} {p : Parser}
    (hm : min.operand.rank ≤ l.rank) (hlim : Limit l p) (hg : lhs.Occupies l ts) :
    Takes p (extendAll read bound min n lhs) (Extended lhs ts min) := by
  have hmissing {l : Precedence} {lhs : Expr} {ts : List Token} (hm : min.operand.rank ≤ l.rank)
      (hg : lhs.Occupies l ts) : Fillable (Found (Extended lhs ts min)) :=
    .done ⟨finished, [], lhs, by simp, stops_finished min, by simpa using hg.of_le min.operand_pos hm⟩
  induction n generalizing lhs l p ts with
  | zero => exact ⟨continues_endless, hmissing hm hg⟩
  | succ n ih =>
    refine ⟨continues_advance fun t q ht => ?_, hmissing hm hg⟩
    -- At a token that does not extend the expression the loop ends.
    have stop (hx : ∀ m, extensionPrecedence? t.kind = some m → ¬ min < m) :
        Continues p q (do pushBack t; return lhs) (Extended lhs ts min) := by
      refine continues_pushBack ht fun r hh hr => .after hr (takes_pure ?_).toContinues
      exact ⟨by simp, ⟨t, hh, hx⟩, by simpa using hg.of_le min.operand_pos hm⟩
    split
    · rename_i level hlevel
      split
      · rename_i hlt
        have hle : level.rank ≤ l.rank := by
          have := hlim t q level ht hlevel
          rw [Precedence.lt_iff] at this
          omega
        have hpos : 0 < level.rank := Nat.zero_lt_of_lt (Precedence.lt_iff.mp hlt)
        have hk : t.kind ≠ .eof := by
          intro hk
          simp [hk, extensionPrecedence?, binaryOp?] at hlevel
        refine .after (advance_reads ht hk) ((continues_extend hread hlevel (hg.of_le hpos hle) q).bind ?_)
        rintro r us ids lhs' ⟨hids, hlim', hg'⟩
        refine (ih (Precedence.operand_le hlt) hlim' hg').mono ?_
        rintro s vs js e ⟨hids', hs, he⟩
        exact ⟨by simp [hids', hids], hs, by simpa using he⟩
      · rename_i hlt
        refine stop fun m hm' => ?_
        exact Option.some.inj (hlevel.symm.trans hm') ▸ hlt
    · rename_i hlevel
      exact stop fun m hm' => by cases hlevel.symm.trans hm'

end Expr

theorem exprFrom_reader (n : Nat) : Reader (exprFrom n) := by
  induction n with
  | zero => exact fun _ => continues_endless
  | succ n ih =>
    intro t min p q ht
    refine (continues_primary ih ht).bind ?_
    rintro r ts _ lhs ⟨rfl, l, hl, hlim, hg⟩
    have hm : min.operand.rank ≤ l.rank := by
      refine Nat.le_trans ?_ hl
      cases min <;> decide
    exact (takes_extendAll ih n hm hlim hg).mono fun _ _ _ _ h => ⟨h.1.symm, h.2⟩

theorem takes_exprWithin (n : Nat) (p : Parser) :
    Takes p (exprWithin n) fun _ ts ids e => ids = e.ids ∧ e.Occupies .or ts :=
  takes_expr (exprFrom_reader n) p

end Parser

end Gondola
