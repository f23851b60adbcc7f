import Gondola.Proofs.Parser.ExprSound

/-! What derives from the grammar as a type or an expression is read, within bounds that are no obstacle. Rules look at
little of a token, so that the tokens may be others that agree in this. -/
namespace Gondola

/-- What the grammar sees of a token: its kind, and the text of a name or a literal. -/
def Token.shape (t : Token) : TokenKind × String :=
  match t.kind with
  | .identifier | .int | .string => (t.kind, t.text)
  | _ => (t.kind, "")

namespace Token

variable {t u : Token}

theorem shape_fst (t : Token) : t.shape.1 = t.kind := by
  unfold shape
  split <;> rfl

theorem kind_of_shape (h : t.shape = u.shape) : t.kind = u.kind := by
  rw [← shape_fst t, ← shape_fst u, h]

theorem text_of_shape (h : t.shape = u.shape)
    (hk : u.kind = .identifier ∨ u.kind = .int ∨ u.kind = .string) : t.text = u.text := by
  have hkind := kind_of_shape h
  unfold shape at h
  rw [hkind] at h
  rcases hk with hk | hk | hk
  all_goals
    rw [hk] at h
    exact congrArg Prod.snd h

end Token

namespace Parser

open Grammar

variable {n : Nat} {r : Token} {l : Precedence} {e : Expr}

/-- To the grammar the tokens that are left to read look like `ts`. -/
def Offers (p : Parser) (ts : List Token) : Prop :=
  ∃ us, p.pending = .ok us ∧ us.map Token.shape = ts.map Token.shape

section Offers

variable {p : Parser} {t : Token} {ts : List Token}

theorem advance_of_offers (h : p.Offers (t :: ts)) :
    ∃ u p', u.shape = t.shape ∧ advance p = .ok u p' ∧ (t.kind ≠ .eof → p'.Offers ts) := by
  obtain ⟨_, hp, hus⟩ := h
  obtain ⟨u, us, rfl, hu, hus⟩ := List.map_eq_cons_iff.mp hus
  obtain ⟨p', ha, -, hp'⟩ := advance_of_pending hp
  exact ⟨u, p', hu, ha, fun ht => ⟨us, hp' (Token.kind_of_shape hu ▸ ht), hus⟩⟩

theorem putBack_of_offers (h : p.Offers (t :: ts)) :
    ∃ u q p', u.kind = t.kind ∧ advance p = .ok u q ∧ pushBack u q = .ok () p' ∧ p'.Offers (t :: ts) := by
  obtain ⟨_, hp, hus⟩ := h
  obtain ⟨u, us, rfl, hu, hus'⟩ := List.map_eq_cons_iff.mp hus
  obtain ⟨q, p', ha, hb, -, hp'⟩ := putBack_of_pending hp
  exact ⟨u, q, p', Token.kind_of_shape hu, ha, hb, _, hp', hus⟩

end Offers

/-- `f` reads the tokens `ts` before `rest` as something that looks like `b`. -/
def Accepts {α β : Type} (f : Parse α) (view : α → β) (ts : List Token) (b : β)
    (rest : List Token) : Prop :=
  ∀ p, p.Offers (ts ++ rest) → ∃ a p', f p = .ok a p' ∧ view a = b ∧ p'.Offers rest

namespace Accepts

variable {α β γ δ : Type} {f : Parse α} {g : α → Parse γ} {view : α → β} {view' : γ → δ}
  {ts us rest : List Token} {b : β} {d : δ}

theorem bind (hf : Accepts f view ts b (us ++ rest))
    (hg : ∀ a, view a = b → Accepts (g a) view' us d rest) :
    Accepts (f >>= g) view' (ts ++ us) d rest := by
  intro p hp
  rw [List.append_assoc] at hp
  obtain ⟨a, q, ha, hb, hq⟩ := hf p hp
  obtain ⟨c, p', hc, hd, hp'⟩ := hg a hb q hq
  exact ⟨c, p', (bind_of_ok ha).trans hc, hd, hp'⟩

theorem final (hf : Accepts f view ts b rest)
    (hg : ∀ a, view a = b → Accepts (g a) view' [] d rest) : Accepts (f >>= g) view' ts d rest :=
  List.append_nil ts ▸ hf.bind hg

theorem skip {a : α} (hf : Accepts f (fun x => x) [] a (us ++ rest))
    (hg : Accepts (g a) view' us d rest) : Accepts (f >>= g) view' us d rest :=
  hf.bind fun _ he => he ▸ hg

theorem numbered {g : Node → Parse γ} (span : Span) (hg : ∀ n, Accepts (g n) view' us d rest) :
    Accepts (node span >>= g) view' us d rest :=
  fun _ hp => hg _ _ hp

theorem ret {a : α} (h : view a = b) : Accepts (pure a) view [] b rest :=
  fun p hp => ⟨a, p, rfl, h, hp⟩

end Accepts

section Steps

variable {γ δ : Type} {view' : γ → δ} {us rest : List Token} {d : δ} {t : Token} {kind : TokenKind}
  {kinds : List TokenKind}

theorem Accepts.read {g : Token → Parse γ} (ht : t.kind ≠ .eof) (hg : ∀ u, u.shape = t.shape → Accepts (g u) view' us d rest) :
    Accepts (advance >>= g) view' (t :: us) d rest := by
  intro p hp
  obtain ⟨u, q, hu, ha, hq⟩ := advance_of_offers hp
  rw [bind_of_ok ha]
  exact hg u hu q (hq ht)

theorem Accepts.first {g : Token → Parse γ} (ht : t.kind = kind) (hk : kind ≠ .eof) (hg : ∀ u, u.kind = kind → Accepts (g u) view' us d rest) :
    Accepts (advance >>= g) view' (t :: us) d rest :=
  .read (ht ▸ hk) fun u hu => hg u ((Token.kind_of_shape hu).trans ht)

theorem consume_accepts (ht : t.kind = kind) (hk : kind ≠ .eof) (rest : List Token) :
    Accepts (consume kind) Token.shape [t] t.shape rest := by
  refine .read (ht ▸ hk) fun u hu => ?_
  rw [if_pos ((Token.kind_of_shape hu).trans ht)]
  exact .ret hu

theorem Accepts.token {g : Token → Parse γ} (ht : t.kind = kind) (hk : kind ≠ .eof) (hg : ∀ u, Accepts (g u) view' us d rest) :
    Accepts (consume kind >>= g) view' (t :: us) d rest :=
  (consume_accepts ht hk _).bind fun u _ => hg u

theorem Accepts.taken {g : Option Token → Parse γ} (ht : t.kind ∈ kinds) (hk : t.kind ≠ .eof) (hg : ∀ u, Accepts (g (some u)) view' us d rest) :
    Accepts (takeAny kinds >>= g) view' (t :: us) d rest := by
  have htake : Accepts (takeAny kinds) (Option.isSome ·) [t] true (us ++ rest) := by
    refine .read hk fun u hu => ?_
    rw [if_pos (Token.kind_of_shape hu ▸ ht)]
    exact .ret rfl
  refine htake.bind fun o ho => ?_
  obtain ⟨u, rfl⟩ := Option.isSome_iff_exists.mp ho
  exact hg u

theorem Accepts.take {g : Option Token → Parse γ} (ht : t.kind = kind) (hk : kind ≠ .eof) (hg : ∀ u, Accepts (g (some u)) view' us d rest) :
    Accepts (Parser.take kind >>= g) view' (t :: us) d rest :=
  .taken (List.mem_singleton.mpr ht) (ht ▸ hk) hg

theorem Accepts.putBack {f : Token → Parse γ} {g : Parse γ} {vs : List Token} (hu : us ++ rest = t :: vs)
    (hf : ∀ u, u.kind = t.kind → f u = pushBack u >>= fun _ => g) (hg : Accepts g view' us d rest) :
    Accepts (advance >>= f) view' us d rest := by
  intro p hp
  obtain ⟨u, q, p', hk, ha, hb, hp'⟩ := putBack_of_offers (hu ▸ hp)
  rw [bind_of_ok ha, hf u hk, bind_of_ok hb]
  exact hg p' (hu ▸ hp')

theorem takeAny_skips (ht : t.kind ∉ kinds) (rest : List Token) :
    Accepts (takeAny kinds) (fun x => x) [] none (t :: rest) := by
  refine .putBack rfl (fun u hu => ?_) (.ret rfl)
  rw [if_neg (hu ▸ ht)]

theorem take_skips (ht : t.kind ≠ kind) (rest : List Token) :
    Accepts (take kind) (fun x => x) [] none (t :: rest) :=
  takeAny_skips (fun hm => ht (List.mem_singleton.mp hm)) rest

theorem ident_accepts {ts : List Token} {x : Ident} (h : IsName ts x) (rest : List Token) :
    Accepts ident Ident.bare ts x rest := by
  cases h with
  | mk ht =>
    refine .final (consume_accepts ht nofun rest) fun u hu => .ret ?_
    rw [Ident.bare, word, Token.text_of_shape hu (.inl ht)]

theorem Accepts.named {g : Ident → Parse γ} (ht : t.kind = .identifier)
    (hg : ∀ x, x.bare = word t → Accepts (g x) view' us d rest) :
    Accepts (ident >>= g) view' (t :: us) d rest :=
  (ident_accepts (.mk ht) (us ++ rest)).bind hg

end Steps

def closes : TokenKind → Bool
  | .mark .rparen | .mark .rbracket | .mark .rbrace => true
  | _ => false

/-- What follows an item of a list: a comma or a mark that closes the list. -/
def endsItem (k : TokenKind) : Bool := k = .mark .comma || closes k

theorem not_startsExpr_of_closes {k : TokenKind} (h : closes k) : startsExpr k = false := by
  unfold closes at h
  split at h
  · rfl
  · rfl
  · rfl
  · cases h

theorem extensionPrecedence?_of_endsItem {k : TokenKind} (h : endsItem k) :
    extensionPrecedence? k = none := by
  unfold endsItem closes at h
  split at h
  · rfl
  · rfl
  · rfl
  · obtain rfl : k = .mark .comma := by simpa using h
    rfl

theorem listOf_accepts {α β : Type} {close : TokenKind} {item : Parse α} {view : α → β}
    {G : List Token → β → Prop} {us : List Token} {as : List β} (hs : Sequence G us as)
    (hfirst : ∀ {ts a}, G ts a → ∃ t vs, ts = t :: vs ∧ startsExpr t.kind)
    (hitem : ∀ {ts a r} rs, ts.length ≤ us.length → G ts a → endsItem r.kind →
      Accepts item view ts a (r :: rs))
    {c : Token} (hc : c.kind = close) (hclose : closes close) (hn : us.length < n)
    (rest : List Token) :
    Accepts (listOf close item n) (fun r => r.1.map view) (us ++ [c]) as rest := by
  have hend : close ≠ .eof := by rintro rfl; cases hclose
  have hcomma : close ≠ .mark .comma := by rintro rfl; cases hclose
  have hstart {t : Token} (ht : startsExpr t.kind) : t.kind ≠ close := by
    intro he
    rw [he, not_startsExpr_of_closes hclose] at ht
    cases ht
  induction n generalizing us as with
  | zero => omega
  | succ n ih =>
    cases hs with
    | nil => exact .take hc hend fun _ => .ret rfl
    | last hg =>
      obtain ⟨t, vs, rfl, ht⟩ := hfirst hg
      refine .skip (take_skips (hstart ht) _) ?_
      refine .bind (hitem rest (Nat.le_refl _) hg (by simp [endsItem, hc, hclose])) fun b hb => ?_
      exact .take hc hend fun _ => .ret (by simp [hb])
    | cons hg hm hs =>
      simp only [List.length_append, List.length_cons] at hn hitem
      obtain ⟨t, vs, rfl, ht⟩ := hfirst hg
      rw [List.append_assoc]
      refine .skip (take_skips (hstart ht) _) ?_
      refine .bind (hitem _ (by omega) hg (by simp [endsItem, hm])) fun b hb => ?_
      refine .skip (take_skips (fun he => hcomma (he.symm.trans hm)) _) ?_
      refine .token hm (by simp) fun _ => ?_
      refine .final (ih hs (fun rs hl => hitem rs (by omega)) (by omega)) ?_
      exact fun r hr => .ret (by simp [hb, ← hr])

theorem typeArgs_accepts {type : Parse TypeExpr} {us : List Token} {as : List TypeExpr}
    (hs : OneOrMore IsType us as) {c : Token} (hc : c.kind = .mark .greater)
    (hitem : ∀ ts a r rs, ts.length ≤ us.length → IsType ts a → r.kind ≠ .mark .less →
      Accepts type TypeExpr.bare ts a (r :: rs)) (hn : us.length < n) (rest : List Token) :
    Accepts (typeArgs type n) (fun r => r.1.map TypeExpr.bare) (us ++ [c]) as rest := by
  induction n generalizing us as with
  | zero => omega
  | succ n ih =>
    cases hs with
    | last hg =>
      refine .bind (hitem _ _ c rest (Nat.le_refl _) hg (by simp [hc])) fun b hb => ?_
      exact .take hc (by simp) fun _ => .ret (by simp [hb])
    | cons hg hm hs =>
      simp only [List.length_append, List.length_cons] at hn hitem
      rw [List.append_assoc]
      refine .bind (hitem _ _ _ _ (by omega) hg (by simp [hm])) fun b hb => ?_
      refine .skip (take_skips (by simp [hm]) _) (.token hm (by simp) fun _ => ?_)
      refine .final (ih hs (fun ts' a' r rs hl => hitem ts' a' r rs (by omega)) (by omega)) ?_
      exact fun r hr => .ret (by simp [hb, ← hr])

theorem typeExpr_accepts {ts : List Token} {t : TypeExpr} (h : IsType ts t)
    (hn : ts.length < n) (hr : r.kind ≠ .mark .less) (rest : List Token) :
    Accepts (typeExpr n) TypeExpr.bare ts t (r :: rest) := by
  induction n generalizing ts t r rest with
  | zero => exact absurd hn (Nat.not_lt_zero _)
  | succ n ih =>
    cases h with
    | plain ht =>
      refine .named ht fun x hx => ?_
      exact .skip (take_skips hr _) (.ret (by simp [TypeExpr.bare, TypeExpr.bareAll, hx]))
    | @applied t l us as c ht hl hs hc =>
      simp only [List.length_append, List.length_cons, List.length_nil] at hn
      refine .named ht fun x hx => ?_
      refine .take hl (by simp) fun _ => ?_
      have hargs := typeArgs_accepts hs hc (n := n)
        (fun _ _ _ rs hle hg hk => ih hg (by omega) hk rs) (by omega) (r :: rest)
      exact .final hargs fun as has =>
        .ret (by simp [TypeExpr.bare, TypeExpr.bareAll_eq_map, hx, ← has])

/-- What may follow an expression of a context: a token that binds no tighter than the context. -/
def Follow (min : Precedence) (rest : List Token) : Prop :=
  ∃ r rs, rest = r :: rs ∧ ∀ m, extensionPrecedence? r.kind = some m → ¬ min < m

theorem Follow.mono {m : Precedence} (h : l.rank ≤ m.rank) {rest : List Token}
    (hf : Follow l rest) : Follow m rest := by
  obtain ⟨r, rs, rfl, hr⟩ := hf
  refine ⟨r, rs, rfl, fun k hk hlt => hr k hk ?_⟩
  rw [Precedence.lt_iff] at hlt ⊢
  omega

theorem follow_of_none (h : extensionPrecedence? r.kind = none) (min : Precedence)
    (rs : List Token) : Follow min (r :: rs) :=
  ⟨r, rs, rfl, fun m hm => by rw [h] at hm; cases hm⟩

theorem follow_of_some (h : extensionPrecedence? r.kind = some l) (rs : List Token) : Follow l (r :: rs) := by
  refine ⟨r, rs, rfl, fun m hm hlt => ?_⟩
  obtain rfl : l = m := Option.some.inj (h.symm.trans hm)
  exact Nat.lt_irrefl _ (Precedence.lt_iff.mp hlt)

theorem follow_call (r : Token) (rs : List Token) : Follow .call (r :: rs) := by
  refine ⟨r, rs, rfl, fun m hm hlt => ?_⟩
  exact Nat.lt_irrefl _ (Nat.lt_of_lt_of_le (Precedence.lt_iff.mp hlt) (extensionPrecedence?_le hm))

/-- `read` reads every expression of fewer than `bound` tokens, from its first token on. -/
def ReadsShorter (read : ExprReader) (bound : Nat) : Prop :=
  ∀ {l min t u ts e rest}, (t :: ts).length < bound → IsExpr l (t :: ts) e →
    min.rank ≤ Precedence.unary.rank → min.operand.rank ≤ l.rank → Follow min rest → u.shape = t.shape →
    Accepts (read u min) Expr.bare ts e rest

section Expr

variable {ts : List Token} {t : Token}

variable {read : ExprReader} {bound : Nat} (hread : ReadsShorter read bound)

include hread

theorem exprBy_accepts {min : Precedence} {rest : List Token} (h : IsExpr l ts e)
    (hn : ts.length < bound) (hm : min.rank ≤ Precedence.unary.rank)
    (hl : min.operand.rank ≤ l.rank) (hf : Follow min rest) :
    Accepts (exprBy read min) Expr.bare ts e rest := by
  obtain ⟨t, us, rfl, ht⟩ := h.head
  have hk : t.kind ≠ .eof := fun hk => by rw [hk] at ht; cases ht
  exact .read hk fun _ => hread hn h hm hl hf

theorem exprBy_closed (h : IsExpr .or ts e) (hn : ts.length < bound) (hr : extensionPrecedence? r.kind = none)
    (rest : List Token) : Accepts (exprBy read .lowest) Expr.bare ts e (r :: rest) :=
  exprBy_accepts hread h hn (by decide) (by decide) (follow_of_none hr _ _)

theorem entryBy_accepts {kv : Expr × Expr} (h : IsEntry ts kv)
    (hn : ts.length < bound) (hr : endsItem r.kind) (rest : List Token) :
    Accepts (entryBy read) (Prod.map Expr.bare Expr.bare) ts kv (r :: rest) := by
  cases h with
  | mk hk hc hv =>
    simp only [List.length_append, List.length_cons] at hn
    refine .bind (exprBy_closed hread hk (by omega) (by rw [hc]; rfl) _) fun k hk => ?_
    refine .token hc (by simp) fun _ => ?_
    have hnone := extensionPrecedence?_of_endsItem hr
    refine .final (exprBy_closed hread hv (by omega) hnone rest) fun v hv => ?_
    exact .ret (by simp [hk, hv])

theorem argumentBy_accepts {a : Argument} (h : IsArgument ts a)
    (hn : ts.length < bound) (he : endsItem r.kind) (rest : List Token) :
    Accepts (argumentBy read) Argument.bare ts a (r :: rest) := by
  have hr := extensionPrecedence?_of_endsItem he
  have hc : r.kind ≠ .mark .colon := fun hk => by rw [hk] at he; cases he
  cases h with
  | @keyword x c ts e hx hc h =>
    simp only [List.length_cons] at hn
    refine .read (by simp [hx]) fun y hy => ?_
    rw [if_pos ((Token.kind_of_shape hy).trans hx)]
    refine .first hc (by simp) fun c hc => ?_
    rw [if_pos hc]
    refine .final (exprBy_closed hread h (by omega) hr rest) fun e he => ?_
    exact .ret (by simp [Argument.bare, Ident.bare, word, he, Token.text_of_shape hy (.inl hx)])
  | @positional _ e h =>
    obtain ⟨t, us, rfl, ht⟩ := h.head
    have hk : t.kind ≠ .eof := fun hk => by rw [hk] at ht; cases ht
    refine .read hk fun t' ht' => ?_
    have hrest := hread hn h (by decide) (by decide) (follow_of_none hr .lowest rest) ht'
    have hvalue : Accepts (do let value ← read t' .lowest; return (⟨none, value⟩ : Argument))
        Argument.bare us ⟨none, e⟩ (r :: rest) :=
      .final hrest fun e he => .ret (by simp [Argument.bare, he])
    rw [Token.kind_of_shape ht']
    by_cases hi : t.kind = .identifier
    · rw [if_pos hi]
      -- The token after the name is an operator or what follows the argument, and so no colon.
      obtain ⟨u, vs, hu, hcolon⟩ : ∃ u vs, us ++ r :: rest = u :: vs ∧ u.kind ≠ .mark .colon := by
        cases us with
        | nil => exact ⟨r, rest, rfl, hc⟩
        | cons u us =>
          refine ⟨u, us ++ r :: rest, rfl, fun hk => ?_⟩
          exact h.second rfl hi (by rw [hk]; rfl)
      exact .putBack hu (fun v hv => by rw [if_neg (hv ▸ hcolon)]) hvalue
    · rw [if_neg hi]
      exact hvalue

theorem unary_accepts {rest : List Token} {op : UnaryOp}
    (ht : IsUnary t.kind op) (h : IsExpr .unary ts e) (hn : ts.length < bound)
    (hf : Follow .unary rest) :
    Accepts (primary read bound t) Expr.bare ts (.unary default op e) rest := by
  have hu : Accepts (unaryBy read op t) Expr.bare ts (.unary default op e) rest := by
    refine .final (exprBy_accepts hread h hn (by decide) (by decide) hf) fun e he => ?_
    exact .numbered _ fun n => .ret (by simp [Expr.bare, he])
  unfold primary
  generalize t.kind = k at ht
  cases ht with
  | neg => exact hu
  | not => exact hu

theorem group_accepts (ht : t.kind = .mark .lparen)
    (h : IsExpr .or ts e) (hr : r.kind = .mark .rparen) (hn : ts.length < bound)
    (rest : List Token) : Accepts (primary read bound t) Expr.bare (ts ++ [r]) e rest := by
  simp only [primary, ht]
  refine .bind (exprBy_closed hread h hn (by rw [hr]; rfl) rest) fun e he => ?_
  exact .token hr (by simp) fun _ => .ret (by simp [he])

theorem list_accepts {es : List Expr} (ht : t.kind = .mark .lbracket) (h : Sequence (IsExpr .or) ts es)
    (hr : r.kind = .mark .rbracket) (hn : ts.length < bound) (rest : List Token) :
    Accepts (primary read bound t) Expr.bare (ts ++ [r]) (.list default es) rest := by
  simp only [primary, ht]
  refine .final (listOf_accepts h IsExpr.head (fun rs hle hg he => exprBy_closed hread hg
    (Nat.lt_of_le_of_lt hle hn) (extensionPrecedence?_of_endsItem he) rs) hr rfl hn rest) ?_
  intro r hr
  exact .numbered _ fun n => .ret (by simp [Expr.bare, Expr.bareItems_eq_map, hr])

theorem map_accepts {es : List (Expr × Expr)}
    (ht : t.kind = .mark .lbrace) (h : Sequence IsEntry ts es) (hr : r.kind = .mark .rbrace)
    (hn : ts.length < bound) (rest : List Token) :
    Accepts (primary read bound t) Expr.bare (ts ++ [r]) (.map default es) rest := by
  simp only [primary, ht]
  refine .final (listOf_accepts h IsEntry.head (fun rs hle hg he => entryBy_accepts hread hg
    (Nat.lt_of_le_of_lt hle hn) he rs) hr rfl hn rest) ?_
  intro r hr
  exact .numbered _ fun n => .ret (by simp [Expr.bare, Expr.bareEntries_eq_map, hr])

theorem call_accepts {c : Expr} {as : List Argument}
    (ht : t.kind = .mark .lparen) (h : Sequence IsArgument ts as) (hr : r.kind = .mark .rparen)
    (hn : ts.length < bound) (level : Precedence) (rest : List Token) :
    Accepts (extend read bound t c level) Expr.bare (ts ++ [r]) (.call default c.bare as) rest := by
  simp only [extend, ht]
  refine .final (listOf_accepts h IsArgument.head (fun rs hle hg he => argumentBy_accepts hread hg
    (Nat.lt_of_le_of_lt hle hn) he rs) hr rfl hn rest) ?_
  intro r hr
  exact .numbered _ fun n => .ret (by simp [Expr.bare, Expr.bareArguments_eq_map, hr])

theorem index_accepts {b i : Expr} (ht : t.kind = .mark .lbracket)
    (h : IsExpr .or ts i) (hr : r.kind = .mark .rbracket) (hn : ts.length < bound)
    (level : Precedence) (rest : List Token) :
    Accepts (extend read bound t b level) Expr.bare (ts ++ [r]) (.index default b.bare i) rest := by
  simp only [extend, ht]
  refine .bind (exprBy_closed hread h hn (by rw [hr]; rfl) rest) fun i hi => ?_
  refine .token hr (by simp) fun _ => ?_
  exact .numbered _ fun n => .ret (by simp [Expr.bare, hi])

theorem binary_accepts {rest : List Token} {op : BinaryOp} {m n : Precedence}
    {l r : Expr} (ht : IsBinary t.kind op m n) (h : IsExpr n ts r) (hn : ts.length < bound)
    (hf : Follow m rest) :
    Accepts (extend read bound t l m) Expr.bare ts (.binary default op l.bare r) rest := by
  obtain ⟨ho, rfl, rfl⟩ := isBinary_iff.mp ht
  have hr : Accepts (do
      let rhs ← exprBy read op.precedence
      let n ← node (l.span.through rhs.span)
      return .binary n op l rhs) Expr.bare ts (.binary default op l.bare r) rest := by
    refine .final (exprBy_accepts hread h hn ?_ ?_ hf) fun r hr => ?_
    · cases op <;> decide
    · cases op <;> decide
    · exact .numbered _ fun n => .ret (by simp [Expr.bare, hr])
  unfold extend
  split
  case h_4 => rwa [ho]
  all_goals
    rename_i hk
    rw [hk] at ho
    cases ho

omit hread in
theorem field_accepts {x : Token} {b : Expr} (ht : t.kind = .mark .dot)
    (hx : x.kind = .identifier) (level : Precedence) (rest : List Token) :
    Accepts (extend read bound t b level) Expr.bare [x] (.field default b.bare (word x)) rest := by
  simp only [extend, ht]
  refine .named hx fun y hy => ?_
  exact .numbered _ fun n => .ret (by simp [Expr.bare, hy])

end Expr

/-- Reading an expression from the token `t` on gets over the tokens `us`, with `e` read so far. -/
def Arrives (read : ExprReader) (bound : Nat) (min : Precedence) (t : Token) (us : List Token)
    (e : Expr) (rest : List Token) : Prop :=
  ∀ p steps, us.length < steps → p.Offers (us ++ rest) → ∃ lhs p' left,
    (primary read bound t >>= extendAll read bound min steps) p = extendAll read bound min left lhs p' ∧
      lhs.bare = e ∧ p'.Offers rest ∧ steps ≤ left + us.length

section Arrives

variable {read : ExprReader} {bound : Nat} {min : Precedence} {t : Token} {us rest : List Token}

theorem Arrives.of_primary (h : Accepts (primary read bound t) Expr.bare us e rest) :
    Arrives read bound min t us e rest := by
  intro p steps _ hp
  obtain ⟨lhs, p', hr, hb, hp'⟩ := h p hp
  exact ⟨lhs, p', steps, bind_of_ok hr, hb, hp', Nat.le_add_right _ _⟩

theorem Arrives.extend {o : Token} {vs : List Token} {level : Precedence} {l : Expr}
    (h : Arrives read bound min t us l (o :: vs ++ rest))
    (ho : extensionPrecedence? o.kind = some level) (hm : min < level)
    (he : ∀ o' : Token, o'.kind = o.kind → ∀ lhs : Expr, lhs.bare = l →
      Accepts (Parser.extend read bound o' lhs level) Expr.bare vs e rest) :
    Arrives read bound min t (us ++ o :: vs) e rest := by
  intro p steps hs hp
  rw [List.append_assoc] at hp
  simp only [List.length_append, List.length_cons] at hs
  obtain ⟨lhs, p₁, left, hr, hb, hp₁, hleft⟩ := h p steps (by omega) hp
  obtain ⟨n, rfl⟩ : ∃ n, left = n + 1 := ⟨left - 1, by omega⟩
  have hk : o.kind ≠ .eof := fun hk => by rw [hk] at ho; cases ho
  obtain ⟨o', p₂, ho', ha, hp₂⟩ := advance_of_offers hp₁
  have hkind := Token.kind_of_shape ho'
  obtain ⟨lhs', p₃, hx, hb', hp₃⟩ := he o' hkind lhs hb p₂ (hp₂ hk)
  refine ⟨lhs', p₃, n, ?_, hb', hp₃, ?_⟩
  · rw [hr, extendAll, bind_of_ok ha]
    simp only [hkind, ho, if_pos hm]
    exact bind_of_ok hx
  · simp only [List.length_append, List.length_cons]
    omega

theorem Arrives.stop (h : Arrives read bound min t us e rest) (hf : Follow min rest)
    {steps : Nat} (hs : us.length < steps) :
    Accepts (primary read bound t >>= extendAll read bound min steps) Expr.bare us e rest := by
  intro p hp
  obtain ⟨lhs, p₁, left, hr, hb, hp₁, hleft⟩ := h p steps hs hp
  obtain ⟨n, rfl⟩ : ∃ n, left = n + 1 := ⟨left - 1, by omega⟩
  obtain ⟨r, rs, rfl, hlow⟩ := hf
  obtain ⟨r', q, p₂, hr', ha, hback, hp₂⟩ := putBack_of_offers hp₁
  refine ⟨lhs, p₂, ?_, hb, hp₂⟩
  rw [hr, extendAll, bind_of_ok ha, hr']
  cases hk : extensionPrecedence? r.kind with
  | none => exact bind_of_ok hback
  | some m =>
    simp only [if_neg (hlow m hk)]
    exact bind_of_ok hback

theorem arrives (hread : ReadsShorter read bound) (hm : min.rank ≤ Precedence.unary.rank) {ts : List Token}
    {u : Token} (h : IsExpr l ts e) (hts : ts = t :: us) (hu : u.shape = t.shape) (hn : ts.length ≤ bound)
    (hl : min.operand.rank ≤ l.rank) (hf : Follow l rest) : Arrives read bound min u us e rest := by
  have hcall : min < .call := by
    rw [Precedence.lt_iff]
    exact Nat.lt_of_le_of_lt hm (by decide)
  have hk := Token.kind_of_shape hu
  induction h using IsExpr.spine generalizing t us rest with
  | looser hlt _ ih =>
    have hle := Nat.le_of_lt (Nat.lt_of_succ_le (Nat.le_of_eq hlt.rank.symm))
    exact ih hts hu hn (Nat.le_trans hl hle) (hf.mono hle) hk
  | @binary m _ _ _ _ _ _ _ hlhs ho hrhs ih =>
    obtain ⟨v, ws, rfl, -⟩ := hlhs.head
    obtain ⟨rfl, rfl⟩ := List.cons.inj hts
    simp only [List.length_append, List.length_cons] at hn
    have hlt : min < m := by
      obtain ⟨-, rfl, -⟩ := isBinary_iff.mp ho
      exact Precedence.lt_of_operand_le hl
    refine (ih rfl hu (by simp only [List.length_cons]; omega) hl
      (follow_of_some ho.extension _) hk).extend ho.extension hlt ?_
    rintro o ho' lhs rfl
    exact binary_accepts hread (ho' ▸ ho) hrhs (by omega) hf
  | unary ho hx =>
    obtain ⟨rfl, rfl⟩ := List.cons.inj hts
    exact .of_primary (unary_accepts hread (hk ▸ ho) hx hn hf)
  | call hc ho ha hr ih =>
    obtain ⟨v, ws, rfl, -⟩ := hc.head
    rw [List.append_assoc] at hts
    obtain ⟨rfl, rfl⟩ := List.cons.inj hts
    simp only [List.length_append, List.length_cons] at hn
    refine (ih rfl hu (by simp only [List.length_cons]; omega) hl (follow_call _ _) hk).extend
      (by rw [ho]; rfl) hcall ?_
    rintro o ho' lhs rfl
    exact call_accepts hread (ho'.trans ho) ha hr (by omega) _ _
  | index hb ho hi hr ih =>
    obtain ⟨v, ws, rfl, -⟩ := hb.head
    rw [List.append_assoc] at hts
    obtain ⟨rfl, rfl⟩ := List.cons.inj hts
    simp only [List.length_append, List.length_cons] at hn
    refine (ih rfl hu (by simp only [List.length_cons]; omega) hl (follow_call _ _) hk).extend
      (by rw [ho]; rfl) hcall ?_
    rintro o ho' lhs rfl
    exact index_accepts hread (ho'.trans ho) hi hr (by omega) _ _
  | field hb ho hx ih =>
    obtain ⟨v, ws, rfl, -⟩ := hb.head
    obtain ⟨rfl, rfl⟩ := List.cons.inj hts
    simp only [List.length_append, List.length_cons] at hn
    refine (ih rfl hu (by simp only [List.length_cons]; omega) hl (follow_call _ _) hk).extend
      (by rw [ho]; rfl) hcall ?_
    rintro o ho' lhs rfl
    exact field_accepts (ho'.trans ho) hx _ _
  | symbol ht =>
    obtain ⟨rfl, rfl⟩ := List.cons.inj hts
    have htext := Token.text_of_shape hu (.inl ht)
    exact .of_primary (by simp only [primary, hk, ht, htext]; exact .numbered _ fun n => .ret rfl)
  | @int t n ht hv hmax =>
    obtain ⟨rfl, rfl⟩ := List.cons.inj hts
    have htext := Token.text_of_shape hu (.inr (.inl ht))
    obtain rfl := numeral_iff.mp hv
    have hle : digitsValue t.text.toList ≤ maxInt := hmax
    exact .of_primary (by simp only [primary, hk, ht, htext, if_pos hle]; exact .numbered _ fun n => .ret rfl)
  | string ht =>
    obtain ⟨rfl, rfl⟩ := List.cons.inj hts
    have htext := Token.text_of_shape hu (.inr (.inr ht))
    exact .of_primary (by simp only [primary, hk, ht, htext]; exact .numbered _ fun n => .ret rfl)
  | trueLit ht | falseLit ht =>
    obtain ⟨rfl, rfl⟩ := List.cons.inj hts
    exact .of_primary (by simp only [primary, hk, ht]; exact .numbered _ fun n => .ret rfl)
  | group ho hx hr =>
    obtain ⟨rfl, rfl⟩ := List.cons.inj hts
    simp only [List.length_append, List.length_cons] at hn
    exact .of_primary (group_accepts hread (hk.trans ho) hx hr (by omega) rest)
  | list ho hx hr =>
    obtain ⟨rfl, rfl⟩ := List.cons.inj hts
    simp only [List.length_append, List.length_cons] at hn
    exact .of_primary (list_accepts hread (hk.trans ho) hx hr (by omega) rest)
  | map ho hx hr =>
    obtain ⟨rfl, rfl⟩ := List.cons.inj hts
    simp only [List.length_append, List.length_cons] at hn
    exact .of_primary (map_accepts hread (hk.trans ho) hx hr (by omega) rest)

end Arrives

theorem exprFrom_readsShorter (n : Nat) : ReadsShorter (exprFrom n) n := by
  induction n with
  | zero => exact fun hn => absurd hn (Nat.not_lt_zero _)
  | succ n ih =>
    intro l min t u ts e rest hn h hm hl hf hu
    have hf' : Follow l rest := hf.mono (Nat.le_trans (Precedence.rank_le_operand hm) hl)
    have ha : Arrives (exprFrom n) n min u ts e rest :=
      arrives ih hm h rfl hu (Nat.le_of_lt_succ hn) hl hf'
    exact ha.stop hf (Nat.lt_of_succ_lt_succ hn)

theorem exprWithin_accepts {bound : Nat} {ts : List Token} (h : IsExpr .or ts e)
    (hn : ts.length < bound) (hr : extensionPrecedence? r.kind = none)
    (rest : List Token) : Accepts (exprWithin bound) Expr.bare ts e (r :: rest) :=
  exprBy_closed (exprFrom_readsShorter bound) h hn hr rest

end Parser

end Gondola
