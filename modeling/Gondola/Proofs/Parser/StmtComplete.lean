import Gondola.Proofs.Parser.ExprComplete
import Gondola.Proofs.Parser.StmtSound

/-! What derives from the grammar as a statement or a program is read. -/
namespace Gondola.Parser

open Grammar

variable {ts : List Token} {e : Expr} {vs : List Token} {s : Stmt} {n : Nat} {ss : Block} {c : Token}
  {b : Block} {is : List Item}

theorem ne_less_of_endsItem {k : TokenKind} (h : endsItem k) : k ≠ .mark .less := by
  rintro rfl
  cases h

theorem length_pos_of_head {P : Token → Prop} (h : ∃ t us, ts = t :: us ∧ P t) : 0 < ts.length := by
  obtain ⟨t, us, rfl, -⟩ := h
  exact Nat.succ_pos _

section Parts

variable {bound : Nat} {r : Token}

theorem bindingWithin_accepts {b : Binding} (h : IsBinding ts b)
    (hn : ts.length < bound) (hr : r.kind ≠ .mark .less) (rest : List Token) :
    Accepts (bindingWithin bound) Binding.bare ts b (r :: rest) := by
  cases h with
  | mk hx hc h =>
    simp only [List.length_cons] at hn
    refine .named hx fun x hx => .token hc (by simp) fun _ => ?_
    refine .final (typeExpr_accepts h (by omega) hr rest) fun t ht => ?_
    exact .ret (by simp [Binding.bare, hx, ht])

theorem typeAfter_accepts {marks : List TokenKind} (hmarks : .eof ∉ marks)
    {t : Option TypeExpr} (h : Annotation marks ts t) (hn : ts.length < bound)
    (hr : r.kind ≠ .mark .less) (hr' : r.kind ∉ marks) (rest : List Token) :
    Accepts (typeAfter marks bound) (Option.map TypeExpr.bare) ts t (r :: rest) := by
  cases h with
  | absent => exact .skip (takeAny_skips hr' rest) (.ret rfl)
  | present hm h =>
    simp only [List.length_cons] at hn
    refine .taken hm (fun he => hmarks (he ▸ hm)) fun _ => ?_
    refine .final (typeExpr_accepts h (by omega) hr rest) fun t ht => ?_
    exact .ret (by simp [ht])

theorem payloadOf_accepts {α β : Type} {item : Parse α} {view : α → β}
    {G : List Token → β → Prop} {as : List β} (h : Payload G ts as)
    (hfirst : ∀ {ts a}, G ts a → ∃ t vs, ts = t :: vs ∧ startsExpr t.kind)
    (hitem : ∀ {us a r} rs, us.length ≤ ts.length → G us a → endsItem r.kind →
      Accepts item view us a (r :: rs))
    (hn : ts.length < bound) (hr : r.kind ≠ .mark .lparen) (rest : List Token) :
    Accepts (payloadOf item bound) (List.map view) ts as (r :: rest) := by
  cases h with
  | absent => exact .skip (take_skips hr rest) (.ret rfl)
  | present hl hs hc =>
    simp only [List.length_append, List.length_cons] at hn hitem
    refine .take hl (by simp) fun _ => ?_
    refine .final (listOf_accepts hs hfirst (fun rs hle => hitem rs (by omega)) hc rfl (by omega) _) ?_
    exact fun as has => .ret has

theorem enumCaseWithin_accepts {c : EnumCase} (h : IsEnumCase ts c)
    (hn : ts.length < bound) (hr : endsItem r.kind) (rest : List Token) :
    Accepts (enumCaseWithin bound) EnumCase.bare ts c (r :: rest) := by
  cases h with
  | mk hx h =>
    simp only [List.length_cons] at hn
    refine .named hx fun x hx => ?_
    have hr' : r.kind ≠ .mark .lparen := fun hk => by rw [hk] at hr; cases hr
    refine .final (payloadOf_accepts h IsType.head (fun rs hle hg he =>
      typeExpr_accepts hg (by omega) (ne_less_of_endsItem he) rs) (by omega) hr' rest) ?_
    exact fun ps hps => .ret (by simp [EnumCase.bare, hx, hps])

theorem patternWithin_accepts {p : Pattern} (h : IsPattern ts p)
    (hn : ts.length < bound) (hr : r.kind ≠ .mark .lparen) (rest : List Token) :
    Accepts (patternWithin bound) Pattern.bare ts p (r :: rest) := by
  cases h with
  | mk hx h =>
    simp only [List.length_cons] at hn
    refine .named hx fun x hx => ?_
    refine .final (payloadOf_accepts h IsName.head (fun rs _ hg _ => ident_accepts hg (_ :: rs))
      (by omega) hr rest) ?_
    exact fun xs hxs => .ret (by simp [Pattern.bare, hx, hxs])

theorem loopVars_accepts {v : LoopVars} (h : IsLoopVars ts v) (hr : r.kind ≠ .mark .comma) (rest : List Token) :
    Accepts loopVars LoopVars.bare ts v (r :: rest) := by
  cases h with
  | item hx =>
    refine .named hx fun x hx => ?_
    exact .skip (take_skips hr rest) (.ret (by simp [LoopVars.bare, hx]))
  | indexed hi hc hx =>
    refine .named hi fun i hi => .take hc (by simp) fun _ => ?_
    exact .named hx fun x hx => .ret (by simp [LoopVars.bare, hi, hx])

end Parts

/-- How a simple statement ends: by a semicolon, or before the end of its block. -/
inductive Tail : List Token → List Token → Prop
  | semicolon {semi rest} (hm : semi.kind = .mark .semicolon) : Tail [semi] rest
  | atEnd {r rs} (hr : r.kind = .mark .rbrace ∨ r.kind = .eof) : Tail [] (r :: rs)

theorem Tail.next {us rest : List Token} (h : Tail us rest) :
    ∃ r rs, us ++ rest = r :: rs ∧ extensionPrecedence? r.kind = none ∧ startsExpr r.kind = false ∧
      r.kind ≠ .mark .assign := by
  cases h with
  | semicolon hm => exact ⟨_, _, rfl, by rw [hm]; rfl, by rw [hm]; rfl, by simp [hm]⟩
  | atEnd hr =>
    refine ⟨_, _, rfl, ?_⟩
    obtain hr | hr := hr
    · exact ⟨by rw [hr]; rfl, by rw [hr]; rfl, by simp [hr]⟩
    · exact ⟨by rw [hr]; rfl, by rw [hr]; rfl, by simp [hr]⟩

theorem terminator_accepts {us rest : List Token} (h : Tail us rest) :
    Accepts terminator (fun _ => ()) us () rest := by
  cases h with
  | semicolon hm =>
    refine .first hm (by simp) fun t ht => ?_
    simp only [ht]
    exact .ret rfl
  | @atEnd r rs hr =>
    intro p hp
    obtain ⟨u, q, p', hu, ha, hb, hp'⟩ := putBack_of_offers hp
    refine ⟨(), p', ?_, rfl, hp'⟩
    rw [terminator, bind_of_ok ha]
    obtain hr | hr := hr
    · simp only [hu, hr, hb]
    · simp only [hu, hr, hb]

section Simple

variable {bound : Nat} {us rest : List Token} (htail : Tail us rest)

include htail

theorem exprWithin_tail (he : IsExpr .or ts e)
    (hn : ts.length < bound) : Accepts (exprWithin bound) Expr.bare ts e (us ++ rest) := by
  obtain ⟨r, rs, hr, hnone, -⟩ := htail.next
  rw [hr]
  exact exprWithin_accepts he hn hnone rs

theorem letFrom_accepts {t x q : Token} {type : Option TypeExpr}
    (hx : x.kind = .identifier) (ht : Annotation [.mark .colon] ts type)
    (hq : q.kind = .mark .assign) (he : IsExpr .or vs e)
    (hn : ts.length + vs.length < bound) :
    Accepts (letFrom bound t) Stmt.bare (x :: (ts ++ q :: (vs ++ us)))
      (.letVar default (word x) type e) rest := by
  refine .named hx fun x hx => ?_
  refine .bind (typeAfter_accepts (by simp) ht (by omega) (by simp [hq]) (by simp [hq]) _) ?_
  intro type htype
  refine .token hq (by simp) fun _ => ?_
  refine .bind (exprWithin_tail htail he (by omega)) fun e he => ?_
  refine .final (terminator_accepts htail) fun _ _ => ?_
  exact .ret (by simp [Stmt.bare, hx, htype, he])

theorem returnFrom_none (t : Token) :
    Accepts (returnFrom bound t) Stmt.bare us (.ret default none) rest := by
  have hret : Accepts (do terminator; return Stmt.ret t.span none) Stmt.bare us
      (.ret default none) rest :=
    .final (terminator_accepts htail) fun _ _ => .ret (by simp [Stmt.bare])
  cases htail with
  | semicolon hm => exact .putBack rfl (fun u hu => by simp only [hu, hm]) hret
  | atEnd hr =>
    obtain hr | hr := hr
    · exact .putBack rfl (fun u hu => by simp only [hu, hr]) hret
    · exact .putBack rfl (fun u hu => by simp only [hu, hr]) hret

theorem returnFrom_some (t : Token) (he : IsExpr .or ts e) (hn : ts.length < bound) :
    Accepts (returnFrom bound t) Stmt.bare (ts ++ us) (.ret default (some e)) rest := by
  have hret : Accepts (do
      let value ← exprWithin bound
      terminator
      return Stmt.ret (t.span.through value.span) (some value)) Stmt.bare (ts ++ us)
      (.ret default (some e)) rest := by
    refine .bind (exprWithin_tail htail he hn) fun e he => ?_
    exact .final (terminator_accepts htail) fun _ _ => .ret (by simp [Stmt.bare, he])
  obtain ⟨u, vs, rfl, hu⟩ := he.head
  refine .putBack rfl (fun v hv => ?_) hret
  rw [← hv] at hu
  congr 1
  funext _
  -- An expression follows, and so none of the tokens that end the statement.
  split
  case h_4 => rfl
  all_goals
    rename_i hk
    rw [hk] at hu
    cases hu

theorem exprFrom_stmt {t u : Token} (he : IsExpr .or (t :: ts) e) (hu : u.shape = t.shape)
    (hn : (t :: ts).length < bound) :
    Accepts (simpleFrom bound u) Stmt.bare (ts ++ us) (.expr default e) rest := by
  obtain ⟨r, rs, hr, hnone, -, hassign⟩ := htail.next
  have hread := exprFrom_readsShorter bound hn he (by decide) (by decide)
    (follow_of_none hnone .lowest rs) hu
  rw [← hr] at hread
  refine .bind hread fun e he => ?_
  refine .skip (hr ▸ take_skips hassign rs) ?_
  exact .final (terminator_accepts htail) fun _ _ => .ret (by simp [Stmt.bare, he])

theorem exprFrom_assign {t u q : Token} {target : Expr}
    (ht : IsExpr .or (t :: ts) target) (hu : u.shape = t.shape) (hp : IsTarget target) (hq : q.kind = .mark .assign)
    (he : IsExpr .or vs e) (hn : (t :: ts).length + vs.length < bound) :
    Accepts (simpleFrom bound u) Stmt.bare (ts ++ q :: (vs ++ us)) (.assign default target e)
      rest := by
  have hnone : extensionPrecedence? q.kind = none := by rw [hq]; rfl
  have hread := exprFrom_readsShorter bound (by omega) ht (by decide) (by decide)
    (follow_of_none hnone .lowest (vs ++ us ++ rest)) hu
  refine .bind hread fun target htarget => ?_
  refine .take hq (by simp) fun _ => ?_
  have hplace : target.isPlace = true := by
    rw [← Expr.isPlace_bare, htarget, isTarget_iff.mp hp]
  rw [if_pos hplace]
  refine .bind (exprWithin_tail htail he (by omega)) fun e he => ?_
  exact .final (terminator_accepts htail) fun _ _ => .ret (by simp [Stmt.bare, htarget, he])

end Simple

/-- A statement with what ends it, before the tokens that follow. -/
inductive Whole : List Token → Stmt → List Token → Prop
  | compound {ts s r rs} (h : IsCompound ts s) (hr : r.kind ≠ .keyword .elifKw)
      (hr' : r.kind ≠ .keyword .elseKw) : Whole ts s (r :: rs)
  | simple {ts us s rest} (h : IsSimple ts s) (ht : Tail us rest) : Whole (ts ++ us) s rest

theorem Whole.head {rest : List Token} (h : Whole ts s rest) : ∃ t us, ts = t :: us ∧ startsStmt t.kind := by
  cases h with
  | compound h _ _ => exact h.head
  | simple h _ =>
    obtain ⟨t, us, rfl, ht⟩ := h.head
    exact ⟨t, _, rfl, ht⟩

theorem whole_of_compound {rest : List Token} (h : IsCompound ts s)
    (hr : ∃ r rs, rest = r :: rs ∧ r.kind ≠ .keyword .elifKw ∧ r.kind ≠ .keyword .elseKw) :
    Whole ts s rest := by
  obtain ⟨r, rs, rfl, h₁, h₂⟩ := hr
  exact .compound h h₁ h₂

/-- `stmt` reads every statement whose tokens, with one to spare, are fewer than `bound`. -/
def ReadsShorterStmt (stmt : Parse Stmt) (bound : Nat) : Prop :=
  ∀ {ts s rest}, ts.length + 1 < bound → Whole ts s rest → Accepts stmt Stmt.bare ts s rest

section Stmt

variable {us : List Token} {r : Token}

variable {stmt : Parse Stmt} {bound : Nat} (hstmt : ReadsShorterStmt stmt bound)

include hstmt

theorem stmtsBy_cons {rest : List Token} (hn : ts.length + 1 < bound) (h : Whole ts s (us ++ rest))
    (hs : Accepts (stmtsBy stmt n) (fun r => Stmt.bareBlock r.1) us ss rest) :
    Accepts (stmtsBy stmt (n + 1)) (fun r => Stmt.bareBlock r.1) (ts ++ us) (s :: ss) rest := by
  have hcons : Accepts (do
      let s ← stmt
      let r ← stmtsBy stmt n
      return (s :: r.1, r.2)) (fun r => Stmt.bareBlock r.1) (ts ++ us) (s :: ss) rest := by
    refine .bind (hstmt hn h) fun s hs₁ => ?_
    exact .final hs fun r hr => .ret (by simp [Stmt.bareBlock, hs₁, ← hr])
  obtain ⟨t, vs, rfl, ht⟩ := h.head
  refine .putBack rfl (fun u hu => ?_) hcons
  rw [← hu] at ht
  -- The first token of a statement neither closes the block nor ends the input.
  split
  · rename_i hk
    rw [hk] at ht
    cases ht
  · rename_i hk
    rw [hk] at ht
    cases ht
  · rfl

omit hstmt in
theorem body_follow (h : IsBody us ss) (hc : c.kind = .mark .rbrace) (rest : List Token) :
    ∃ r rs, us ++ [c] ++ rest = r :: rs ∧ r.kind ≠ .keyword .elifKw ∧
      r.kind ≠ .keyword .elseKw := by
  obtain rfl | ⟨t, vs, rfl, ht⟩ := h.head
  · exact ⟨c, rest, rfl, by simp [hc], by simp [hc]⟩
  · refine ⟨t, _, rfl, fun hk => ?_, fun hk => ?_⟩ <;> (rw [hk] at ht; cases ht)

theorem stmtsBy_accepts (h : IsBody us ss)
    (hc : c.kind = .mark .rbrace) (hb : us.length + 1 < bound) (hn : us.length < n)
    (rest : List Token) :
    Accepts (stmtsBy stmt n) (fun r => Stmt.bareBlock r.1) (us ++ [c]) ss rest := by
  -- At the closing brace, whatever the number of steps left.
  have hend {n : Nat} (hn : 0 < n) :
      Accepts (stmtsBy stmt n) (fun r => Stmt.bareBlock r.1) [c] [] rest := by
    obtain ⟨n, rfl⟩ := Nat.exists_eq_add_one.mpr hn
    refine .first hc (by simp) fun t ht => ?_
    simp only [ht]
    exact .ret rfl
  induction n generalizing us ss with
  | zero => omega
  | succ n ih =>
    cases h with
    | nil => exact hend hn
    | @compound ts us _ _ h hs =>
      have hpos := length_pos_of_head h.head
      simp only [List.length_append] at hb hn
      rw [List.append_assoc]
      exact stmtsBy_cons hstmt (by omega) (whole_of_compound h (body_follow hs hc rest))
        (ih hs (by omega) (by omega))
    | @simple ts semi us s _ h hm hs =>
      simp only [List.length_append, List.length_cons] at hb hn
      have hw : Whole (ts ++ [semi]) s (us ++ [c] ++ rest) := .simple h (.semicolon hm)
      have := stmtsBy_cons hstmt (by simp; omega) hw (ih hs (by omega) (by omega))
      simpa using this
    | @last us s h =>
      have hpos := length_pos_of_head h.head
      have hw : Whole (us ++ []) s ([c] ++ rest) := .simple h (.atEnd (.inl hc))
      rw [List.append_nil] at hw
      exact stmtsBy_cons hstmt hb hw (hend (by omega))

theorem blockBy_accepts (h : IsBlock ts b) (hn : ts.length < bound) (rest : List Token) :
    Accepts (blockBy stmt bound) (fun r => Stmt.bareBlock r.1) ts b rest := by
  cases h with
  | mk hl hs hr =>
    simp only [List.length_append, List.length_cons, List.length_nil] at hn
    exact .token hl (by simp) fun _ =>
      stmtsBy_accepts hstmt hs hr (by omega) (by omega) rest

omit hstmt in
theorem exprWithin_block (he : IsExpr .or ts e) (hb : IsBlock us b) (hn : ts.length < bound) (rest : List Token) :
    Accepts (exprWithin bound) Expr.bare ts e (us ++ rest) := by
  obtain ⟨l, vs, rfl, hl⟩ := hb.head
  exact exprWithin_accepts he hn (by rw [hl]; rfl) _

theorem clauseBy_accepts (he : IsExpr .or ts e)
    (hb : IsBlock us b) (hn : (ts ++ us).length < bound) (rest : List Token) :
    Accepts (clauseBy stmt bound) (fun r => (r.1.cond.bare, Stmt.bareBlock r.1.body)) (ts ++ us)
      (e, b) rest := by
  rw [List.length_append] at hn
  refine .bind (exprWithin_block he hb (by omega) rest) fun e he => ?_
  refine .final (blockBy_accepts hstmt hb (by omega) rest) fun b hb => ?_
  exact .ret (by simp [he, hb])

omit hstmt in
theorem continuation_clause {ks : List Token} (h : IsElseIf ks) (rest : List Token) :
    Accepts continuation (fun x => x) ks .clause rest := by
  cases h with
  | one hk => exact .take hk (by simp) fun _ => .ret rfl
  | two hk hi =>
    refine .skip (take_skips (by simp [hk]) _) (.take hk (by simp) fun _ => ?_)
    exact .take hi (by simp) fun _ => .ret rfl

omit hstmt in
theorem continuation_final {k : Token} (hk : k.kind = .keyword .elseKw) (hb : IsBlock ts b) (rest : List Token) :
    Accepts continuation (fun x => x) [k] .final (ts ++ rest) := by
  obtain ⟨l, us, rfl, hl⟩ := hb.head
  refine .skip (take_skips (by simp [hk]) _) (.take hk (by simp) fun _ => ?_)
  exact .skip (take_skips (by simp [hl]) _) (.ret rfl)

omit hstmt in
theorem continuation_stop (hr : r.kind ≠ .keyword .elifKw) (hr' : r.kind ≠ .keyword .elseKw) (rest : List Token) :
    Accepts continuation (fun x => x) [] .stop (r :: rest) :=
  .skip (take_skips hr rest) (.skip (take_skips hr' rest) (.ret rfl))

theorem clausesBy_accepts {cs : List Clause} {o : Option Block}
    (h : IsElse vs cs o) (hb : vs.length < bound) (hn : vs.length < n)
    (hr : r.kind ≠ .keyword .elifKw) (hr' : r.kind ≠ .keyword .elseKw) (stop : Span)
    (rest : List Token) :
    Accepts (clausesBy stmt bound n stop)
      (fun r => (Stmt.bareClauses r.1, Stmt.bareOtherwise r.2.1)) vs (cs, o) (r :: rest) := by
  induction n generalizing vs cs stop with
  | zero => omega
  | succ n ih =>
    cases h with
    | stop => exact .skip (continuation_stop hr hr' rest) (.ret rfl)
    | final hk hg =>
      simp only [List.length_cons] at hb
      refine .bind (continuation_final hk hg _) ?_
      rintro _ rfl
      refine .final (blockBy_accepts hstmt hg (by omega) _) fun b hb => ?_
      exact .ret (by simp [Stmt.bareClauses, Stmt.bareOtherwise, hb])
    | @clause ks ts us vs e b _ _ hk he hg hc =>
      have hpos : 0 < ks.length := by cases hk <;> exact Nat.succ_pos _
      simp only [List.length_append] at hb hn
      rw [List.append_assoc, List.append_assoc, ← List.append_assoc ts]
      refine .bind (continuation_clause hk _) ?_
      rintro _ rfl
      refine .bind (clauseBy_accepts hstmt he hg (by rw [List.length_append]; omega) _) ?_
      rintro ⟨⟨cond, body⟩, last⟩ hc'
      refine .final (ih hc (by omega) (by omega) _) fun r hr => ?_
      simp only [Prod.mk.injEq] at hc' hr
      exact .ret (by simp [Stmt.bareClauses, hc', hr])

theorem armsBy_accepts {as : List Arm} {o : Option Block} (h : IsArms vs as o) (hc : c.kind = .mark .rbrace)
    (hb : vs.length < bound) (hn : vs.length < n) (rest : List Token) :
    Accepts (armsBy stmt bound n) (fun r => (Stmt.bareArms r.1, Stmt.bareOtherwise r.2.1)) (vs ++ [c]) (as, o) rest := by
  induction n generalizing vs as with
  | zero => omega
  | succ n ih =>
    cases h with
    | nil =>
      refine .first hc (by simp) fun t ht => ?_
      simp only [ht]
      exact .ret rfl
    | default hk hg =>
      simp only [List.length_cons] at hb
      refine .first hk (by simp) fun t ht => ?_
      simp only [ht]
      refine .bind (blockBy_accepts hstmt hg (by omega) _) fun b hb => ?_
      refine .token hc (by simp) fun _ => .ret ?_
      simp [Stmt.bareArms, Stmt.bareOtherwise, hb]
    | @case k ts us vs p b _ _ hk hp hg ha =>
      simp only [List.length_append, List.length_cons] at hb hn
      simp only [List.append_assoc, List.cons_append]
      refine .first hk (by simp) fun t ht => ?_
      simp only [ht]
      obtain ⟨l, ws, rfl, hl⟩ := hg.head
      refine .bind (patternWithin_accepts hp (by omega) (by simp [hl]) _) fun p hp => ?_
      refine .bind (blockBy_accepts hstmt hg (by omega) _) fun b hb => ?_
      refine .final (ih ha (by omega) (by omega)) fun r hr => ?_
      simp only [Prod.mk.injEq] at hr
      exact .ret (by simp [Stmt.bareArms, hp, hb, hr])

omit hstmt in
theorem stmtBy_expr {t : Token} {rest : List Token} (ht : startsExpr t.kind)
    (h : ∀ u, u.shape = t.shape → Accepts (simpleFrom bound u) Stmt.bare ts s rest) :
    Accepts (stmtBy stmt bound) Stmt.bare (t :: ts) s rest := by
  have hk : t.kind ≠ .eof := fun hk => by rw [hk] at ht; cases ht
  refine .read hk fun u hu => ?_
  rw [← Token.kind_of_shape hu] at ht
  split
  case h_10 => exact h u hu
  all_goals
    rename_i hk
    rw [hk] at ht
    cases ht

omit hstmt in
theorem stmtBy_simple {rest : List Token} (h : IsSimple ts s) (htail : Tail us rest) (hn : (ts ++ us).length < bound) :
    Accepts (stmtBy stmt bound) Stmt.bare (ts ++ us) s rest := by
  simp only [List.length_append] at hn
  cases h with
  | letVar hk hx ht hq he =>
    simp only [List.length_append, List.length_cons] at hn
    refine .first hk (by simp) fun k hk => ?_
    simp only [hk]
    simpa using letFrom_accepts htail hx ht hq he (by omega)
  | ret hk =>
    refine .first hk (by simp) fun t ht => ?_
    simp only [ht]
    exact returnFrom_none htail _
  | retValue hk he =>
    simp only [List.length_cons] at hn
    refine .first hk (by simp) fun t ht => ?_
    simp only [ht]
    exact returnFrom_some htail _ he (by omega)
  | expr he =>
    obtain ⟨t, vs, rfl, ht⟩ := he.head
    exact stmtBy_expr ht fun u hu => exprFrom_stmt htail he hu (by omega)
  | assign ht hp hq he =>
    rw [List.append_assoc]
    obtain ⟨t, vs, rfl, ht'⟩ := ht.head
    simp only [List.length_append, List.length_cons] at hn
    refine stmtBy_expr ht' fun u hu => ?_
    exact exprFrom_assign htail ht hu hp hq he (by rw [List.length_cons]; omega)

theorem stmtBy_compound {rest : List Token} (h : IsCompound ts s)
    (hr : r.kind ≠ .keyword .elifKw) (hr' : r.kind ≠ .keyword .elseKw)
    (hn : ts.length < bound) : Accepts (stmtBy stmt bound) Stmt.bare ts s (r :: rest) := by
  cases h with
  | ifElse hk he hb hc =>
    simp only [List.length_append, List.length_cons] at hn
    rw [List.append_assoc, List.cons_append]
    refine .first hk (by simp) fun t ht => ?_
    simp only [ht]
    rw [← List.append_assoc]
    refine .bind (clauseBy_accepts hstmt he hb (by rw [List.length_append]; omega) _) ?_
    rintro ⟨⟨cond, body⟩, stop⟩ hf
    refine .final (clausesBy_accepts hstmt hc (by omega) (by omega) hr hr' _ _) fun c hc => ?_
    simp only [Prod.mk.injEq] at hf hc
    exact .ret (by simp [Stmt.bare, Stmt.bareClauses, hf, hc])
  | whileLoop hk he hb =>
    simp only [List.length_append, List.length_cons] at hn
    refine .first hk (by simp) fun t ht => ?_
    simp only [ht]
    refine .bind (exprWithin_block he hb (by omega) _) fun e he => ?_
    refine .final (blockBy_accepts hstmt hb (by omega) _) fun b hb => ?_
    exact .ret (by simp [Stmt.bare, he, hb])
  | forEach hk hx hi he hb =>
    simp only [List.length_append, List.length_cons] at hn
    rw [List.append_assoc, List.cons_append]
    refine .first hk (by simp) fun t ht => ?_
    simp only [ht]
    refine .bind (loopVars_accepts hx (by simp [hi]) _) fun v hv => ?_
    refine .token hi (by simp) fun _ => ?_
    refine .bind (exprWithin_block he hb (by omega) _) fun e he => ?_
    refine .final (blockBy_accepts hstmt hb (by omega) _) fun b hb => ?_
    exact .ret (by simp [Stmt.bare, hv, he, hb])
  | matchOn hk he hl ha hc =>
    simp only [List.length_append, List.length_cons] at hn
    rw [List.append_assoc, List.cons_append]
    refine .first hk (by simp) fun t ht => ?_
    simp only [ht]
    refine .bind (exprWithin_accepts he (by omega) (by rw [hl]; rfl) _) fun e he => ?_
    refine .token hl (by simp) fun _ => ?_
    refine .final (armsBy_accepts hstmt ha hc (by omega) (by omega) _) fun a ha => ?_
    simp only [Prod.mk.injEq] at ha
    exact .ret (by simp [Stmt.bare, he, ha])
  | struct hk hx hl hf hc =>
    simp only [List.length_append, List.length_cons] at hn
    refine .first hk (by simp) fun t ht => ?_
    simp only [ht]
    refine .named hx fun x hx => .token hl (by simp) fun _ => ?_
    refine .final (listOf_accepts hf IsBinding.head (fun rs hle hg he =>
      bindingWithin_accepts hg (by omega) (ne_less_of_endsItem he) rs) hc rfl (by omega) _) ?_
    exact fun fs hfs => .ret (by simp [Stmt.bare, StructDecl.bare, hx, hfs])
  | enum hk hx hl hf hc =>
    simp only [List.length_append, List.length_cons] at hn
    refine .first hk (by simp) fun t ht => ?_
    simp only [ht]
    refine .named hx fun x hx => .token hl (by simp) fun _ => ?_
    refine .final (listOf_accepts hf IsEnumCase.head (fun rs hle hg he =>
      enumCaseWithin_accepts hg (by omega) he rs) hc rfl (by omega) _) ?_
    exact fun fs hfs => .ret (by simp [Stmt.bare, EnumDecl.bare, hx, hfs])

theorem stmtBy_readsShorter : ReadsShorterStmt (stmtBy stmt bound) (bound + 1) := by
  intro ts s rest hn h
  have hn := Nat.lt_of_succ_lt_succ hn
  cases h with
  | compound h hr hr' => exact stmtBy_compound hstmt h hr hr' hn
  | simple h htail => exact stmtBy_simple h htail hn

end Stmt

theorem stmtWithin_readsShorter (n : Nat) : ReadsShorterStmt (stmtWithin n) n := by
  induction n with
  | zero => exact fun hn => absurd hn (Nat.not_lt_zero _)
  | succ n ih => exact stmtBy_readsShorter ih

theorem functionFrom_accepts {bound : Nat} {x l r : Token} {us : List Token}
    {params : List Binding} {result : Option TypeExpr} (t : Token)
    (hx : x.kind = .identifier) (hl : l.kind = .mark .lparen) (hp : Sequence IsBinding ts params)
    (hr : r.kind = .mark .rparen) (ht : Annotation [.mark .colon, .mark .arrow] us result)
    (hb : IsBlock vs b) (hn : ts.length + us.length + vs.length < bound) (rest : List Token) :
    Accepts (functionFrom bound t) Item.bare (x :: l :: (ts ++ r :: (us ++ vs)))
      (.function default ⟨word x, params, result, b⟩) rest := by
  refine .named hx fun x hx => .token hl (by simp) fun _ => ?_
  rw [List.append_cons]
  refine .bind (listOf_accepts hp IsBinding.head (fun rs hle hg he =>
    bindingWithin_accepts hg (by omega) (ne_less_of_endsItem he) rs) hr rfl (by omega) _) ?_
  intro params hparams
  obtain ⟨o, ws, rfl, ho⟩ := hb.head
  refine .bind (typeAfter_accepts (by simp) ht (by omega) (by simp [ho]) (by simp [ho]) _) ?_
  intro result hresult
  refine .final (blockBy_accepts (stmtWithin_readsShorter bound) hb (by omega) rest) fun b hb => ?_
  exact .ret (by simp [Item.bare, FunctionDecl.bare, hx, hparams, hresult, hb])

/-- At the end of input reading stops, and so there is no state after it to speak of. -/
def AcceptsAll (f : Parse (List Item)) (ts : List Token) (is : List Item) : Prop :=
  ∀ p stop, stop.kind = .eof → p.Offers (ts ++ [stop]) →
    ∃ is' p', f p = .ok is' p' ∧ is'.map Item.bare = is

theorem itemsWithin_nil (bound n : Nat) : AcceptsAll (itemsWithin bound (n + 1)) [] [] := by
  intro p stop hs hp
  obtain ⟨u, p', hu, ha, -⟩ := advance_of_offers hp
  refine ⟨[], p', ?_, rfl⟩
  rw [itemsWithin, bind_of_ok ha]
  simp only [Token.kind_of_shape hu, hs]
  rfl

theorem itemsWithin_function {bound : Nat} {us : List Token} {f : FunctionDecl} (h : IsFunction ts f)
    (hn : ts.length < bound) (hs : AcceptsAll (itemsWithin bound n) us is) :
    AcceptsAll (itemsWithin bound (n + 1)) (ts ++ us) (.function default f :: is) := by
  intro p stop hstop hp
  cases h with
  | @mk k x l ts r us' vs params result b hk hx hl hp' hr ht hb =>
    simp only [List.length_append, List.length_cons] at hn
    simp only [List.cons_append, List.append_assoc] at hp
    obtain ⟨k', p₁, hk', ha, hp₁⟩ := advance_of_offers hp
    have hp₁ := hp₁ (by simp [hk])
    have hf : Accepts (functionFrom bound k') Item.bare _ _ (us ++ [stop]) :=
      functionFrom_accepts k' hx hl hp' hr ht hb (by omega) _
    obtain ⟨i, p₂, hi, hbare, hp₂⟩ := hf p₁ (by simpa using hp₁)
    obtain ⟨is', p₃, his, hmap⟩ := hs p₂ stop hstop hp₂
    refine ⟨i :: is', p₃, ?_, by simp [hbare, hmap]⟩
    rw [itemsWithin, bind_of_ok ha]
    simp only [Token.kind_of_shape hk', hk]
    rw [bind_of_ok hi, bind_of_ok his]
    rfl

theorem itemsWithin_stmt {bound : Nat} {us : List Token}
    (h : ∀ stop, stop.kind = .eof → Whole ts s (us ++ [stop])) (hn : ts.length + 1 < bound)
    (hs : AcceptsAll (itemsWithin bound n) us is) :
    AcceptsAll (itemsWithin bound (n + 1)) (ts ++ us) (.stmt s :: is) := by
  intro p stop hstop hp
  obtain ⟨t, vs, rfl, ht⟩ := (h stop hstop).head
  obtain ⟨u, q, p₁, hu, ha, hback, hp₁⟩ := putBack_of_offers hp
  rw [← hu] at ht
  obtain ⟨s', p₂, hs', hbare, hp₂⟩ := stmtWithin_readsShorter bound hn (h stop hstop) p₁
    (by simpa using hp₁)
  obtain ⟨is', p₃, his, hmap⟩ := hs p₂ stop hstop hp₂
  refine ⟨.stmt s' :: is', p₃, ?_, by simp [Item.bare, hbare, hmap]⟩
  rw [itemsWithin, bind_of_ok ha]
  change EStateM.run _ q = _
  split
  case h_3 =>
    exact (bind_of_ok hback).trans ((bind_of_ok hs').trans (bind_of_ok his))
  all_goals
    rename_i hk
    rw [hk] at ht
    cases ht

theorem items_follow {us : List Token} (h : IsItems us is) {stop : Token} (hs : stop.kind = .eof) :
    ∃ r rs, us ++ [stop] = r :: rs ∧ r.kind ≠ .keyword .elifKw ∧ r.kind ≠ .keyword .elseKw := by
  obtain rfl | ⟨t, vs, rfl, ht | ht⟩ := h.head
  · exact ⟨stop, [], rfl, by simp [hs], by simp [hs]⟩
  · refine ⟨t, _, rfl, fun hk => ?_, fun hk => ?_⟩ <;> (rw [hk] at ht; cases ht)
  · exact ⟨t, _, rfl, by simp [ht], by simp [ht]⟩

theorem itemsWithin_accepts {bound : Nat} (h : IsItems ts is) (hb : ts.length + 1 < bound) (hn : ts.length < n) :
    AcceptsAll (itemsWithin bound n) ts is := by
  induction n generalizing ts is with
  | zero => omega
  | succ n ih =>
    cases h with
    | nil => exact itemsWithin_nil bound n
    | @function ts us _ _ h hs =>
      have hpos : 0 < ts.length := by cases h; exact Nat.succ_pos _
      simp only [List.length_append] at hb hn
      exact itemsWithin_function h (by omega) (ih hs (by omega) (by omega))
    | @compound ts us _ _ h hs =>
      have hpos := length_pos_of_head h.head
      simp only [List.length_append] at hb hn
      exact itemsWithin_stmt (fun stop hstop => whole_of_compound h (items_follow hs hstop)) (by omega)
        (ih hs (by omega) (by omega))
    | @simple ts semi us _ _ h hm hs =>
      simp only [List.length_append, List.length_cons] at hb hn
      rw [List.append_cons]
      refine itemsWithin_stmt (fun stop _ => .simple h (.semicolon hm)) ?_ (ih hs (by omega) (by omega))
      simp only [List.length_append, List.length_singleton]
      omega
    | @last ts s h =>
      have hpos := length_pos_of_head h.head
      obtain ⟨m, rfl⟩ : ∃ m, n = m + 1 := ⟨n - 1, by omega⟩
      have hw (stop : Token) (hstop : stop.kind = .eof) : Whole ts s ([] ++ [stop]) := by
        have htail : Tail [] [stop] := .atEnd (.inr hstop)
        simpa using Whole.simple h htail
      simpa using itemsWithin_stmt hw hb (itemsWithin_nil bound m)

end Gondola.Parser
