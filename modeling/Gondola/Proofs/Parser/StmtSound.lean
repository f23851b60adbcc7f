import Gondola.Proofs.Grammar.Binders
import Gondola.Proofs.Parser.ExprSound

/-! What is read as a statement, a block or a program derives from the grammar, stands where its tokens do, and
binds names that are read from tokens of their own. -/
namespace Gondola.Parser

open Grammar Stmt

theorem takes_bindingWithin (n : Nat) (p : Parser) : Takes p (bindingWithin n) fun _ ts ids b =>
    ids = [] ∧ IsBinding ts b.bare ∧ Carries ts [b.name] := by
  refine takes_ident fun q x hx => takes_consume rfl fun q₁ c hc => (takes_typeExpr n q₁).last ?_
  rintro q₂ ts _ type ⟨rfl, ht⟩
  exact ⟨_, rfl, rfl, .mk hx hc ht, (carries_name x).append_right _⟩

theorem takes_typeAfter {marks : List TokenKind} (hm : .eof ∉ marks) (n : Nat) (p : Parser) :
    Takes p (typeAfter marks n) fun _ ts ids t => ids = [] ∧ Annotation marks ts (t.map TypeExpr.bare) := by
  refine takes_takeAny hm (fun q m hk => ((takes_typeExpr n q).last ?_).toContinues) fun q => ?_
  · rintro q₁ ts _ type ⟨rfl, ht⟩
    exact ⟨_, rfl, rfl, .present hk ht⟩
  · exact takes_pure ⟨rfl, .absent⟩

section Lists

variable {α : Type} {item : Parse α} {G : List Token → α → Prop}
  (hi : ∀ p, Takes p item fun _ ts ids a => ids = [] ∧ G ts a)

include hi

theorem takes_unnumbered {close : TokenKind} (hc : isFiller close = true) (n : Nat) (p : Parser) :
    Takes p (listOf close item n) fun _ ts ids r => ids = [] ∧
      ∃ us, ts = us ++ [r.2] ∧ r.2.kind = close ∧ Sequence G us r.1 :=
  (takes_listOf hc hi n p).mono fun _ _ _ _ h => ⟨h.1.trans (by simp), h.2⟩

theorem takes_payloadOf (n : Nat) (p : Parser) :
    Takes p (payloadOf item n) fun _ ts ids as => ids = [] ∧ Payload G ts as := by
  refine takes_take (by simp) (fun q l hl => ((takes_unnumbered hi rfl n q).last ?_).toContinues) fun q => ?_
  · rintro q₁ _ _ ⟨items, stop⟩ ⟨rfl, us, rfl, hs, hitems⟩
    exact ⟨_, rfl, rfl, .present hl hitems hs⟩
  · exact takes_pure ⟨rfl, .absent⟩

end Lists

theorem takes_enumCaseWithin (n : Nat) (p : Parser) :
    Takes p (enumCaseWithin n) fun _ ts ids c => ids = [] ∧ IsEnumCase ts c.bare := by
  refine takes_ident fun q x hx => (takes_payloadOf (takes_typeExpr n) n q).last ?_
  rintro q₁ ts _ params ⟨rfl, hp⟩
  exact ⟨_, rfl, rfl, .mk hx (hp.map fun _ _ h => h)⟩

theorem takes_patternWithin (n : Nat) (p : Parser) : Takes p (patternWithin n) fun _ ts ids c =>
    ids = [] ∧ IsPattern ts c.bare ∧ Carries ts c.bindings := by
  have hname (p : Parser) : Takes p ident fun _ ts ids x => ids = [] ∧ IsName ts x.bare ∧ Carries ts [x] := by
    refine (takes_name p).mono ?_
    rintro q _ _ _ ⟨t, ht, rfl, rfl, rfl⟩
    exact ⟨rfl, .mk ht, carries_name t⟩
  refine takes_ident fun q x hx => (takes_payloadOf hname n q).last ?_
  rintro q₁ ts _ names ⟨rfl, hn⟩
  refine ⟨_, rfl, rfl, .mk hx (hn.map fun _ _ h => h.1), ?_⟩
  simpa using (hn.carries fun _ _ h => h.2).cons x

theorem takes_loopVars (p : Parser) :
    Takes p loopVars fun _ ts ids v => ids = [] ∧ IsLoopVars ts v.bare ∧ Carries ts v.names := by
  refine takes_ident fun q x hx => takes_take (by simp) (fun q₁ c hc => ?_) fun q₁ => ?_
  · refine Takes.toContinues (takes_ident fun q₂ y hy => takes_pure ⟨rfl, .indexed hx hc hy, ?_⟩)
    exact (carries_name x).append ((carries_name y).cons c)
  · exact takes_pure ⟨rfl, .item hx, carries_name x⟩

/-- The next token closes a block or the program. -/
def AtEnd (p : Parser) : Prop :=
  ∃ t, p.held = some t ∧ (t.kind = .mark .rbrace ∨ t.kind = .eof)

theorem atEnd_finished : AtEnd finished := ⟨_, rfl, .inr rfl⟩

/-- A semicolon, or nothing at the end of a block or the program. -/
abbrev Terminated : Taking Unit :=
  fun r ts ids _ => ids = [] ∧ ((∃ t : Token, t.kind = .mark .semicolon ∧ ts = [t]) ∨ AtEnd r ∧ ts = [])

theorem takes_terminator (p : Parser) : Takes p terminator Terminated := by
  have hmissing : Fillable (Found Terminated) := .done ⟨finished, [], (), rfl, .inr ⟨atEnd_finished, rfl⟩⟩
  refine ⟨continues_advance fun t q ht => ?_, hmissing⟩
  have back (hk : t.kind = .mark .rbrace ∨ t.kind = .eof) : Continues p q (pushBack t) Terminated := by
    rw [← bind_pure (pushBack t)]
    refine continues_pushBack ht fun r hh hr => .after hr (takes_pure ?_).toContinues
    exact ⟨rfl, .inr ⟨⟨t, hh, hk⟩, rfl⟩⟩
  split
  · rename_i hk
    exact .after (advance_reads ht (by simp [hk])) (takes_pure ⟨rfl, .inl ⟨t, hk, rfl⟩⟩).toContinues
  · rename_i hk
    exact back (.inl hk)
  · rename_i hk
    exact back (.inr hk)
  · exact continues_unexpected (past_of_advance ht) hmissing

/-- A statement with what ends it. Without a semicolon, the end of the block is next. -/
inductive Ended (p : Parser) : List Token → Stmt → Prop
  | compound {ts s} (h : IsCompound ts s) : Ended p ts s
  | simple {ts semi s} (h : IsSimple ts s) (hm : semi.kind = .mark .semicolon) :
      Ended p (ts ++ [semi]) s
  | last {ts s} (h : IsSimple ts s) (he : AtEnd p) : Ended p ts s

/-- A statement with what ends it, where it stands, and the names that it binds. -/
abbrev Stated : Taking Stmt :=
  fun r ts ids s => ids = s.ids ∧ Ended r ts s.bare ∧ Among ts s.Occupies ∧ Carries ts s.binders

theorem takes_ended {ts : List Token} {s : Stmt} (hg : IsSimple ts s.bare) (ho : s.Occupies ts)
    (hc : Carries ts s.binders) (p : Parser) :
    Takes p (do terminator; return s) fun r us ids s' => Stated r (ts ++ us) (s.ids ++ ids) s' := by
  refine (takes_terminator p).last ?_
  rintro r _ _ _ ⟨rfl, ⟨t, ht, rfl⟩ | ⟨he, rfl⟩⟩
  · exact ⟨_, rfl, by simp, .simple hg ht, (among_self ho).append_right _, hc.append_right _⟩
  · rw [List.append_nil, List.append_nil]
    exact ⟨_, rfl, rfl, .last hg he, among_self ho, hc⟩

/-- A statement and those after it, of which there are none behind one that ends its block. -/
theorem Ended.body {p : Parser} {ts us : List Token} {s : Stmt} {ss : Block} (h : Ended p ts s.bare)
    (hb : IsBody us (bareBlock ss)) (hl : AtEnd p → us = [] ∧ ss = []) :
    IsBody (ts ++ us) (bareBlock (s :: ss)) := by
  rw [bareBlock]
  generalize s.bare = s at h
  cases h with
  | compound hc => exact .compound hc hb
  | simple hc hm => simpa using IsBody.simple hc hm hb
  | last hc he =>
    obtain ⟨rfl, rfl⟩ := hl he
    simpa [bareBlock] using IsBody.last hc

/-- The statements of a block and the brace behind them, from `p` on. -/
abbrev Body (p : Parser) : Taking (Block × Span) :=
  fun _ ts ids r => ids = blockIds r.1 ∧ ∃ us stop, ts = us ++ [stop] ∧ stop.kind = .mark .rbrace ∧
    r.2 = stop.span ∧ IsBody us (bareBlock r.1) ∧ Holds us r.1 ∧ Carries us (blockBinders r.1) ∧
    (AtEnd p → us = [] ∧ r.1 = [])

/-- A block in its braces, and where it ends. -/
abbrev Braced (ts : List Token) (b : Block) (stop : Span) : Prop :=
  IsBlock ts (bareBlock b) ∧ EndsAt ts stop ∧ Holds ts b ∧ Carries ts (blockBinders b)

/-- The words in front of what follows a clause. -/
def Continuation.Words : Continuation → List Token → Prop
  | .clause, ts => IsElseIf ts
  | .final, ts => ∃ k, k.kind = .keyword .elseKw ∧ ts = [k]
  | .stop, ts => ts = []

/-- The clauses after one that ends at `stop`, and the last block. -/
abbrev Elses (stop : Span) : Taking (List Clause × Option Block × Span) :=
  fun _ ts ids r => ids = clauseIds r.1 ++ otherwiseIds r.2.1 ∧
    IsElse ts (bareClauses r.1) (bareOtherwise r.2.1) ∧ (∀ us, EndsAt us stop → EndsAt (us ++ ts) r.2.2) ∧
    (∀ c ∈ r.1, Among ts (c.cond.Occupies .or)) ∧ Holds ts (r.1.flatMap Clause.body ++ r.2.1.getD []) ∧
    Carries ts (clauseBinders r.1 ++ otherwiseBinders r.2.1)

/-- The arms of a match and the brace behind them. -/
abbrev Arms : Taking (List Arm × Option Block × Span) :=
  fun _ ts ids r => ids = armIds r.1 ++ otherwiseIds r.2.1 ∧ ∃ us stop, ts = us ++ [stop] ∧
    stop.kind = .mark .rbrace ∧ r.2.2 = stop.span ∧ IsArms us (bareArms r.1) (bareOtherwise r.2.1) ∧
    Holds us (r.1.flatMap Arm.body ++ r.2.1.getD []) ∧ Carries us (armBinders r.1 ++ otherwiseBinders r.2.1)

theorem takes_continuation (p : Parser) :
    Takes p continuation fun _ ts ids c => ids = [] ∧ Continuation.Words c ts := by
  refine takes_take (by simp) (fun q k hk => (takes_pure ⟨rfl, .one hk⟩).toContinues) fun q => ?_
  refine takes_take (by simp) (fun q₁ k hk => ?_) fun q₁ => takes_pure ⟨rfl, rfl⟩
  refine (takes_take (by simp) (fun q₂ i hi => ?_) fun q₂ => ?_).toContinues
  · exact (takes_pure ⟨rfl, .two hk hi⟩).toContinues
  · exact takes_pure ⟨rfl, k, hk, rfl⟩

section Blocks

variable {stmt : Parse Stmt} (hstmt : ∀ p, Takes p stmt Stated) {bound : Nat}

include hstmt

theorem takes_stmtsBy (n : Nat) (p : Parser) : Takes p (stmtsBy stmt n) (Body p) := by
  have hnil {p r : Parser} {t : Token} (ht : t.kind = .mark .rbrace) : Body p r [t] [] ([], t.span) :=
    ⟨rfl, [], t, rfl, ht, rfl, .nil, holds_nil [], carries_nil [], fun _ => ⟨rfl, rfl⟩⟩
  have hmissing (p : Parser) : Fillable (Found (Body p)) :=
    fillable_one (.mark .rbrace) rfl fun t ht => ⟨p, [], ([], t.span), hnil ht⟩
  induction n generalizing p with
  | zero => exact ⟨continues_endless, hmissing p⟩
  | succ n ih =>
    refine ⟨continues_advance fun t q ht => ?_, hmissing p⟩
    split
    · rename_i hk
      exact .after (advance_reads ht (by simp [hk])) (takes_pure (hnil hk)).toContinues
    · exact continues_unexpected (past_of_advance ht) (hmissing p)
    · rename_i hbrace hend
      have hopen : ¬ AtEnd p := by
        rintro ⟨u, hu, hk⟩
        obtain rfl := advance_of_held ht hu
        exact hk.elim hbrace hend
      refine continues_pushBack ht fun r _ hr => .after hr ((hstmt r).bind ?_).toContinues
      rintro q₁ us _ s ⟨rfl, hs, ho, hc⟩
      refine (ih q₁).last ?_
      rintro q₂ _ _ ⟨ss, sp⟩ ⟨rfl, vs, stop, rfl, hk, rfl, hbody, hholds, hnames, hlast⟩
      exact ⟨_, rfl, rfl, us ++ vs, stop, by simp, hk, rfl, hs.body hbody hlast, holds_cons ho hholds,
        hc.append hnames, fun h => absurd h hopen⟩

theorem takes_blockBy (p : Parser) :
    Takes p (blockBy stmt bound) fun _ ts ids r => ids = blockIds r.1 ∧ Braced ts r.1 r.2 := by
  refine takes_consume rfl fun q l hl => (takes_stmtsBy hstmt bound q).mono ?_
  rintro r _ _ ⟨b, sp⟩ ⟨rfl, us, stop, rfl, hk, rfl, hbody, hholds, hnames, -⟩
  exact ⟨rfl, .mk hl hbody hk, endsAt_concat (l :: us) stop, (hholds.cons l).append_right [stop],
    (hnames.cons l).append_right [stop]⟩

theorem takes_clauseBy (p : Parser) :
    Takes p (clauseBy stmt bound) fun _ ts ids r => ids = r.1.cond.ids ++ blockIds r.1.body ∧
      ∃ us vs, ts = us ++ vs ∧ r.1.cond.Occupies .or us ∧ Braced vs r.1.body r.2 := by
  refine (takes_exprWithin bound p).bind ?_
  rintro q us _ cond ⟨rfl, hcond⟩
  refine (takes_blockBy hstmt q).last ?_
  rintro q₁ vs _ ⟨body, stop⟩ ⟨rfl, hbody⟩
  exact ⟨_, rfl, rfl, us, vs, rfl, hcond, hbody⟩

theorem takes_clausesBy (n : Nat) (stop : Span) (p : Parser) :
    Takes p (clausesBy stmt bound n stop) (Elses stop) := by
  have hstop {stop : Span} {r : Parser} : Elses stop r [] [] ([], none, stop) :=
    ⟨rfl, .stop, fun us hus => by simpa using hus, List.forall_mem_nil _, holds_nil [], carries_nil []⟩
  induction n generalizing stop p with
  | zero => exact ⟨continues_endless, .done ⟨p, [], _, hstop⟩⟩
  | succ n ih =>
    refine ⟨(takes_continuation p).toContinues.bind ?_, .done ⟨p, [], _, hstop⟩⟩
    rintro q ks _ c ⟨rfl, hk⟩
    cases c with
    | clause =>
      refine (takes_clauseBy hstmt q).bind ?_
      rintro q₁ _ _ ⟨⟨cond, body⟩, last⟩ ⟨rfl, us, vs, rfl, hcond, hb, hend, hbody, hbound⟩
      refine (ih last q₁).last ?_
      rintro q₂ ws _ ⟨cs, o, _⟩ ⟨rfl, hcs, hlast, hconds, hstmts, hrest⟩
      refine ⟨_, rfl, by simp [clauseIds], ?_, ?_, ?_, ?_, ?_⟩
      · simpa [bareClauses] using IsElse.clause hk hcond.grammar hb hcs
      · intro xs _
        simpa using (hlast vs hend).append (xs ++ ks ++ us)
      · intro c hc
        rcases List.mem_cons.mp hc with rfl | hc
        · exact (((among_self hcond).append_right vs).append_right ws).append_left ks
        · exact ((hconds c hc).append_left _).append_left ks
      · rw [List.flatMap_cons, List.append_assoc body]
        exact (((hbody.append_left us).append_right ws).append (hstmts.append_left _)).append_left ks
      · simpa [clauseBinders] using ((hbound.append_left us).append hrest).append_left ks
    | final =>
      obtain ⟨k, hk, rfl⟩ := hk
      refine (takes_blockBy hstmt q).last ?_
      rintro q₁ us _ ⟨body, last⟩ ⟨rfl, hb, hend, hbody, hbound⟩
      exact ⟨_, rfl, rfl, .final hk hb, fun xs _ => (hend.append [k]).append xs, List.forall_mem_nil _, hbody.cons k,
        hbound.cons k⟩
    | stop =>
      obtain rfl := hk
      exact takes_pure hstop

theorem takes_armsBy (n : Nat) (p : Parser) : Takes p (armsBy stmt bound n) Arms := by
  have hnil {r : Parser} {t : Token} (ht : t.kind = .mark .rbrace) : Arms r [t] [] ([], none, t.span) :=
    ⟨rfl, [], t, rfl, ht, rfl, .nil, holds_nil [], carries_nil []⟩
  have hmissing : Fillable (Found Arms) :=
    fillable_one (.mark .rbrace) rfl fun t ht => ⟨p, [], ([], none, t.span), hnil ht⟩
  induction n generalizing p with
  | zero => exact ⟨continues_endless, hmissing⟩
  | succ n ih =>
    refine ⟨continues_advance fun t q ht => ?_, hmissing⟩
    split
    · rename_i hk
      exact .after (advance_reads ht (by simp [hk])) (takes_pure (hnil hk)).toContinues
    · rename_i hk
      refine .after (advance_reads ht (by simp [hk])) ((takes_patternWithin bound q).bind ?_).toContinues
      rintro q₁ ts _ pat ⟨rfl, hp, hnames⟩
      refine (takes_blockBy hstmt q₁).bind ?_
      rintro q₂ us _ ⟨body, _⟩ ⟨rfl, hb, -, hbody, hbound⟩
      refine (ih q₂).last ?_
      rintro q₃ _ _ ⟨as, o, _⟩ ⟨rfl, vs, stop, rfl, hs, rfl, harms, hstmts, hrest⟩
      refine ⟨_, rfl, by simp [armIds], t :: ts ++ us ++ vs, stop, by simp, hs, rfl, .case hk hp hb harms, ?_, ?_⟩
      · rw [List.flatMap_cons, List.append_assoc body]
        exact ((hbody.append_left _).append_right vs).append (hstmts.append_left _)
      · simpa [armBinders] using ((hnames.append hbound).append hrest).cons t
    · rename_i hk
      refine .after (advance_reads ht (by simp [hk])) ((takes_blockBy hstmt q).bind ?_).toContinues
      rintro q₁ us _ ⟨body, _⟩ ⟨rfl, hb, -, hbody, hbound⟩
      refine takes_consume rfl fun q₂ stop hs => takes_pure ?_
      exact ⟨by simp [armIds, otherwiseIds], t :: us, stop, rfl, hs, rfl, .default hk hb, hbody.cons t, hbound.cons t⟩
    · exact continues_unexpected (past_of_advance ht) hmissing

end Blocks

/-! Statements from their first token on, which is read already. -/
section FirstToken

variable {bound : Nat} {t : Token}

attribute [local simp] Stmt.ids Stmt.clauseIds

/-- A statement that ends by itself, behind its first token. -/
abbrev Compound (t : Token) : Taking Stmt :=
  fun _ ts ids s => ids = s.ids ∧ IsCompound (t :: ts) s.bare ∧ s.Occupies (t :: ts) ∧ Carries ts s.binders

theorem takes_structFrom (hk : t.kind = .keyword .structKw) (p : Parser) :
    Takes p (structFrom bound t) (Compound t) := by
  refine takes_ident fun q x hx => takes_consume rfl fun q₁ l hl =>
    (takes_unnumbered (takes_bindingWithin bound) rfl bound q₁).last ?_
  rintro q₂ _ _ ⟨fields, stop⟩ ⟨rfl, us, rfl, hs, hfields⟩
  have hg := IsCompound.struct hk hx hl (hfields.map fun _ _ h => h.1) hs
  exact ⟨_, rfl, rfl, hg, .compound hg rfl (endsAt_concat (x :: l :: us) stop) nofun nofun,
    (carries_name x).append_right _⟩

theorem takes_enumFrom (hk : t.kind = .keyword .enumKw) (p : Parser) :
    Takes p (enumFrom bound t) (Compound t) := by
  refine takes_ident fun q x hx => takes_consume rfl fun q₁ l hl =>
    (takes_unnumbered (takes_enumCaseWithin bound) rfl bound q₁).last ?_
  rintro q₂ _ _ ⟨cases, stop⟩ ⟨rfl, us, rfl, hs, hcases⟩
  have hg := IsCompound.enum hk hx hl (hcases.map fun _ _ h => h) hs
  exact ⟨_, rfl, rfl, hg, .compound hg rfl (endsAt_concat (x :: l :: us) stop) nofun nofun,
    (carries_name x).append_right _⟩

theorem takes_letFrom (hk : t.kind = .keyword .letKw) (p : Parser) :
    Takes p (letFrom bound t) fun r ts ids s => Stated r (t :: ts) ids s := by
  refine takes_ident fun q x hx => (takes_typeAfter (by simp) bound q).bind ?_
  rintro q₁ ts _ type ⟨rfl, htype⟩
  refine takes_consume rfl fun q₂ eq hq => (takes_exprWithin bound q₂).bind ?_
  rintro q₃ us _ e ⟨rfl, he⟩
  have hg := IsSimple.letVar hk hx htype hq he.grammar
  have hcovers : Covers (t :: x :: ts ++ eq :: us) (t.span.through e.span) := by
    simpa using Covers.through (x :: ts ++ [eq]) (.token t) he.covers
  have ho : (Stmt.letVar (t.span.through e.span) ⟨x.text, x.span⟩ type e).Occupies (t :: x :: ts ++ eq :: us) := by
    refine .simple hg rfl hcovers (by rintro _ _ ⟨⟩) (fun f hf => ?_) rfl
    obtain rfl := List.mem_singleton.mp hf
    exact ((among_self he).cons eq).append_left _
  refine (takes_ended hg ho (((carries_name x).append_right _).cons t) q₃).mono fun r vs js s h => ?_
  simpa using h

theorem takes_returnFrom (hk : t.kind = .keyword .returnKw) (p : Parser) :
    Continues p p (returnFrom bound t) fun r ts ids s => Stated r (t :: ts) ids s := by
  refine continues_advance fun next q hn => continues_pushBack hn fun r _ hr => .after hr ?_
  have hret : IsSimple [t] (Stmt.ret t.span none).bare := .ret hk
  have bare := takes_ended hret (.simple hret rfl (.token t) (by rintro _ _ ⟨⟩) nofun rfl) (carries_nil [t]) r
  split
  · exact bare.toContinues
  · exact bare.toContinues
  · exact bare.toContinues
  · refine ((takes_exprWithin bound r).bind ?_).toContinues
    rintro q₁ us _ e ⟨rfl, he⟩
    have hg := IsSimple.retValue hk he.grammar
    have ho : (Stmt.ret (t.span.through e.span) (some e)).Occupies (t :: us) := by
      refine .simple hg rfl (.through [] (.token t) he.covers) (by rintro _ _ ⟨⟩) (fun f hf => ?_) rfl
      obtain rfl := List.mem_singleton.mp hf
      exact (among_self he).cons t
    exact takes_ended hg ho (carries_nil _) q₁

theorem continues_simpleFrom {p q : Parser} (ht : Past p t q) : Continues p q (simpleFrom bound t) Stated := by
  refine (exprFrom_reader bound ht).bind ?_
  rintro r ts _ e ⟨rfl, -, he⟩
  refine takes_take (by simp) (fun q₁ q hq => ?_) fun q₁ => ?_
  · show Continues q₁ q₁ (if _ then _ else _) _
    split
    · rename_i hp
      refine ((takes_exprWithin bound q₁).bind ?_).toContinues
      rintro q₂ us _ v ⟨rfl, hv⟩
      have htarget : IsTarget e.bare := isTarget_iff.mpr (by rw [Expr.isPlace_bare]; exact hp)
      have hg := IsSimple.assign he.grammar htarget hq hv.grammar
      have hcovers : Covers (ts ++ q :: us) (e.span.through v.span) := by
        simpa using Covers.through [q] he.covers hv.covers
      have ho : (Stmt.assign (e.span.through v.span) e v).Occupies (ts ++ q :: us) := by
        refine .simple hg rfl hcovers (by rintro _ _ ⟨⟩) (fun f hf => ?_) rfl
        simp only [exprs, List.mem_cons, List.not_mem_nil, or_false] at hf
        rcases hf with rfl | rfl
        · exact (among_self he).append_right _
        · exact ((among_self hv).cons q).append_left _
      refine (takes_ended hg ho (carries_nil _) q₂).mono fun r vs js s h => ?_
      simpa using h
    · exact continues_fail (by simp)
  · have hg := IsSimple.expr he.grammar
    refine takes_ended hg (.simple hg rfl he.covers (by rintro _ _ ⟨⟩; rfl) (fun f hf => ?_) rfl) (carries_nil ts) q₁
    obtain rfl := List.mem_singleton.mp hf
    exact among_self he

theorem fillable_stmt : Fillable (Found Stated) := by
  refine (fillable_operand .lowest).mono ?_
  rintro us ⟨r, _, e, rfl, -, he⟩
  have hg := IsSimple.expr he.grammar
  refine ⟨finished, _, .expr e.span e, rfl, .last hg atEnd_finished, among_self ?_, carries_nil us⟩
  refine .simple hg rfl he.covers (by rintro _ _ ⟨⟩; rfl) (fun f hf => ?_) rfl
  obtain rfl := List.mem_singleton.mp hf
  exact among_self he

variable {stmt : Parse Stmt} (hstmt : ∀ p, Takes p stmt Stated)

include hstmt

theorem takes_ifFrom (hk : t.kind = .keyword .ifKw) (p : Parser) : Takes p (ifFrom stmt bound t) (Compound t) := by
  refine (takes_clauseBy hstmt p).bind ?_
  rintro q _ _ ⟨⟨cond, body⟩, stop⟩ ⟨rfl, us, vs, rfl, hcond, hb, hend, hbody, hbound⟩
  refine (takes_clausesBy hstmt bound stop q).last ?_
  rintro q₁ ws _ ⟨cs, o, last⟩ ⟨rfl, hcs, hlast, hconds, hstmts, hrest⟩
  have hg := IsCompound.ifElse hk hcond.grammar hb hcs
  have hstop : EndsAt (us ++ vs ++ ws) last := by
    simpa using (hlast vs hend).append us
  refine ⟨_, rfl, by simp, hg, .compound hg rfl hstop (fun f hf => ?_) ?_, ?_⟩
  · obtain ⟨c, hc, rfl⟩ := List.mem_map.mp hf
    rcases List.mem_cons.mp hc with rfl | hc
    · exact ((among_self hcond).append_right vs).append_right ws
    · exact (hconds c hc).append_left _
  · rw [children, List.flatMap_cons, List.append_assoc body]
    exact ((hbody.append_left us).append_right ws).append (hstmts.append_left _)
  · simpa [binders, clauseBinders] using (hbound.append_left us).append hrest

theorem takes_whileFrom (hk : t.kind = .keyword .whileKw) (p : Parser) :
    Takes p (whileFrom stmt bound t) (Compound t) := by
  refine (takes_exprWithin bound p).bind ?_
  rintro q ts _ cond ⟨rfl, hcond⟩
  refine (takes_blockBy hstmt q).last ?_
  rintro q₁ us _ ⟨body, stop⟩ ⟨rfl, hb, hend, hbody, hbound⟩
  have hg := IsCompound.whileLoop hk hcond.grammar hb
  refine ⟨_, rfl, rfl, hg, .compound hg rfl (hend.append ts) (fun f hf => ?_) (hbody.append_left ts),
    hbound.append_left ts⟩
  obtain rfl := List.mem_singleton.mp hf
  exact (among_self hcond).append_right us

theorem takes_forFrom (hk : t.kind = .keyword .forKw) (p : Parser) :
    Takes p (forFrom stmt bound t) (Compound t) := by
  refine (takes_loopVars p).bind ?_
  rintro q xs _ vars ⟨rfl, hvars, hnames⟩
  refine takes_consume rfl fun q₁ i hi => (takes_exprWithin bound q₁).bind ?_
  rintro q₂ ts _ e ⟨rfl, he⟩
  refine (takes_blockBy hstmt q₂).last ?_
  rintro q₃ us _ ⟨body, stop⟩ ⟨rfl, hb, hend, hbody, hbound⟩
  have hg := IsCompound.forEach hk hvars hi he.grammar hb
  rw [List.append_assoc] at hg
  refine ⟨_, rfl, rfl, hg, .compound hg rfl ((hend.append (i :: ts)).append xs) (fun f hf => ?_)
    ((hbody.append_left (i :: ts)).append_left xs), hnames.append (hbound.append_left (i :: ts))⟩
  obtain rfl := List.mem_singleton.mp hf
  exact (((among_self he).cons i).append_right us).append_left xs

theorem takes_matchFrom (hk : t.kind = .keyword .matchKw) (p : Parser) :
    Takes p (matchFrom stmt bound t) (Compound t) := by
  refine (takes_exprWithin bound p).bind ?_
  rintro q ts _ e ⟨rfl, he⟩
  refine takes_consume rfl fun q₁ l hl => (takes_armsBy hstmt bound q₁).last ?_
  rintro q₂ _ _ ⟨arms, o, _⟩ ⟨rfl, us, r, rfl, hr, rfl, harms, hstmts, hnames⟩
  have hg := IsCompound.matchOn hk he.grammar hl harms hr
  rw [List.append_assoc] at hg
  refine ⟨_, rfl, by simp, hg, .compound hg rfl ((endsAt_concat (l :: us) r).append ts) (fun f hf => ?_) ?_, ?_⟩
  · obtain rfl := List.mem_singleton.mp hf
    exact (among_self he).append_right _
  · exact ((hstmts.cons l).append_right [r]).append_left ts
  · exact ((hnames.cons l).append_right [r]).append_left ts

theorem takes_stmtBy (bound : Nat) (p : Parser) : Takes p (stmtBy stmt bound) Stated := by
  refine ⟨continues_advance fun t q ht => ?_, fillable_stmt⟩
  have first {m : Parse Stmt} (hk : t.kind ≠ .eof) (hm : Continues q q m fun r ts ids s => Stated r (t :: ts) ids s) :
      Continues p q m Stated := .after (advance_reads ht hk) hm
  have compound {m : Parse Stmt} (hk : t.kind ≠ .eof) (hm : Takes q m (Compound t)) : Continues p q m Stated :=
    first hk (hm.mono fun _ _ _ _ h => ⟨h.1, .compound h.2.1, among_self h.2.2.1, h.2.2.2.cons t⟩).toContinues
  split
  case h_1 hk => exact first (by simp [hk]) (takes_letFrom hk q).toContinues
  case h_2 hk => exact first (by simp [hk]) (takes_returnFrom hk q)
  case h_3 hk => exact compound (by simp [hk]) (takes_ifFrom hstmt hk q)
  case h_4 hk => exact compound (by simp [hk]) (takes_whileFrom hstmt hk q)
  case h_5 hk => exact compound (by simp [hk]) (takes_forFrom hstmt hk q)
  case h_6 hk => exact compound (by simp [hk]) (takes_matchFrom hstmt hk q)
  case h_7 hk => exact compound (by simp [hk]) (takes_structFrom hk q)
  case h_8 hk => exact compound (by simp [hk]) (takes_enumFrom hk q)
  case h_9 => exact continues_fail (by simp)
  case h_10 => exact continues_simpleFrom (past_of_advance ht)

end FirstToken

theorem takes_stmtWithin (n : Nat) (p : Parser) : Takes p (stmtWithin n) Stated := by
  induction n generalizing p with
  | zero => exact ⟨continues_endless, fillable_stmt⟩
  | succ n ih => exact takes_stmtBy ih n p

/-- An item with what ends it: items can follow, unless it is a statement that ends the program. -/
abbrev Fronted : Taking Item :=
  fun r ts ids i => ids = i.ids ∧ (∀ {us is}, IsItems us (is.map Item.bare) → (AtEnd r → us = [] ∧ is = []) →
    IsItems (ts ++ us) ((i :: is).map Item.bare)) ∧ Among ts i.Occupies ∧ Carries ts i.binders

theorem takes_functionFrom {bound : Nat} {t : Token} (hk : t.kind = .keyword .fnKw) (p : Parser) :
    Takes p (functionFrom bound t) fun r ts ids i => Fronted r (t :: ts) ids i := by
  refine takes_ident fun q x hx => takes_consume rfl fun q₁ l hl =>
    (takes_unnumbered (takes_bindingWithin bound) rfl bound q₁).bind ?_
  rintro q₂ _ _ ⟨params, r⟩ ⟨rfl, ts, rfl, hr, hparams⟩
  refine (takes_typeAfter (by simp) bound q₂).bind ?_
  rintro q₃ us _ result ⟨rfl, hresult⟩
  refine (takes_blockBy (takes_stmtWithin bound) q₃).last ?_
  rintro q₄ vs _ ⟨body, stop⟩ ⟨rfl, hb, hend, hbody, hbound⟩
  have hg := IsFunction.mk hk hx hl (hparams.map fun _ _ h => h.1) hr hresult hb
  simp only [List.append_assoc, List.cons_append, List.nil_append] at hg ⊢
  refine ⟨_, rfl, rfl, fun hi _ => .function hg hi, among_self ⟨hg, ?_, ?_⟩, ?_⟩
  · simpa using (hend.append (x :: l :: ts ++ r :: us)).covers t
  · simpa using hbody.append_left (t :: x :: l :: ts ++ r :: us)
  · have hnames := hparams.carries fun _ _ h => h.2
    simpa [Item.binders, FunctionDecl.binders, List.map_eq_flatMap] using
      ((carries_name x).append ((hnames.append (hbound.append_left (r :: us))).cons l)).cons t

/-- The same as `Continues` for a read that goes on to the end of the text. -/
structure Finishes {α : Type} (p q : Parser) (m : Parse α) (T : List Token → List Nat → α → Prop) : Prop where
  taken : ∀ {a r}, m q = .ok a r → ∃ ts stop ids, stop.kind = .eof ∧ p.pending = .ok (ts ++ [stop]) ∧
    ids = List.range' p.nextId ids.length ∧ T ts ids a
  starved : Starved (m q) → Open (fun ts => ∃ ids a, T ts ids a) p

section Finishes

variable {α β : Type} {p q : Parser} {m : Parse α} {f : α → Parse β} {G : Taking α}
  {T : List Token → List Nat → α → Prop} {F : List Token → List Nat → β → Prop}

theorem finishes_advance {g : Token → Parse α} (h : ∀ t r, advance q = .ok t r → Finishes p r (g t) T) :
    Finishes p q (advance >>= g) T where
  taken ha := by
    obtain ⟨t, r, ht, ha⟩ := bind_eq_ok.mp ha
    exact (h t r ht).taken ha
  starved ha := by
    obtain ⟨t, r, ht, ha⟩ := (starved_bind ha).resolve_left not_starved_advance
    exact (h t r ht).starved ha

theorem Finishes.last (h : Finishes p q m T) (hf : ∀ ts ids a, T ts ids a → ∃ b, f a = pure b ∧ F ts ids b) :
    Finishes p q (m >>= f) F where
  taken hb := by
    obtain ⟨a, r, ha, hb⟩ := bind_eq_ok.mp hb
    obtain ⟨ts, stop, ids, hs, hp, hids, ht⟩ := h.taken ha
    obtain ⟨c, hc, hF⟩ := hf ts ids a ht
    rw [hc] at hb
    obtain ⟨rfl, -⟩ := pure_eq_ok.mp hb
    exact ⟨ts, stop, ids, hs, hp, hids, hF⟩
  starved hb := by
    rcases starved_bind hb with hb | ⟨a, r, ha, hb⟩
    · refine (h.starved hb).mono ?_
      rintro ts ⟨ids, a, ht⟩
      obtain ⟨c, -, hF⟩ := hf ts ids a ht
      exact ⟨ids, c, hF⟩
    · obtain ⟨ts, stop, ids, -, -, -, ht⟩ := h.taken ha
      obtain ⟨c, hc, -⟩ := hf ts ids a ht
      rw [hc] at hb
      exact absurd hb not_starved_pure

theorem Continues.finish (h : Continues p q m G)
    (hf : ∀ r us is a, G r us is a → Finishes r r (f a) (fun vs js b => F (us ++ vs) (is ++ js) b) ∧
      ∃ js b, F us (is ++ js) b) : Finishes p q (m >>= f) F where
  taken hb := by
    obtain ⟨a, r, ha, hb⟩ := bind_eq_ok.mp hb
    obtain ⟨us, is, hr, hg⟩ := h.taken ha
    obtain ⟨vs, stop, js, hs, hp, hids, ht⟩ := (hf r us is a hg).1.taken hb
    refine ⟨us ++ vs, stop, is ++ js, hs, ?_, ?_, ht⟩
    · rw [hr.pending, hp, List.append_assoc]
      rfl
    · rw [hr.nextId] at hids
      rw [List.length_append, ← List.range'_append_1, ← hr.ids, ← hids]
  starved hb := by
    rcases starved_bind hb with hb | ⟨a, r, ha, hb⟩
    · refine (h.starved hb).mono ?_
      rintro us ⟨r, is, a, hg⟩
      obtain ⟨js, b, ht⟩ := (hf r us is a hg).2
      exact ⟨_, b, ht⟩
    · obtain ⟨us, is, hr, hg⟩ := h.taken ha
      exact ((hf r us is a hg).1.starved hb).after hr fun _ ⟨_, b, ht⟩ => ⟨_, b, ht⟩

end Finishes

/-- The items of a program from `p` on. -/
abbrev Items (p : Parser) (ts : List Token) (ids : List Nat) (is : List Item) : Prop :=
  ids = is.flatMap Item.ids ∧ IsItems ts (is.map Item.bare) ∧ (∀ i ∈ is, Among ts i.Occupies) ∧
    Carries ts (is.flatMap Item.binders) ∧ (AtEnd p → ts = [] ∧ is = [])

theorem Stated.fronted {r : Parser} {ts : List Token} {ids : List Nat} {s : Stmt} (h : Stated r ts ids s) :
    Fronted r ts ids (.stmt s) := by
  obtain ⟨rfl, he, ho, hc⟩ := h
  refine ⟨rfl, fun {us is} hi hl => ?_, ho, hc⟩
  rw [List.map_cons, Item.bare]
  generalize s.bare = s at he
  cases he with
  | compound hs => exact .compound hs hi
  | simple hs hm => simpa using IsItems.simple hs hm hi
  | last hs he =>
    obtain ⟨rfl, rfl⟩ := hl he
    simpa using IsItems.last hs

theorem continues_closed {bound : Nat} {p : Parser} {t : Token} (ht : p.held = some t) (hk : t.kind = .mark .rbrace) :
    Continues p p (stmtWithin bound) fun _ _ _ _ => False := by
  cases bound with
  | zero => exact continues_endless
  | succ n =>
    refine continues_advance fun u q hu => ?_
    obtain rfl := advance_of_held hu ht
    simp only [hk]
    refine .bind (G := fun _ _ _ _ => False) (fun _ _ _ _ h => h.elim) ?_
    cases n with
    | zero => exact continues_endless
    | succ n =>
      refine .bind (G := fun _ _ _ _ => False) (fun _ _ _ _ h => h.elim) ?_
      unfold primary unexpected
      simp only [hk]
      exact continues_fail (by simp)

theorem finishes_itemsWithin (bound n : Nat) (p : Parser) :
    Finishes p p (itemsWithin bound n) (Items p) := by
  induction n generalizing p with
  | zero => exact ⟨fun h => absurd h throw_ne_ok, by rintro ⟨_, _, _, h⟩; cases h⟩
  | succ n ih =>
    refine finishes_advance fun t q ht => ?_
    -- An item, and the items after it.
    have rest {α : Type} {m : Parse α} (view : α → Item) (hopen : ¬ AtEnd p)
        (hm : Continues p q m fun r ts ids a => Fronted r ts ids (view a)) :
        Finishes p q (do let a ← m; return view a :: (← itemsWithin bound n)) (Items p) := by
      refine hm.finish ?_
      rintro r us _ a ⟨rfl, hi, ho, hc⟩
      constructor
      · refine (ih r).last ?_
        rintro vs _ is ⟨rfl, his, hos, hnames, hlast⟩
        refine ⟨_, rfl, rfl, hi his hlast, fun j hj => ?_, hc.append hnames, fun h => absurd h hopen⟩
        rcases List.mem_cons.mp hj with rfl | hj
        · exact ho.append_right vs
        · exact (hos j hj).append_left us
      · refine ⟨[], [view a], by simp, ?_, fun j hj => ?_, by simpa using hc, fun h => absurd h hopen⟩
        · simpa using hi .nil fun _ => ⟨rfl, rfl⟩
        · obtain rfl := List.mem_singleton.mp hj
          exact ho
    split
    · rename_i hk
      refine ⟨fun h => ?_, fun h => absurd h not_starved_pure⟩
      obtain ⟨rfl, -⟩ := pure_eq_ok.mp h
      refine ⟨[], t, [], hk, ?_, rfl, rfl, .nil, nofun, carries_nil [], fun _ => ⟨rfl, rfl⟩⟩
      rw [(advance_ok ht).2.2, preceded, if_pos hk]
      rfl
    · rename_i hk
      have hopen : ¬ AtEnd p := by
        rintro ⟨u, hu, hend⟩
        obtain rfl := advance_of_held ht hu
        simp [hk] at hend
      refine rest id hopen (.after (advance_reads ht (by simp [hk])) ?_)
      exact (takes_functionFrom hk q).toContinues
    · rename_i hend _
      rw [← bind_assoc]
      by_cases hclosed : AtEnd p
      · obtain ⟨u, hu, hk⟩ := hclosed
        obtain rfl := advance_of_held ht hu
        refine Continues.finish (G := fun _ _ _ _ => False) ?_ fun _ _ _ _ h => h.elim
        exact continues_pushBack ht fun r hh hr => .after hr (continues_closed hh (hk.resolve_right hend))
      · refine rest Item.stmt hclosed (continues_pushBack ht fun r _ hr => .after hr ?_)
        exact ((takes_stmtWithin bound r).mono fun _ _ _ _ h => h.fronted).toContinues

theorem itemsWithin_ok {bound : Nat} (n : Nat) {p p' : Parser} {is : List Item}
    (h : itemsWithin bound n p = .ok is p') :
    ∃ ts stop, stop.kind = .eof ∧ p.pending = .ok (ts ++ [stop]) ∧ IsItems ts (is.map Item.bare) ∧
      (∀ i ∈ is, Among ts i.Occupies) ∧ Carries ts (is.flatMap Item.binders) ∧
      is.flatMap Item.ids = List.range' p.nextId (is.flatMap Item.ids).length := by
  obtain ⟨ts, stop, _, hs, hp, hids, rfl, hi, ho, hc, -⟩ := (finishes_itemsWithin bound n p).taken h
  exact ⟨ts, stop, hs, hp, hi, ho, hc, hids⟩

end Gondola.Parser
