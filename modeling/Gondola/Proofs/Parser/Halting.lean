import Gondola.Proofs.Parser.Pending
import Gondola.Proofs.Token.Words

/-! Reading ends and gets on. A step whose bound exceeds the tokens that are left succeeds or rejects the source, and
leaves no more tokens than there were. -/
namespace Gondola

namespace Parser

variable {α β : Type}

/-- What a token counts for. The end of input can be read again and counts for nothing. -/
def weight (t : Token) : Nat := if t.kind = .eof then 0 else 1

def left (p : Parser) : Nat := p.scanner.left + (p.held.map weight).getD 0

/-- Nothing is left behind an end of input that was put back. -/
def Settled (p : Parser) : Prop := ∀ t, p.held = some t → t.kind = .eof → p.scanner.left = 0

/-- The parser is one that had `n` tokens left and took at least `d` of them. -/
def Consumed (n d : Nat) (p : Parser) : Prop := p.Settled ∧ p.left + d ≤ n

/-- The outcome is not at fault. Where `n` tokens were left, a success takes at least `d` of them, and a failure takes
them as well unless there are less. -/
def Sane (n d : Nat) : EStateM.Result (Failure SyntaxError) Parser α → Prop
  | .ok _ p => Consumed n d p
  | .error (.rejected _) p => Consumed n (min d n) p
  | .error (.internal _) _ => False

theorem Sane.mono {n n' d d' : Nat} {r : EStateM.Result (Failure SyntaxError) Parser α} (h : Sane n d r)
    (hd : n + d' ≤ n' + d) : Sane n' d' r := by
  cases r with
  | ok _ p => exact ⟨h.1, by have := h.2; omega⟩
  | error e p =>
    cases e with
    | rejected _ => exact ⟨h.1, by have := h.2; omega⟩
    | internal _ => exact h

/-- Where at most `k` tokens are left, the step is not at fault and takes at least `d`. -/
def Halts (k d : Nat) (m : Parse α) : Prop := ∀ p : Parser, p.Settled → p.left ≤ k → Sane p.left d (m p)

/-- The same of a step that comes right after `t` was taken, counting from before it. -/
def HaltsAfter (t : Token) (k d : Nat) (m : Parse α) : Prop :=
  ∀ p : Parser, p.held = none → (t.kind = .eof → p.left = 0) → p.left + weight t ≤ k →
    Sane (p.left + weight t) d (m p)

section Rules

variable {k d e : Nat} {m : Parse α} {f : α → Parse β} {g : Token → Parse α} {t : Token}

theorem settled_of_held {p : Parser} (h : p.held = none) : p.Settled := by
  intro t ht
  rw [h] at ht
  cases ht

theorem left_of_held {p : Parser} (h : p.held = none) : p.left = p.scanner.left := by
  rw [left, h]
  rfl

theorem Halts.mono {j : Nat} (h : Halts k d m) (hj : j ≤ k) (he : e ≤ d) : Halts j e m :=
  fun p hs hp => (h p hs (Nat.le_trans hp hj)).mono (Nat.add_le_add_left he _)

theorem Sane.bind {n : Nat} {p : Parser} (h : Sane n d (m p))
    (hf : ∀ a q, q.Settled → q.left + d ≤ n → Sane q.left 0 (f a q)) : Sane n d ((m >>= f) p) := by
  show Sane n d (EStateM.bind m f p)
  unfold EStateM.bind
  generalize m p = r at h
  cases r with
  | ok a q => exact (hf a q h.1 h.2).mono h.2
  | error x q =>
    cases x with
    | rejected x => exact h
    | internal x => exact h

theorem Halts.bind (h : Halts k d m) (hf : ∀ a j, j + d ≤ k → Halts j 0 (f a)) : Halts k d (m >>= f) := by
  intro p hs hp
  exact (h p hs hp).bind fun a q hs' hq => hf a q.left (by omega) q hs' (Nat.le_refl _)

theorem Halts.andThen (h : Halts k d m) (hf : ∀ a, Halts k 0 (f a)) : Halts k 0 (m >>= f) :=
  (h.mono (Nat.le_refl k) (Nat.zero_le d)).bind fun a _ hj => (hf a).mono hj (Nat.le_refl 0)

theorem Halts.taken (h : Halts k 1 m) (hf : ∀ a, ∀ j < k, Halts j 0 (f a)) : Halts k 1 (m >>= f) := h.bind hf

theorem halts_pure (a : α) : Halts k 0 (pure a : Parse α) := fun _ hs _ => ⟨hs, Nat.le_refl _⟩

theorem Halts.ret (h : Halts k d m) (g : α → β) : Halts k 0 (m >>= fun a => pure (g a)) :=
  h.andThen fun a => halts_pure (g a)

theorem Halts.weaken (h : Halts k d m) : Halts k 0 m := h.mono (Nat.le_refl k) (Nat.zero_le d)

/-- A step that fails at once leaves the parser as it is. -/
def Refuses (m : Parse α) : Prop := ∀ p, ∃ e, m p = .error (.rejected e) p

theorem refuses_fail (span : Span) (x : SyntaxError) : Refuses (fail span x : Parse α) := fun _ => ⟨_, rfl⟩

theorem refuses_unexpected (x : Expected) : Refuses (unexpected t x : Parse α) := by
  unfold unexpected
  split
  · exact refuses_fail _ _
  · exact refuses_fail _ _

theorem Refuses.halts (h : Refuses m) : Halts k 0 m := by
  intro p hs _
  obtain ⟨e, he⟩ := h p
  rw [he]
  exact ⟨hs, by rw [Nat.zero_min]; exact Nat.le_refl _⟩

theorem Refuses.after (h : Refuses m) (hd : d ≤ 1) : HaltsAfter t k d m := by
  intro p hh hend _
  obtain ⟨e, he⟩ := h p
  rw [he]
  refine ⟨settled_of_held hh, ?_⟩
  unfold weight
  split
  · have := hend ‹_›
    omega
  · omega

theorem halts_node (span : Span) : Halts k 0 (node span) := fun _ hs _ => ⟨hs, Nat.le_refl _⟩

/-- Taking a token leaves one less, unless it is the end of input, behind which nothing is left. -/
theorem sane_advance {p : Parser} (hs : p.Settled)
    (hg : ∀ t q, q.held = none → (t.kind = .eof → q.left = 0) → q.left + weight t = p.left → Sane p.left d (g t q)) :
    Sane p.left d ((advance >>= g) p) := by
  show Sane _ _ (EStateM.bind advance g p)
  unfold EStateM.bind advance
  cases hh : p.held with
  | some t => exact hg t { p with held := none } rfl (fun ht => hs t hh ht) (by simp [left, hh])
  | none =>
    have hleft : p.left = p.scanner.left := left_of_held hh
    rcases hn : p.scanner.next with ⟨x | t, s⟩
    · obtain ⟨hone, hnone⟩ := Scanner.left_of_error hn
      refine ⟨settled_of_held rfl, ?_⟩
      rw [left_of_held rfl, hnone]
      omega
    · refine hg t { p with scanner := s, held := none } rfl (fun ht => ?_) ?_
      · exact (Scanner.left_of_eof hn ht).2
      · rw [left_of_held rfl, hleft, weight]
        split
        · rename_i ht
          obtain ⟨hbefore, hafter⟩ := Scanner.left_of_eof hn ht
          rw [hbefore, hafter]
        · rename_i ht
          exact (Scanner.left_of_token hn ht).symm

theorem halts_advance (hg : ∀ t, HaltsAfter t k d (g t)) : Halts k d (advance >>= g) := by
  intro p hs hp
  refine sane_advance hs fun t q hh hend hleft => ?_
  rw [← hleft]
  exact hg t q hh hend (by omega)

theorem HaltsAfter.taken (ht : t.kind ≠ .eof) (h : ∀ j < k, Halts j 0 m) : HaltsAfter t k 1 m := by
  have hw : weight t = 1 := if_neg ht
  intro p hh _ hp
  rw [hw] at hp ⊢
  exact (h p.left hp p (settled_of_held hh) (Nat.le_refl _)).mono (Nat.le_refl _)

theorem HaltsAfter.weaken (h : HaltsAfter t k d m) : HaltsAfter t k 0 m :=
  fun p hh hend hp => (h p hh hend hp).mono (by omega)

theorem HaltsAfter.bind (h : HaltsAfter t k d m) (hf : ∀ a, Halts k 0 (f a)) : HaltsAfter t k d (m >>= f) := by
  intro p hh hend hp
  exact (h p hh hend hp).bind fun a q hs hq => (hf a q hs (by omega))

theorem HaltsAfter.any (h : Halts k 0 m) : HaltsAfter t k 0 m := fun p hh _ hp =>
  (h p (settled_of_held hh) (by omega)).mono (by omega)

theorem HaltsAfter.putBack {f : Unit → Parse β} (h : Halts k d (f ())) :
    HaltsAfter t k d (pushBack t >>= f) := by
  intro p hh hend hp
  have hleft : left { p with held := some t } = p.left + weight t := by simp [left, hh]
  rw [bind_of_ok (pushBack_of_held hh t), ← hleft]
  refine h _ ?_ (hleft ▸ hp)
  rintro _ ⟨⟩ ht
  exact (left_of_held hh).symm.trans (hend ht)

theorem haltsAfter_pushBack : HaltsAfter t k 0 (pushBack t) := by
  have h : HaltsAfter t k 0 (pushBack t >>= fun u => pure u) := .putBack (halts_pure ())
  rwa [bind_pure] at h

theorem halts_takeAny (kinds : List TokenKind) : Halts k 0 (takeAny kinds) := by
  refine halts_advance fun t => ?_
  split
  · exact .any (halts_pure _)
  · exact .putBack (halts_pure none)

theorem halts_take {kind : TokenKind} (hk : kind ≠ .eof) {f : Option Token → Parse β}
    (hsome : ∀ t, ∀ j < k, Halts j 0 (f (some t))) (hnone : Halts k 0 (f none)) :
    Halts k 0 (take kind >>= f) := by
  unfold take takeAny
  rw [bind_assoc]
  refine halts_advance fun t => ?_
  split
  · rename_i ht
    rw [pure_bind]
    exact HaltsAfter.weaken (.taken (List.mem_singleton.mp ht ▸ hk) fun j hj => hsome t j hj)
  · rw [bind_assoc]
    refine .putBack ?_
    rw [pure_bind]
    exact hnone

theorem halts_consume {kind : TokenKind} (hk : kind ≠ .eof) : Halts k 1 (consume kind) := by
  refine halts_advance fun t => ?_
  split
  · rename_i ht
    exact .taken (ht ▸ hk) fun j _ => halts_pure t
  · exact (refuses_unexpected _).after (Nat.le_refl 1)

theorem halts_ident : Halts k 1 ident := (halts_consume (by simp)).taken fun _ _ _ => halts_pure _

theorem halts_listOf {close : TokenKind} {item : Parse α} {n : Nat} (hitem : Halts k 0 item)
    (hk : k < n) : Halts k 0 (listOf close item n) := by
  induction n generalizing k with
  | zero => omega
  | succ n ih =>
    refine (halts_takeAny [close]).andThen fun found => ?_
    cases found with
    | some t => exact halts_pure _
    | none =>
      refine hitem.andThen fun a => (halts_takeAny [close]).andThen fun found => ?_
      cases found with
      | some t => exact halts_pure _
      | none =>
        refine Halts.weaken ((halts_consume (by simp)).taken fun _ j hj => ?_)
        exact (ih (hitem.mono (Nat.le_of_lt hj) (Nat.le_refl 0)) (by omega)).ret _

end Rules

section Exprs

variable {k n bound : Nat} {read : ExprReader} {t : Token} {lhs : Expr} {min level : Precedence}

theorem halts_typeArgs {type : Parse TypeExpr} (htype : Halts k 0 type) (hk : k < n) :
    Halts k 0 (typeArgs type n) := by
  induction n generalizing k with
  | zero => omega
  | succ n ih =>
    refine htype.andThen fun t => (halts_takeAny [.mark .greater]).andThen fun found => ?_
    cases found with
    | some stop => exact halts_pure _
    | none =>
      refine Halts.weaken ((halts_consume (by simp)).taken fun _ j hj => ?_)
      have hrest := ih (htype.mono (Nat.le_of_lt hj) (Nat.le_refl 0)) (by omega)
      exact hrest.ret _

theorem halts_typeExpr (hk : k < n) : Halts k 1 (typeExpr n) := by
  induction n generalizing k with
  | zero => omega
  | succ n ih =>
    refine halts_ident.taken fun name j hj => (halts_takeAny [.mark .less]).andThen fun found => ?_
    cases found with
    | none => exact halts_pure _
    | some _ =>
      have hargs : Halts j 0 (typeExpr n) := (ih (by omega)).weaken
      exact (halts_typeArgs hargs (by omega)).ret _

/-- Reading from a given token on halts where at most `k` tokens were left before it. The end of input starts no
expression. -/
structure ReadsWithin (k : Nat) (read : ExprReader) : Prop where
  token : ∀ t min, t.kind ≠ .eof → ∀ j < k, Halts j 0 (read t min)
  ending : ∀ t min p, t.kind = .eof → read t min p = .error (.rejected ⟨t.span, .prematureEnd .expression⟩) p

theorem ReadsWithin.mono {j : Nat} (h : ReadsWithin k read) (hj : j ≤ k) : ReadsWithin j read :=
  ⟨fun t min ht i hi => h.token t min ht i (Nat.lt_of_lt_of_le hi hj), h.ending⟩

theorem ReadsWithin.after (h : ReadsWithin k read) (t : Token) : HaltsAfter t k 1 (read t min) := by
  by_cases ht : t.kind = .eof
  · exact Refuses.after (fun p => ⟨_, h.ending t min p ht⟩) (Nat.le_refl 1)
  · exact .taken ht (h.token t min ht)

theorem halts_exprBy (hread : ReadsWithin k read) : Halts k 1 (exprBy read min) := halts_advance hread.after

theorem halts_entryBy (hread : ReadsWithin k read) : Halts k 0 (entryBy read) :=
  (halts_exprBy hread).andThen fun _ => (halts_consume (by simp)).andThen fun _ =>
    (halts_exprBy hread).ret _

theorem halts_argumentBy (hread : ReadsWithin k read) : Halts k 0 (argumentBy read) := by
  refine halts_advance fun first => ?_
  split
  · rename_i hname
    refine HaltsAfter.weaken (.taken (by simp [hname]) fun j hj => halts_advance fun next => ?_)
    split
    · exact .any ((halts_exprBy (hread.mono (Nat.le_of_lt hj))).ret _)
    · -- The name is the start of the value, and the token after it waits.
      exact .putBack ((hread.token first .lowest (by simp [hname]) j hj).ret _)
  · exact HaltsAfter.weaken ((hread.after first).bind fun _ => halts_pure _)

theorem halts_unaryBy (hread : ReadsWithin k read) (op : UnaryOp) : Halts k 0 (unaryBy read op t) :=
  (halts_exprBy hread).andThen fun _ => (halts_node _).ret _

theorem halts_primary (hread : ReadsWithin k read) (hb : k < bound) :
    Halts k 0 (primary read bound t) := by
  have hatom (e : Node → Expr) : Halts k 0 (do return e (← node t.span)) :=
    (halts_node t.span).ret _
  unfold primary
  split
  · exact hatom _
  · dsimp only
    split
    · exact hatom _
    · exact (refuses_fail _ _).halts
  · exact hatom _
  · exact hatom _
  · exact hatom _
  · refine (halts_exprBy hread).andThen fun e => ?_
    exact (halts_consume (by simp)).ret _
  · refine (halts_listOf (halts_exprBy hread).weaken hb).andThen fun _ => ?_
    exact (halts_node _).ret _
  · refine (halts_listOf (halts_entryBy hread) hb).andThen fun _ => ?_
    exact (halts_node _).ret _
  · exact halts_unaryBy hread _
  · exact halts_unaryBy hread _
  · exact (refuses_unexpected _).halts

theorem halts_extend (hread : ReadsWithin k read) (hb : k < bound)
    (hlevel : extensionPrecedence? t.kind = some level) :
    Halts k 0 (extend read bound t lhs level) := by
  unfold extend
  split
  · refine (halts_listOf (halts_argumentBy hread) hb).andThen fun _ => ?_
    exact (halts_node _).ret _
  · refine (halts_exprBy hread).andThen fun place => ?_
    refine (halts_consume (by simp)).andThen fun _ => ?_
    exact (halts_node _).ret _
  · refine halts_ident.andThen fun name => ?_
    exact (halts_node _).ret _
  · rename_i hparen hbracket hdot
    split
    · rename_i hnone
      unfold extensionPrecedence? at hlevel
      split at hlevel
      · exact absurd ‹t.kind = _› hparen
      · exact absurd ‹t.kind = _› hbracket
      · exact absurd ‹t.kind = _› hdot
      · rw [hnone] at hlevel
        cases hlevel
    · refine (halts_exprBy hread).andThen fun rhs => ?_
      exact (halts_node _).ret _

theorem halts_extendAll (hread : ReadsWithin k read) (hb : k < bound) (hk : k < n) :
    Halts k 0 (extendAll read bound min n lhs) := by
  induction n generalizing k lhs with
  | zero => omega
  | succ n ih =>
    refine halts_advance fun t => ?_
    split
    · rename_i level hlevel
      split
      · have ht : t.kind ≠ .eof := by
          intro ht
          rw [ht] at hlevel
          cases hlevel
        have hrest : ∀ j < k, Halts j 0 (extend read bound t lhs level >>= extendAll read bound min n) := by
          intro j hj
          have hread' := hread.mono (Nat.le_of_lt hj)
          have hb' : j < bound := Nat.lt_trans hj hb
          exact (halts_extend hread' hb' hlevel).andThen fun lhs' => ih hread' hb' (by omega)
        exact HaltsAfter.weaken (.taken ht hrest)
      · exact .putBack (halts_pure lhs)
    · exact .putBack (halts_pure lhs)

theorem readsWithin_exprFrom (hk : k < n) : ReadsWithin k (exprFrom n) := by
  induction n generalizing k with
  | zero => omega
  | succ n ih =>
    refine ⟨fun t min ht j hj => ?_, fun t min p ht => ?_⟩
    · have hread : ReadsWithin j (exprFrom n) := ih (by omega)
      exact (halts_primary hread (by omega)).andThen fun lhs => halts_extendAll hread (by omega) (by omega)
    · show EStateM.bind (primary (exprFrom n) n t) _ p = _
      unfold EStateM.bind primary unexpected
      simp only [ht]
      rfl

theorem halts_exprWithin (hk : k < bound) : Halts k 1 (exprWithin bound) :=
  halts_exprBy (readsWithin_exprFrom hk)

end Exprs

section Stmts

variable {k n bound : Nat} {stmt : Parse Stmt} {t : Token}

theorem halts_bindingWithin (hk : k < bound) : Halts k 0 (bindingWithin bound) := by
  refine halts_ident.andThen fun name => ?_
  refine (halts_consume (by simp)).andThen fun _ => ?_
  exact (halts_typeExpr hk).ret _

theorem halts_typeAfter {marks : List TokenKind} (hk : k < bound) : Halts k 0 (typeAfter marks bound) := by
  refine (halts_takeAny marks).andThen fun found => ?_
  cases found with
  | some _ => exact (halts_typeExpr hk).ret _
  | none => exact halts_pure none

theorem halts_payloadOf {item : Parse α} (hitem : Halts k 0 item) (hk : k < bound) :
    Halts k 0 (payloadOf item bound) := by
  refine (halts_takeAny [.mark .lparen]).andThen fun found => ?_
  cases found with
  | some _ => exact (halts_listOf hitem hk).ret _
  | none => exact halts_pure []

theorem halts_enumCaseWithin (hk : k < bound) : Halts k 0 (enumCaseWithin bound) := by
  refine halts_ident.andThen fun name => ?_
  exact (halts_payloadOf (halts_typeExpr hk).weaken hk).ret _

theorem halts_structFrom (hk : k < bound) : Halts k 0 (structFrom bound t) := by
  refine halts_ident.andThen fun name => ?_
  refine (halts_consume (by simp)).andThen fun _ => ?_
  exact (halts_listOf (halts_bindingWithin hk) hk).ret _

theorem halts_enumFrom (hk : k < bound) : Halts k 0 (enumFrom bound t) := by
  refine halts_ident.andThen fun name => ?_
  refine (halts_consume (by simp)).andThen fun _ => ?_
  exact (halts_listOf (halts_enumCaseWithin hk) hk).ret _

theorem halts_terminator : Halts k 0 terminator := by
  refine halts_advance fun t => ?_
  split
  · exact .any (halts_pure ())
  · exact haltsAfter_pushBack
  · exact haltsAfter_pushBack
  · exact (refuses_unexpected _).after (Nat.zero_le 1)

theorem halts_stmtsBy (hstmt : Halts k 1 stmt) (hk : k < n) : Halts k 0 (stmtsBy stmt n) := by
  induction n generalizing k with
  | zero => omega
  | succ n ih =>
    refine halts_advance fun t => ?_
    split
    · exact .any (halts_pure _)
    · exact (refuses_unexpected _).after (Nat.zero_le 1)
    · refine .putBack (Halts.weaken (hstmt.taken fun s j hj => ?_))
      have hrest := ih (hstmt.mono (Nat.le_of_lt hj) (Nat.le_refl 1)) (by omega)
      exact hrest.ret _

theorem halts_blockBy (hstmt : Halts k 1 stmt) (hk : k < bound) : Halts k 0 (blockBy stmt bound) :=
  (halts_consume (by simp)).andThen fun _ => halts_stmtsBy hstmt hk

theorem halts_clauseBy (hstmt : Halts k 1 stmt) (hk : k < bound) : Halts k 0 (clauseBy stmt bound) := by
  refine (halts_exprWithin hk).andThen fun cond => ?_
  exact (halts_blockBy hstmt hk).ret _

theorem halts_continuation {f : Continuation → Parse α} (hclause : ∀ j < k, Halts j 0 (f .clause))
    (hfinal : Halts k 0 (f .final)) (hstop : Halts k 0 (f .stop)) :
    Halts k 0 (continuation >>= f) := by
  unfold continuation
  rw [bind_assoc]
  refine halts_take (by simp) (fun _ j hj => hclause j hj) ?_
  rw [bind_assoc]
  refine halts_take (by simp) (fun _ j hj => ?_) hstop
  rw [bind_assoc]
  exact halts_take (by simp) (fun _ i hi => hclause i (Nat.lt_trans hi hj))
    (hfinal.mono (Nat.le_of_lt hj) (Nat.le_refl 0))

theorem halts_clausesBy (hstmt : Halts k 1 stmt) (hk : k < bound) (hn : k < n) {stop : Span} :
    Halts k 0 (clausesBy stmt bound n stop) := by
  induction n generalizing k stop with
  | zero => omega
  | succ n ih =>
    refine halts_continuation (fun j hj => ?_) ?_ (halts_pure _)
    · have hstmt' := hstmt.mono (Nat.le_of_lt hj) (Nat.le_refl 1)
      have hj' : j < bound := Nat.lt_trans hj hk
      refine (halts_clauseBy hstmt' hj').andThen fun _ => ?_
      exact (ih hstmt' hj' (by omega)).ret _
    · exact (halts_blockBy hstmt hk).ret _

theorem halts_patternWithin (hk : k < bound) : Halts k 0 (patternWithin bound) := by
  refine halts_ident.andThen fun name => ?_
  exact (halts_payloadOf halts_ident.weaken hk).ret _

theorem halts_armsBy (hstmt : Halts k 1 stmt) (hk : k < bound) (hn : k < n) :
    Halts k 0 (armsBy stmt bound n) := by
  induction n generalizing k with
  | zero => omega
  | succ n ih =>
    refine halts_advance fun t => ?_
    split
    · exact .any (halts_pure _)
    · rename_i ht
      refine HaltsAfter.weaken (.taken (by simp [ht]) fun j hj => ?_)
      have hstmt' := hstmt.mono (Nat.le_of_lt hj) (Nat.le_refl 1)
      have hj' : j < bound := Nat.lt_trans hj hk
      refine (halts_patternWithin hj').andThen fun _ => (halts_blockBy hstmt' hj').andThen fun _ => ?_
      exact (ih hstmt' hj' (by omega)).ret _
    · refine .any ((halts_blockBy hstmt hk).andThen fun _ => ?_)
      exact (halts_consume (by simp)).ret _
    · exact (refuses_unexpected _).after (Nat.zero_le 1)

theorem halts_letFrom (hk : k < bound) : Halts k 0 (letFrom bound t) := by
  refine halts_ident.andThen fun name => (halts_typeAfter hk).andThen fun type => ?_
  refine (halts_consume (by simp)).andThen fun _ => ?_
  refine (halts_exprWithin hk).andThen fun value => ?_
  exact halts_terminator.ret _

theorem halts_returnFrom (hk : k < bound) : Halts k 0 (returnFrom bound t) := by
  have hvalue : Halts k 0 (do
      let value ← exprWithin bound
      terminator
      return Stmt.ret (t.span.through value.span) (some value)) :=
    (halts_exprWithin hk).andThen fun _ => halts_terminator.ret _
  refine halts_advance fun next => .putBack ?_
  split
  · exact halts_terminator.ret _
  · exact halts_terminator.ret _
  · exact halts_terminator.ret _
  · exact hvalue

theorem halts_ifFrom (hstmt : Halts k 1 stmt) (hk : k < bound) : Halts k 0 (ifFrom stmt bound t) := by
  refine (halts_clauseBy hstmt hk).andThen fun _ => ?_
  exact (halts_clausesBy hstmt hk hk).ret _

theorem halts_whileFrom (hstmt : Halts k 1 stmt) (hk : k < bound) :
    Halts k 0 (whileFrom stmt bound t) := by
  refine (halts_exprWithin hk).andThen fun cond => ?_
  exact (halts_blockBy hstmt hk).ret _

theorem halts_loopVars : Halts k 0 loopVars := by
  refine halts_ident.andThen fun first => (halts_takeAny [.mark .comma]).andThen fun found => ?_
  cases found with
  | some _ => exact halts_ident.ret _
  | none => exact halts_pure _

theorem halts_forFrom (hstmt : Halts k 1 stmt) (hk : k < bound) : Halts k 0 (forFrom stmt bound t) := by
  refine halts_loopVars.andThen fun vars => (halts_consume (by simp)).andThen fun _ => ?_
  refine (halts_exprWithin hk).andThen fun iterable => ?_
  exact (halts_blockBy hstmt hk).ret _

theorem halts_matchFrom (hstmt : Halts k 1 stmt) (hk : k < bound) :
    Halts k 0 (matchFrom stmt bound t) := by
  refine (halts_exprWithin hk).andThen fun scrutinee => ?_
  refine (halts_consume (by simp)).andThen fun _ => ?_
  exact (halts_armsBy hstmt hk hk).ret _

theorem haltsAfter_simpleFrom (hk : k < bound) : HaltsAfter t k 1 (simpleFrom bound t) := by
  refine ((readsWithin_exprFrom hk).after t).bind fun e => ?_
  refine (halts_takeAny [.mark .assign]).andThen fun found => ?_
  cases found with
  | some _ =>
    dsimp only
    split
    · exact (halts_exprWithin hk).andThen fun value => halts_terminator.ret _
    · exact (refuses_fail _ _).halts
  | none => exact halts_terminator.ret _

theorem halts_stmtBy (hstmt : ∀ j < k, Halts j 1 stmt) (hk : k < bound) :
    Halts k 1 (stmtBy stmt bound) := by
  refine halts_advance fun t => ?_
  have hbound {j : Nat} (hj : j < k) : j < bound := Nat.lt_trans hj hk
  split
  case h_10 => exact haltsAfter_simpleFrom hk
  all_goals refine .taken (by simp [*]) fun j hj => ?_
  · exact halts_letFrom (hbound hj)
  · exact halts_returnFrom (hbound hj)
  · exact halts_ifFrom (hstmt j hj) (hbound hj)
  · exact halts_whileFrom (hstmt j hj) (hbound hj)
  · exact halts_forFrom (hstmt j hj) (hbound hj)
  · exact halts_matchFrom (hstmt j hj) (hbound hj)
  · exact halts_structFrom (hbound hj)
  · exact halts_enumFrom (hbound hj)
  · exact (refuses_fail _ _).halts

theorem halts_stmtWithin (hk : k + 1 < n) : Halts k 1 (stmtWithin n) := by
  induction n generalizing k with
  | zero => omega
  | succ n ih => exact halts_stmtBy (fun j hj => ih (by omega)) (by omega)

theorem halts_functionFrom (hk : k + 1 < bound) : Halts k 0 (functionFrom bound t) := by
  have hk' : k < bound := by omega
  refine halts_ident.andThen fun name => (halts_consume (by simp)).andThen fun _ => ?_
  refine (halts_listOf (halts_bindingWithin hk') hk').andThen fun _ => ?_
  refine (halts_typeAfter hk').andThen fun result => ?_
  exact (halts_blockBy (halts_stmtWithin hk) hk').ret _

theorem sane_itemsWithin (hk : k + 1 < bound) (hn : k < n) {p : Parser} (hs : p.Settled) (hp : p.left ≤ k) :
    Sane p.left (min 1 p.left) (itemsWithin bound n p) := by
  induction n generalizing k p with
  | zero => omega
  | succ n ih =>
    have hrest : ∀ j < k, Halts j 0 (itemsWithin bound n) := fun j hj q hs hq =>
      (ih (by omega) (by omega) hs hq).mono (by omega)
    refine sane_advance hs fun t q hh hend hleft => ?_
    by_cases ht : t.kind = .eof
    · have hnone := hend ht
      rw [weight, if_pos ht, hnone] at hleft
      simp only [← hleft, ht]
      exact ⟨settled_of_held hh, Nat.le_of_eq hnone⟩
    · have htaken {m : Parse (List Item)} (h : HaltsAfter t k 1 m) : Sane p.left (min 1 p.left) (m q) :=
        (h q hh hend (by omega)).mono (by omega)
      refine htaken ?_
      split
      · exact absurd ‹_› ht
      · refine .taken ht fun j hj => ?_
        exact (halts_functionFrom (by omega)).andThen fun f => (hrest j hj).ret _
      · exact .putBack ((halts_stmtWithin hk).taken fun s j hj => (hrest j hj).ret _)

end Stmts

section Requests

variable {p : Parser}

/-- A token that was put back counts for one at most, so that the bound on steps exceeds what is left. -/
theorem left_lt_bound (p : Parser) : p.left + 3 < p.bound := by
  have hscanner := p.scanner.left_le
  have hheld : (p.held.map weight).getD 0 ≤ 1 := by
    cases p.held with
    | none => exact Nat.zero_le 1
    | some t =>
      show weight t ≤ 1
      unfold weight
      split
      · exact Nat.zero_le 1
      · exact Nat.le_refl 1
  rw [left, bound]
  omega

theorem sane_expr (hs : p.Settled) : Sane p.left 1 (expr p) := by
  have hbound := p.left_lt_bound
  exact halts_exprWithin (by omega) p hs (Nat.le_refl _)

theorem sane_program (hs : p.Settled) : Sane p.left (min 1 p.left) (program p) := by
  have hbound := p.left_lt_bound
  have hitems : Sane p.left (min 1 p.left) (itemsWithin p.bound p.bound p) :=
    sane_itemsWithin (by omega) (by omega) hs (Nat.le_refl _)
  exact hitems.bind fun items q hs' _ => halts_pure (Program.mk items) q hs' (Nat.le_refl _)

end Requests

end Parser

theorem parseProgram_rejected {source : String} {x : Failure SyntaxError}
    (h : parseProgram source = .error x) : ∃ e, x = .rejected e := by
  have hsane := Parser.sane_program (p := .ofString source) (Parser.settled_of_held rfl)
  unfold parseProgram Parse.outcome at h
  split at h
  · cases h
  · rename_i y q hy
    obtain rfl := Except.error.inj h
    rw [hy] at hsane
    cases y with
    | rejected e => exact ⟨e, rfl⟩
    | internal f => exact hsane.elim

end Gondola
