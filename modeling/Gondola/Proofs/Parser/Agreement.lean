import Gondola.Proofs.Parser.Pending
import Gondola.Proofs.Program.Placement
import Gondola.Proofs.Token.Words

/-! Two runs of the parser side by side, on texts whose tokens agree. What they find agrees too: trees and failures, up
to places. -/
namespace Gondola

def Token.mapSpan (σ : Span → Span) (t : Token) : Token := { t with span := σ t.span }

namespace Scanner

/-- No token is left before the end of input, or before a literal without an end. -/
def AtEnd (s : Scanner) : Prop :=
  (∃ t s', s.next = (.ok t, s') ∧ t.kind = .eof) ∨ ∃ e s', s.next = (.error e, s')

end Scanner

namespace Parser

variable {α β γ δ : Type}

/-- How two runs are compared: what counts of a place in the one and in the other, and whether the first text may end
where the second goes on. -/
structure Comparison where
  left : Span → Span
  right : Span → Span
  through : ∀ {s s' t t'}, left s = right s' → left t = right t' → left (s.through t) = right (s'.through t')
  short : Prop
  same : short → left = right

/-- Two texts with the same tokens, as far as the comparison asks for. -/
inductive Streams (v : Comparison) : Scanner → Scanner → Prop
  | token {s s₁ s' s₁' t t'} (h : s.next = (.ok t, s₁)) (h' : s'.next = (.ok t', s₁'))
      (ht : t.mapSpan v.left = t'.mapSpan v.right) (hrest : Streams v s₁ s₁') : Streams v s s'
  | ending {s s₁ s' s₁' t t'} (h : s.next = (.ok t, s₁)) (h' : s'.next = (.ok t', s₁'))
      (ht : t.mapSpan v.left = t'.mapSpan v.right) (hk : t.kind = .eof) : Streams v s s'
  | error {s s₁ s' s₁' e e'} (h : s.next = (.error e, s₁)) (h' : s'.next = (.error e', s₁'))
      (he : e.value = e'.value) (hs : v.left e.span = v.right e'.span) : Streams v s s'
  | short {s s'} (hv : v.short) (h : s.AtEnd) : Streams v s s'

structure Linked (v : Comparison) (p p' : Parser) : Prop where
  nextId : p.nextId = p'.nextId
  held : p.held.map (Token.mapSpan v.left) = p'.held.map (Token.mapSpan v.right)
  scanner : Streams v p.scanner p'.scanner

/-- Nothing is left to read. -/
structure Spent (p : Parser) : Prop where
  scanner : p.scanner.AtEnd
  held : ∀ t, p.held = some t → t.kind = .eof

/-- Failures of a run that got to the end of its text, and faults. -/
inductive Cut : Failure SyntaxError → Prop
  | early {s x} : Cut (.rejected ⟨s, .prematureEnd x⟩)
  | scan {s x} : Cut (.rejected ⟨s, .scan x⟩)
  | fault {x} : Cut (.internal x)

/-- At the end of the text the step goes no further: it stays there with a value in `E`, or it fails for
lack of text. -/
def Ends (E : α → Prop) (m : Parse α) : Prop :=
  ∀ p : Parser, p.Spent → match m p with
    | .ok a q => E a ∧ q.Spent
    | .error x _ => Cut x

/-- What counts of a result, by what counts of the places in it. -/
abbrev View (α γ : Type) := (Span → Span) → α → γ

/-- Outcomes of two runs. Unless they agree, the first one is at fault, or its text was too short. -/
inductive Matches (v : Comparison) (view : View α γ) (E : α → Prop) :
    EStateM.Result (Failure SyntaxError) Parser α → EStateM.Result (Failure SyntaxError) Parser α → Prop
  | ok {a a' p p'} (ha : view v.left a = view v.right a') (hp : Linked v p p') : Matches v view E (.ok a p) (.ok a' p')
  | rejected {e e' p p'} (he : e.value = e'.value) (hs : v.left e.span = v.right e'.span) :
      Matches v view E (.error (.rejected e) p) (.error (.rejected e') p')
  | fault {x p r} : Matches v view E (.error (.internal x) p) r
  | ended {a p r} (hv : v.short) (ha : E a) (hp : p.Spent) : Matches v view E (.ok a p) r
  | cut {x p r} (hv : v.short) (hx : Cut x) : Matches v view E (.error x p) r

/-- The steps agree on linked parsers. If `c` holds, the first one also ends at the end of its text. -/
structure Agree (v : Comparison) (c : Prop) (view : View α γ) (E : α → Prop) (m m' : Parse α) : Prop where
  runs : ∀ p p', Linked v p p' → Matches v view E (m p) (m' p')
  ends : v.short → c → Ends E m

section Rules

variable {v : Comparison} {c : Prop} {view : View α γ} {E : α → Prop} {m m' : Parse α}

theorem Ends.bind {F : β → Prop} {f : α → Parse β} (h : Ends E m) (hf : ∀ a, E a → Ends F (f a)) :
    Ends F (m >>= f) := by
  intro p hp
  have hm := h p hp
  show match EStateM.bind m f p with
    | .ok a q => F a ∧ q.Spent
    | .error x _ => Cut x
  unfold EStateM.bind
  cases hr : m p with
  | ok a q =>
    rw [hr] at hm
    exact hf a hm.1 q hm.2
  | error x q =>
    rw [hr] at hm
    exact hm

theorem Agree.bind {view' : View β δ} {F : β → Prop} {f f' : α → Parse β} (h : Agree v c view E m m')
    (hf : ∀ a a', view v.left a = view v.right a' → Agree v (E a) view' F (f a) (f' a')) :
    Agree v c view' F (m >>= f) (m' >>= f') where
  runs := by
    intro p p' hp
    have hm := h.runs p p' hp
    show Matches v view' F (EStateM.bind m f p) (EStateM.bind m' f' p')
    unfold EStateM.bind
    generalize m p = r at hm
    generalize m' p' = r' at hm
    cases hm with
    | ok ha hq => exact (hf _ _ ha).runs _ _ hq
    | rejected he hs => exact .rejected he hs
    | fault => exact .fault
    | @ended a q _ hv ha hq =>
      -- The first run has no text left, so that it does not matter where the second one is.
      have hend := (hf a a (by rw [v.same hv])).ends hv ha q hq
      show Matches v view' F (f a q) _
      generalize f a q = r at hend
      cases r with
      | ok b q => exact .ended hv hend.1 hend.2
      | error x q => exact .cut hv hend
    | cut hv hx => exact .cut hv hx
  ends := fun hv hc => (h.ends hv hc).bind fun a ha => (hf a a (by rw [v.same hv])).ends hv ha

theorem Agree.bindPair {α' γ' : Type} {viewRest : View α' γ'} {E : α × α' → Prop} {m m' : Parse (α × α')}
    {view' : View β δ} {F : β → Prop} {f f' : α × α' → Parse β}
    (h : Agree v c (fun σ => Prod.map (view σ) (viewRest σ)) E m m')
    (hf : ∀ a a' b b', view v.left a = view v.right a' → viewRest v.left b = viewRest v.right b' →
      Agree v (E (a, b)) view' F (f (a, b)) (f' (a', b'))) : Agree v c view' F (m >>= f) (m' >>= f') := by
  apply h.bind
  intro p p' hp
  have hparts := Prod.mk.inj hp
  exact hf p.1 p'.1 p.2 p'.2 hparts.1 hparts.2

theorem Agree.weaken {c' : Prop} (h : Agree v c view E m m') (hc : c' → c) : Agree v c' view E m m' :=
  ⟨h.runs, fun hv hc' => h.ends hv (hc hc')⟩

theorem Agree.post {F : α → Prop} (h : Agree v c view E m m') (hEF : ∀ a, E a → F a) :
    Agree v c view F m m' where
  runs := by
    intro p p' hp
    have hm := h.runs p p' hp
    generalize m p = r at hm
    generalize m' p' = r' at hm
    cases hm with
    | ok ha hq => exact .ok ha hq
    | rejected he hs => exact .rejected he hs
    | fault => exact .fault
    | ended hv ha hq => exact .ended hv (hEF _ ha) hq
    | cut hv hx => exact .cut hv hx
  ends := by
    intro hv hc p hp
    have hm := h.ends hv hc p hp
    generalize m p = r at hm
    cases r with
    | ok a q => exact ⟨hEF a hm.1, hm.2⟩
    | error x q => exact hm

theorem agree_pure {a a' : α} (ha : view v.left a = view v.right a') (hE : c → E a) :
    Agree v c view E (pure a) (pure a') :=
  ⟨fun _ _ hp => .ok ha hp, fun _ hc _ hp => ⟨hE hc, hp⟩⟩

theorem agree_ret {a a' : α} (ha : view v.left a = view v.right a') :
    Agree v c view (fun _ => True) (pure a) (pure a') :=
  agree_pure ha fun _ => True.intro

theorem agree_endless : Agree v c view E endless m' :=
  ⟨fun _ _ _ => .fault, fun _ _ _ _ => .fault⟩

theorem agree_fail {s s' : Span} {x : SyntaxError} (hs : v.left s = v.right s')
    (hx : c → Cut (.rejected ⟨s, x⟩)) : Agree v c view E (fail s x) (fail s' x) :=
  ⟨fun _ _ _ => .rejected rfl hs, fun _ hc _ _ => hx hc⟩

end Rules

section Tokens

variable {v : Comparison} {c : Prop} {view : View α γ} {E : α → Prop} {t t' : Token}

theorem kind_eq (ht : t.mapSpan v.left = t'.mapSpan v.right) : t.kind = t'.kind := by
  injection ht

theorem text_eq (ht : t.mapSpan v.left = t'.mapSpan v.right) : t.text = t'.text := by
  injection ht

theorem span_eq (ht : t.mapSpan v.left = t'.mapSpan v.right) : v.left t.span = v.right t'.span := by
  injection ht

theorem agree_unexpected (ht : t.mapSpan v.left = t'.mapSpan v.right) (x : Expected)
    (hc : c → t.kind = .eof) : Agree v c view E (unexpected t x) (unexpected t' x) := by
  unfold unexpected
  rw [← kind_eq ht, ← text_eq ht]
  split
  · exact agree_fail (span_eq ht) fun _ => .early
  · rename_i hk
    exact agree_fail (span_eq ht) fun h => absurd (hc h) hk

theorem Streams.again {s s₁ s' s₁' : Scanner} (h : s.next = (.ok t, s₁)) (h' : s'.next = (.ok t', s₁'))
    (ht : t.mapSpan v.left = t'.mapSpan v.right) (hk : t.kind = .eof) : Streams v s₁ s₁' :=
  .ending (Scanner.next_of_eof h hk) (Scanner.next_of_eof h' (kind_eq ht ▸ hk)) ht hk

theorem ends_advance : Ends (fun t => t.kind = .eof) advance := by
  intro p hp
  unfold advance
  cases hh : p.held with
  | some t => exact ⟨hp.held t hh, hp.scanner, fun _ hheld => nomatch hheld⟩
  | none =>
    rcases hp.scanner with ⟨t, s, hn, ht⟩ | ⟨e, s, hn⟩
    · simp only [hn]
      exact ⟨ht, .inl ⟨t, s, Scanner.next_of_eof hn ht, ht⟩, fun _ hheld => nomatch hheld⟩
    · simp only [hn]
      exact .scan

theorem agree_advance : Agree v c Token.mapSpan (fun t => t.kind = .eof) advance advance where
  runs := by
    intro p p' hp
    have hheld := hp.held
    unfold advance
    cases hh : p.held with
    | some t =>
      cases hh' : p'.held with
      | some t' =>
        rw [hh, hh'] at hheld
        exact .ok (Option.some.inj hheld) ⟨hp.nextId, rfl, hp.scanner⟩
      | none =>
        rw [hh, hh'] at hheld
        cases hheld
    | none =>
      cases hh' : p'.held with
      | some t' =>
        rw [hh, hh'] at hheld
        cases hheld
      | none =>
        cases hp.scanner with
        | token h h' ht hrest =>
          simp only [h, h']
          exact .ok ht ⟨hp.nextId, rfl, hrest⟩
        | ending h h' ht hk =>
          simp only [h, h']
          exact .ok ht ⟨hp.nextId, rfl, .again h h' ht hk⟩
        | error h h' he hs =>
          simp only [h, h']
          exact .rejected (congrArg SyntaxError.scan he) hs
        | short hv hend =>
          -- The second text may have a token here.
          rcases hend with ⟨t, s, h, ht⟩ | ⟨e, s, h⟩
          · simp only [h]
            exact .ended hv ht ⟨.inl ⟨t, s, Scanner.next_of_eof h ht, ht⟩, fun _ hheld => nomatch hheld⟩
          · simp only [h]
            exact .cut hv .scan
  ends := fun _ _ => ends_advance

theorem agree_pushBack (ht : t.mapSpan v.left = t'.mapSpan v.right) (hc : c → t.kind = .eof) :
    Agree v c (fun _ => id) (fun _ => True) (pushBack t) (pushBack t') where
  runs := by
    intro p p' hp
    have hheld := hp.held
    unfold pushBack
    cases hh : p.held with
    | some u => exact .fault
    | none =>
      cases hh' : p'.held with
      | some u =>
        rw [hh, hh'] at hheld
        cases hheld
      | none => exact .ok rfl ⟨hp.nextId, congrArg some ht, hp.scanner⟩
  ends := by
    intro _ h p hp
    unfold pushBack
    cases hh : p.held with
    | some u => exact .fault
    | none =>
      refine ⟨True.intro, hp.scanner, fun u hu => ?_⟩
      rw [← Option.some.inj hu]
      exact hc h

theorem agree_node {s s' : Span} (hs : v.left s = v.right s') :
    Agree v c Node.mapSpan (fun _ => True) (node s) (node s') where
  runs := by
    intro p p' hp
    refine .ok ?_ ⟨congrArg (· + 1) hp.nextId, hp.held, hp.scanner⟩
    show Node.mk p.nextId (v.left s) = Node.mk p'.nextId (v.right s')
    rw [hp.nextId, hs]
  ends := fun _ _ _ hp => ⟨True.intro, hp.scanner, hp.held⟩

theorem agree_takeAny {kinds : List TokenKind} (hk : .eof ∉ kinds) :
    Agree v c (fun σ => Option.map (Token.mapSpan σ)) (· = none) (takeAny kinds) (takeAny kinds) := by
  refine agree_advance.bind fun t t' ht => ?_
  rw [← kind_eq ht]
  split
  · rename_i hin
    exact agree_pure (congrArg some ht) fun he => absurd (he ▸ hin) hk
  · exact (agree_pushBack ht fun he => he).bind fun _ _ _ => agree_pure rfl fun _ => rfl

theorem agree_take {kind : TokenKind} (hk : kind ≠ .eof) :
    Agree v c (fun σ => Option.map (Token.mapSpan σ)) (· = none) (take kind) (take kind) :=
  agree_takeAny fun h => hk (List.mem_singleton.mp h).symm

theorem agree_consume {kind : TokenKind} (hk : kind ≠ .eof) :
    Agree v c Token.mapSpan (fun _ => False) (consume kind) (consume kind) := by
  refine agree_advance.bind fun t t' ht => ?_
  rw [← kind_eq ht]
  split
  · rename_i hin
    exact agree_pure ht fun he => hk (hin ▸ he)
  · exact agree_unexpected ht _ fun he => he

theorem agree_ident : Agree v c Ident.mapSpan (fun _ => False) ident ident := by
  refine (agree_consume (by simp)).bind fun t t' ht => agree_pure ?_ False.elim
  show Ident.mk t.text (v.left t.span) = Ident.mk t'.text (v.right t'.span)
  rw [text_eq ht, span_eq ht]

theorem Agree.bindTake {kind : TokenKind} (hk : kind ≠ .eof) {f f' : Option Token → Parse α}
    (hsome : ∀ t t', t.mapSpan v.left = t'.mapSpan v.right →
      Agree v False view E (f (some t)) (f' (some t')))
    (hnone : Agree v True view E (f none) (f' none)) :
    Agree v c view E (take kind >>= f) (take kind >>= f') := by
  refine (agree_take hk).bind fun o o' ho => ?_
  cases o with
  | some t =>
    cases o' with
    | some t' => exact (hsome t t' (Option.some.inj ho)).weaken nofun
    | none => cases ho
  | none =>
    cases o' with
    | some t' => cases ho
    | none => exact hnone.weaken fun _ => True.intro

theorem agree_listOf {close : TokenKind} (hclose : close ≠ .eof) {item item' : Parse α}
    (hitem : ∀ c, Agree v c view (fun _ => True) item item') {n n' : Nat} (hn : n ≤ n') :
    Agree v c (fun σ => Prod.map (List.map (view σ)) (Token.mapSpan σ)) (fun _ => True) (listOf close item n)
      (listOf close item' n') := by
  induction n generalizing n' c with
  | zero => exact agree_endless
  | succ n ih =>
    obtain ⟨n', rfl⟩ : ∃ k, n' = k + 1 := ⟨n' - 1, by omega⟩
    refine .bindTake hclose (fun t t' ht => ?_) ?_
    · exact agree_ret (congrArg (Prod.mk []) ht)
    · refine (hitem _).bind fun a a' ha => .bindTake hclose (fun t t' ht => ?_) ?_
      · refine agree_ret ?_
        show ([view v.left a], t.mapSpan v.left) = ([view v.right a'], t'.mapSpan v.right)
        rw [ha, ht]
      · refine (agree_consume (by simp)).bind fun _ _ _ => (ih (by omega)).bindPair ?_
        intro as as' t t' has ht
        refine agree_ret ?_
        show (view v.left a :: as.map (view v.left), t.mapSpan v.left) =
          (view v.right a' :: as'.map (view v.right), t'.mapSpan v.right)
        rw [ha, has, ht]

end Tokens

section Exprs

variable {v : Comparison} {c : Prop} {read read' : ExprReader} {t t' : Token} {lhs lhs' : Expr}
  {n n' bound bound' : Nat}

theorem agree_typeArgs {type type' : Parse TypeExpr}
    (htype : ∀ c, Agree v c TypeExpr.mapSpan (fun _ => True) type type') (hn : n ≤ n') :
    Agree v c (fun σ => Prod.map (List.map (TypeExpr.mapSpan σ)) (Token.mapSpan σ)) (fun _ => True)
      (typeArgs type n) (typeArgs type' n') := by
  induction n generalizing n' c with
  | zero => exact agree_endless
  | succ n ih =>
    obtain ⟨n', rfl⟩ : ∃ k, n' = k + 1 := ⟨n' - 1, by omega⟩
    refine (htype _).bind fun a a' ha => .bindTake (by simp) (fun t t' ht => ?_) ?_
    · refine agree_ret ?_
      show ([a.mapSpan v.left], t.mapSpan v.left) = ([a'.mapSpan v.right], t'.mapSpan v.right)
      rw [ha, ht]
    · refine (agree_consume (by simp)).bind fun _ _ _ => (ih (by omega)).bindPair ?_
      intro as as' t t' has ht
      refine agree_ret ?_
      show (a.mapSpan v.left :: as.map (TypeExpr.mapSpan v.left), t.mapSpan v.left) =
        (a'.mapSpan v.right :: as'.map (TypeExpr.mapSpan v.right), t'.mapSpan v.right)
      rw [ha, has, ht]

theorem agree_typeExpr (hn : n ≤ n') :
    Agree v c TypeExpr.mapSpan (fun _ => True) (typeExpr n) (typeExpr n') := by
  induction n generalizing n' c with
  | zero => exact agree_endless
  | succ n ih =>
    obtain ⟨n', rfl⟩ : ∃ k, n' = k + 1 := ⟨n' - 1, by omega⟩
    refine agree_ident.bind fun x x' hx => .bindTake (by simp) (fun t t' ht => ?_) ?_
    · refine (agree_typeArgs (fun _ => ih (by omega)) (by omega)).bindPair ?_
      intro as as' t t' has ht
      have hspan : v.left x.span = v.right x'.span := by injection hx
      refine agree_ret ?_
      simp only [TypeExpr.mapSpan, TypeExpr.mapSpanAll_eq_map, hx, has, v.through hspan (span_eq ht)]
    · have hspan : v.left x.span = v.right x'.span := by injection hx
      refine agree_ret ?_
      simp only [TypeExpr.mapSpan, TypeExpr.mapSpanAll, hx, hspan]

/-- Reading agrees from tokens that agree. At the end of the text only a name can be read on. -/
def AgreeReaders (v : Comparison) (read read' : ExprReader) : Prop :=
  ∀ (t t' : Token) (min : Precedence) (c : Prop), t.mapSpan v.left = t'.mapSpan v.right →
    (c → t.kind = .eof ∨ t.kind = .identifier) →
      Agree v c Expr.mapSpan (fun _ => True) (read t min) (read' t' min)

theorem agree_exprBy (hread : AgreeReaders v read read') (min : Precedence) :
    Agree v c Expr.mapSpan (fun _ => True) (exprBy read min) (exprBy read' min) :=
  agree_advance.bind fun t t' ht => hread t t' min _ ht .inl

theorem agree_entryBy (hread : AgreeReaders v read read') :
    Agree v c (fun σ => Prod.map (Expr.mapSpan σ) (Expr.mapSpan σ)) (fun _ => True) (entryBy read)
      (entryBy read') := by
  refine (agree_exprBy hread _).bind fun k k' hk => (agree_consume (by simp)).bind fun _ _ _ => ?_
  refine (agree_exprBy hread _).bind fun e e' he => agree_ret ?_
  exact Prod.ext hk he

theorem agree_argumentBy (hread : AgreeReaders v read read') :
    Agree v c Argument.mapSpan (fun _ => True) (argumentBy read) (argumentBy read') := by
  refine agree_advance.bind fun first first' hfirst => ?_
  have hvalue : ∀ c, (c → first.kind = .eof ∨ first.kind = .identifier) →
      Agree v c Argument.mapSpan (fun _ => True)
        (read first .lowest >>= fun value => pure ⟨none, value⟩)
        (read' first' .lowest >>= fun value => pure ⟨none, value⟩) := by
    intro c hc
    refine (hread first first' .lowest c hfirst hc).bind fun e e' he => agree_ret ?_
    exact congrArg (Argument.mk none) he
  rw [← kind_eq hfirst]
  split
  · -- Only behind a name the next token is looked at: it tells whether the name is a label.
    rename_i hname
    refine agree_advance.bind fun next next' hnext => ?_
    rw [← kind_eq hnext]
    split
    · refine (agree_exprBy hread _).bind fun e e' he => agree_ret ?_
      have hx : Ident.mapSpan v.left ⟨first.text, first.span⟩ =
          Ident.mapSpan v.right ⟨first'.text, first'.span⟩ := by
        show Ident.mk first.text (v.left first.span) = Ident.mk first'.text (v.right first'.span)
        rw [text_eq hfirst, span_eq hfirst]
      simp only [Argument.mapSpan, Option.map_some, hx, he]
    · exact (agree_pushBack hnext fun he => he).bind fun _ _ _ => hvalue _ fun _ => .inr hname
  · exact hvalue _ .inl

theorem agree_numbered {s s' : Span} {make make' : Node → Expr} (hs : v.left s = v.right s')
    (hmake : ∀ n n' : Node, n.mapSpan v.left = n'.mapSpan v.right →
      (make n).mapSpan v.left = (make' n').mapSpan v.right) :
    Agree v c Expr.mapSpan (fun _ => True) (node s >>= fun n => pure (make n))
      (node s' >>= fun n => pure (make' n)) :=
  (agree_node hs).bind fun n n' hn => agree_ret (hmake n n' hn)

theorem place_span_eq {e e' : Expr} (he : e.mapSpan v.left = e'.mapSpan v.right) :
    v.left e.span = v.right e'.span := by
  have hspan := congrArg Expr.span he
  rwa [Expr.span_mapSpan, Expr.span_mapSpan] at hspan

theorem agree_unaryBy (hread : AgreeReaders v read read') (op : UnaryOp)
    (ht : t.mapSpan v.left = t'.mapSpan v.right) :
    Agree v c Expr.mapSpan (fun _ => True) (unaryBy read op t) (unaryBy read' op t') := by
  refine (agree_exprBy hread _).bind fun e e' he => ?_
  refine agree_numbered (v.through (span_eq ht) (place_span_eq he)) fun n n' hn => ?_
  simp only [Expr.mapSpan, hn, he]

theorem agree_primary (hread : AgreeReaders v read read') (hb : bound ≤ bound')
    (ht : t.mapSpan v.left = t'.mapSpan v.right) (hc : c → t.kind = .eof ∨ t.kind = .identifier) :
    Agree v c Expr.mapSpan (fun _ => True) (primary read bound t) (primary read' bound' t') := by
  have hs := span_eq ht
  have htext := text_eq ht
  unfold primary
  rw [← kind_eq ht]
  split
  · refine agree_numbered hs fun n n' hn => ?_
    simp only [Expr.mapSpan, Ident.mapSpan, hn, hs, htext]
  · rename_i hk
    dsimp only
    rw [← htext]
    split
    · refine agree_numbered hs fun n n' hn => ?_
      simp only [Expr.mapSpan, hn]
    · refine agree_fail hs fun h => ?_
      rcases hc h with hk' | hk' <;> rw [hk'] at hk <;> cases hk
  · refine agree_numbered hs fun n n' hn => ?_
    simp only [Expr.mapSpan, hn, htext]
  · refine agree_numbered hs fun n n' hn => ?_
    simp only [Expr.mapSpan, hn]
  · refine agree_numbered hs fun n n' hn => ?_
    simp only [Expr.mapSpan, hn]
  · refine (agree_exprBy hread _).bind fun e e' he => (agree_consume (by simp)).bind fun u u' hu => ?_
    refine agree_ret ?_
    rw [Expr.mapSpan_relocate, Expr.mapSpan_relocate, he, v.through hs (span_eq hu)]
  · refine (agree_listOf (by simp) (fun _ => agree_exprBy hread _) hb).bindPair ?_
    intro es es' u u' hes hu
    refine agree_numbered (v.through hs (span_eq hu)) fun n n' hn => ?_
    simp only [Expr.mapSpan, Expr.mapSpanItems_eq_map, hn, hes]
  · refine (agree_listOf (by simp) (fun _ => agree_entryBy hread) hb).bindPair ?_
    intro es es' u u' hes hu
    refine agree_numbered (v.through hs (span_eq hu)) fun n n' hn => ?_
    simp only [Expr.mapSpan, Expr.mapSpanEntries_eq_map, hn, hes]
  · exact agree_unaryBy hread _ ht
  · exact agree_unaryBy hread _ ht
  · rename_i hname _ _ _ _ _ _ _ _ _
    refine agree_unexpected ht _ fun h => ?_
    exact (hc h).resolve_right hname

theorem agree_extend (hread : AgreeReaders v read read') (hb : bound ≤ bound')
    (ht : t.mapSpan v.left = t'.mapSpan v.right) (hl : lhs.mapSpan v.left = lhs'.mapSpan v.right)
    (level : Precedence) :
    Agree v c Expr.mapSpan (fun _ => True) (extend read bound t lhs level)
      (extend read' bound' t' lhs' level) := by
  have hs := place_span_eq hl
  unfold extend
  rw [← kind_eq ht]
  split
  · refine (agree_listOf (by simp) (fun _ => agree_argumentBy hread) hb).bindPair ?_
    intro as as' u u' has hu
    refine agree_numbered (v.through hs (span_eq hu)) fun n n' hn => ?_
    simp only [Expr.mapSpan, Expr.mapSpanArguments_eq_map, hn, hl, has]
  · refine (agree_exprBy hread _).bind fun e e' he => (agree_consume (by simp)).bind fun u u' hu => ?_
    refine agree_numbered (v.through hs (span_eq hu)) fun n n' hn => ?_
    simp only [Expr.mapSpan, hn, hl, he]
  · refine agree_ident.bind fun x x' hx => ?_
    have hspan : v.left x.span = v.right x'.span := by injection hx
    refine agree_numbered (v.through hs hspan) fun n n' hn => ?_
    simp only [Expr.mapSpan, hn, hl, hx]
  · split
    · -- No operator was found, which is a fault.
      exact ⟨fun _ _ _ => .fault, fun _ _ _ _ => .fault⟩
    · refine (agree_exprBy hread _).bind fun e e' he => ?_
      refine agree_numbered (v.through hs (place_span_eq he)) fun n n' hn => ?_
      simp only [Expr.mapSpan, hn, hl, he]

theorem agree_extendAll (hread : AgreeReaders v read read') (hb : bound ≤ bound') (min : Precedence)
    (hn : n ≤ n') (hl : lhs.mapSpan v.left = lhs'.mapSpan v.right) :
    Agree v c Expr.mapSpan (fun _ => True) (extendAll read bound min n lhs)
      (extendAll read' bound' min n' lhs') := by
  induction n generalizing n' lhs lhs' c with
  | zero => exact agree_endless
  | succ n ih =>
    obtain ⟨n', rfl⟩ : ∃ k, n' = k + 1 := ⟨n' - 1, by omega⟩
    refine agree_advance.bind fun t t' ht => ?_
    have hback : Agree v (t.kind = .eof) Expr.mapSpan (fun _ => True)
        (pushBack t >>= fun _ => pure lhs) (pushBack t' >>= fun _ => pure lhs') :=
      (agree_pushBack ht fun he => he).bind fun _ _ _ => agree_ret hl
    rw [← kind_eq ht]
    split
    · split
      · exact (agree_extend hread hb ht hl _).bind fun e e' he => ih (by omega) he
      · exact hback
    · exact hback

theorem agreeReaders_exprFrom (hn : n ≤ n') : AgreeReaders v (exprFrom n) (exprFrom n') := by
  induction n generalizing n' with
  | zero => exact fun _ _ _ _ _ _ => agree_endless
  | succ n ih =>
    obtain ⟨n', rfl⟩ : ∃ k, n' = k + 1 := ⟨n' - 1, by omega⟩
    intro t t' min c ht hc
    have hread : AgreeReaders v (exprFrom n) (exprFrom n') := ih (by omega)
    exact (agree_primary hread (by omega) ht hc).bind fun e e' he =>
      agree_extendAll hread (by omega) min (by omega) he

theorem agree_exprWithin (hb : bound ≤ bound') :
    Agree v c Expr.mapSpan (fun _ => True) (exprWithin bound) (exprWithin bound') :=
  agree_exprBy (agreeReaders_exprFrom hb) _

end Exprs

/-- A comparison that leaves out places. -/
def placeless : Comparison where
  left := fun _ => {}
  right := fun _ => {}
  through := fun _ _ => rfl
  short := False
  same := False.elim

theorem streams_of_words (s s' : Scanner) (h : s.words = s'.words) : Streams placeless s s' := by
  induction s using Scanner.words.induct generalizing s' with
  | case1 s e s₁ hs =>
    rw [Scanner.words_of_error hs] at h
    rcases s'.words_cases with ⟨e', s₁', hs', hw⟩ | ⟨t', s₁', hs', -, hw⟩ | ⟨t', s₁', hs', -, hw⟩ <;>
      rw [hw] at h
    · exact .error hs hs' (Option.some.inj (Prod.mk.inj h).2) rfl
    · simp at h
    · simp at h
  | case2 s t s₁ hs ht =>
    rw [Scanner.words_of_eof hs ht] at h
    rcases s'.words_cases with ⟨e', s₁', hs', hw⟩ | ⟨t', s₁', hs', -, hw⟩ | ⟨t', s₁', hs', ht', hw⟩ <;>
      rw [hw] at h
    · simp at h
    · exact .ending hs hs' (by simp_all [Token.mapSpan, placeless]) ht
    · simp only [Prod.mk.injEq, List.cons.injEq] at h
      exact absurd (h.1.1.1 ▸ ht) ht'
  | case3 s t s₁ hs ht hlt ih =>
    rw [Scanner.words_of_token hs ht] at h
    rcases s'.words_cases with ⟨e', s₁', hs', hw⟩ | ⟨t', s₁', hs', ht', hw⟩ | ⟨t', s₁', hs', -, hw⟩ <;>
      rw [hw] at h
    · simp at h
    · simp only [Prod.mk.injEq, List.cons.injEq] at h
      exact absurd (h.1.1.1.trans ht') ht
    · simp only [Prod.mk.injEq, List.cons.injEq] at h
      exact .token hs hs' (by simp_all [Token.mapSpan, placeless]) (ih s₁' (Prod.ext h.1.2 h.2))

end Parser

end Gondola
