import Gondola.Parser
import Gondola.Proofs.Token.Steps

/-! What a parser has yet to read. A token that was put back and a text that was not scanned yet look the same from
here, so the steps of reading are steps on a list of tokens. -/
namespace Gondola

/-! Steps that succeed, one after the other. -/
section Steps

variable {α β : Type}

theorem bind_eq_ok {f : Parse α} {g : α → Parse β} {p p' : Parser} {b : β} :
    (f >>= g) p = .ok b p' ↔ ∃ a q, f p = .ok a q ∧ g a q = .ok b p' := by
  show EStateM.bind f g p = .ok b p' ↔ _
  unfold EStateM.bind
  cases f p with
  | ok a q =>
    constructor
    · exact fun h => ⟨a, q, rfl, h⟩
    · rintro ⟨a', q', he, h⟩
      simp only [EStateM.Result.ok.injEq] at he
      obtain ⟨rfl, rfl⟩ := he
      exact h
  | error e q => simp

theorem bind_of_ok {f : Parse α} {g : α → Parse β} {p q : Parser} {a : α} (h : f p = .ok a q) :
    (f >>= g) p = g a q := by
  show EStateM.bind f g p = _
  unfold EStateM.bind
  rw [h]

theorem pure_eq_ok {a b : α} {p p' : Parser} :
    (pure a : Parse α) p = .ok b p' ↔ a = b ∧ p = p' := by
  show EStateM.Result.ok a p = .ok b p' ↔ _
  simp

theorem throw_ne_ok {e : Failure SyntaxError} {a : α} {p p' : Parser} :
    (throw e : Parse α) p ≠ .ok a p' := by
  show EStateM.Result.error e p ≠ .ok a p'
  simp

end Steps

namespace Parser

/-- The tokens from a token on, given those after it. Nothing counts after the end of input. -/
def preceded {ε : Type} (t : Token) (rest : Except ε (List Token)) : Except ε (List Token) :=
  if t.kind = .eof then .ok [t] else (t :: ·) <$> rest

/-- The tokens that are left to read, up to the end of input. -/
def pending (p : Parser) : Except (Located ScanError) (List Token) :=
  match p.held with
  | some t => preceded t p.scanner.tokens
  | none => p.scanner.tokens

theorem pending_of_held {p : Parser} (h : p.held = none) : p.pending = p.scanner.tokens := by
  rw [pending, h]

theorem preceded_eq_ok {ε : Type} {t u : Token} {rest : Except ε (List Token)} {ts : List Token}
    (h : preceded t rest = .ok (u :: ts)) : t = u ∧ (t.kind ≠ .eof → rest = .ok ts) := by
  unfold preceded at h
  split at h
  · rename_i he
    simp only [Except.ok.injEq, List.cons.injEq] at h
    exact ⟨h.1, fun hn => absurd he hn⟩
  · cases rest with
    | error e => cases h
    | ok us =>
      have h' : t :: us = u :: ts := Except.ok.inj h
      simp only [List.cons.injEq] at h'
      exact ⟨h'.1, fun _ => by rw [h'.2]⟩

/-- Reading from `p` to `p'` takes the tokens `ts` and gives out the numbers `ids`. -/
structure Reads (p : Parser) (ts : List Token) (ids : List Nat) (p' : Parser) : Prop where
  pending : p.pending = (ts ++ ·) <$> p'.pending
  nextId : p'.nextId = p.nextId + ids.length
  ids : ids = List.range' p.nextId ids.length

namespace Reads

variable {p q r : Parser} {ts us : List Token} {ids ids' : List Nat}

theorem of_pending (h : p.pending = q.pending) (hn : q.nextId = p.nextId) : Reads p [] [] q where
  pending := by rw [h]; cases q.pending <;> rfl
  nextId := hn
  ids := rfl

theorem refl (p : Parser) : Reads p [] [] p := of_pending rfl rfl

theorem trans (h : Reads p ts ids q) (h' : Reads q us ids' r) :
    Reads p (ts ++ us) (ids ++ ids') r where
  pending := by
    rw [h.pending, h'.pending]
    cases r.pending with
    | error e => rfl
    | ok vs => exact congrArg Except.ok (List.append_assoc ts us vs).symm
  nextId := by
    rw [h'.nextId, h.nextId, List.length_append, Nat.add_assoc]
  ids := by
    have hr : ids' = List.range' (p.nextId + ids.length) ids'.length := h.nextId ▸ h'.ids
    calc
      ids ++ ids' = List.range' p.nextId ids.length ++
          List.range' (p.nextId + ids.length) ids'.length := by rw [← h.ids, ← hr]
      _ = List.range' p.nextId (ids.length + ids'.length) := by
        rw [List.range'_append_1]
      _ = _ := by rw [List.length_append]

end Reads

/-! What a successful step does. -/
section Sound

variable {p p' : Parser} {t : Token} {kinds : List TokenKind} {kind : TokenKind}

theorem advance_ok (h : advance p = .ok t p') :
    p'.held = none ∧ p'.nextId = p.nextId ∧ p.pending = preceded t p'.pending := by
  unfold advance at h
  cases hh : p.held with
  | some u =>
    rw [hh] at h
    simp only [EStateM.Result.ok.injEq] at h
    obtain ⟨rfl, rfl⟩ := h
    exact ⟨rfl, rfl, by rw [pending, hh, pending]⟩
  | none =>
    rw [hh] at h
    simp only at h
    split at h
    · rename_i u s hn
      simp only [EStateM.Result.ok.injEq] at h
      obtain ⟨rfl, rfl⟩ := h
      refine ⟨rfl, rfl, ?_⟩
      rw [pending_of_held hh, Scanner.tokens_of_ok hn]
      rfl
    · simp at h

theorem advance_of_held {u : Token} (h : advance p = .ok t p') (hu : p.held = some u) : u = t := by
  unfold advance at h
  rw [hu] at h
  simp only [EStateM.Result.ok.injEq] at h
  exact h.1

theorem advance_reads (h : advance p = .ok t p') (ht : t.kind ≠ .eof) : Reads p [t] [] p' where
  pending := by
    rw [(advance_ok h).2.2, preceded, if_neg ht]
    rfl
  nextId := (advance_ok h).2.1
  ids := rfl

theorem pushBack_ok {u : Unit} (h : pushBack t p = .ok u p') :
    p.held = none ∧ p' = { p with held := some t } := by
  unfold pushBack at h
  split at h
  · simp at h
  · rename_i hh
    simp only [EStateM.Result.ok.injEq] at h
    exact ⟨hh, h.2.symm⟩

theorem pushBack_of_held (h : p.held = none) (t : Token) :
    pushBack t p = .ok () { p with held := some t } := by
  unfold pushBack
  rw [h]

theorem putBack_reads {q : Parser} {u : Unit} (h : advance p = .ok t q)
    (h' : pushBack t q = .ok u p') : p'.held = some t ∧ Reads p [] [] p' := by
  obtain ⟨hh, rfl⟩ := pushBack_ok h'
  obtain ⟨-, hn, hp⟩ := advance_ok h
  refine ⟨rfl, .of_pending ?_ hn⟩
  rw [hp, pending_of_held hh]
  rfl

theorem takeAny_ok {o : Option Token} (h : takeAny kinds p = .ok o p') :
    (∃ t, o = some t ∧ t.kind ∈ kinds ∧ advance p = .ok t p') ∨
      (o = none ∧ ∃ t, t.kind ∉ kinds ∧ p'.held = some t ∧ Reads p [] [] p') := by
  obtain ⟨t, q, ht, h⟩ := bind_eq_ok.mp h
  split at h
  · rename_i hk
    obtain ⟨rfl, rfl⟩ := pure_eq_ok.mp h
    exact .inl ⟨t, rfl, hk, ht⟩
  · rename_i hk
    obtain ⟨u, r, hb, h⟩ := bind_eq_ok.mp h
    obtain ⟨rfl, rfl⟩ := pure_eq_ok.mp h
    obtain ⟨hr, hp⟩ := putBack_reads ht hb
    exact .inr ⟨rfl, t, hk, hr, hp⟩

theorem unexpected_ne_ok {α : Type} {e : Expected} {a : α} : unexpected t e p ≠ .ok a p' := by
  unfold unexpected fail
  split <;> exact throw_ne_ok

theorem node_ok {span : Span} {n : Node} (h : node span p = .ok n p') :
    n.span = span ∧ p'.held = p.held ∧ Reads p [] [n.id] p' := by
  unfold node at h
  simp only [EStateM.Result.ok.injEq] at h
  obtain ⟨rfl, rfl⟩ := h
  refine ⟨rfl, rfl, ?_, rfl, rfl⟩
  show p.pending = _ <$> p.pending
  cases p.pending <;> rfl

end Sound

/-! Which steps succeed, by the tokens that are left. -/
section Complete

variable {p : Parser} {t : Token} {ts : List Token}

theorem advance_of_pending (h : p.pending = .ok (t :: ts)) :
    ∃ p', advance p = .ok t p' ∧ p'.held = none ∧ (t.kind ≠ .eof → p'.pending = .ok ts) := by
  suffices hs : ∃ u p', advance p = .ok u p' by
    obtain ⟨u, p', hu⟩ := hs
    obtain ⟨hh, -, hp⟩ := advance_ok hu
    obtain ⟨rfl, hr⟩ := preceded_eq_ok (hp.symm.trans h)
    exact ⟨p', hu, hh, hr⟩
  unfold advance
  cases hh : p.held with
  | some u => exact ⟨u, _, rfl⟩
  | none =>
    rw [pending_of_held hh] at h
    rcases hn : p.scanner.next with ⟨_ | u, s⟩
    · rw [Scanner.tokens_of_error hn] at h
      simp at h
    · exact ⟨u, _, rfl⟩

theorem putBack_of_pending (h : p.pending = .ok (t :: ts)) :
    ∃ q p', advance p = .ok t q ∧ pushBack t q = .ok () p' ∧ p'.held = some t ∧
      p'.pending = .ok (t :: ts) := by
  obtain ⟨q, ha, hh, -⟩ := advance_of_pending h
  have hb := pushBack_of_held hh t
  refine ⟨q, _, ha, hb, rfl, ?_⟩
  have hr := (putBack_reads ha hb).2.pending
  rw [h] at hr
  revert hr
  cases ({ q with held := some t } : Parser).pending with
  | error e => intro hr; cases hr
  | ok us => exact fun hr => hr.symm

end Complete

end Parser

end Gondola
