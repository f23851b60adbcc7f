import Gondola.Proofs.Parser.Pending

/-! What reading takes of a text. A read that fails because the text ends has taken all tokens there are, and with a few
more of them it would have succeeded. -/
namespace Gondola.Parser

variable {α β : Type}

def isFiller : TokenKind → Bool
  | .identifier | .mark _ | .keyword .inKw => true
  | _ => false

/-- Tokens of certain kinds make up something in `G`, whatever the texts and places of each are. -/
inductive Fillable : (List Token → Prop) → Prop
  | done {G} (h : G []) : Fillable G
  | token {G} (k : TokenKind) (hk : isFiller k = true)
      (h : ∀ t : Token, t.kind = k → Fillable fun us => G (t :: us)) : Fillable G

section Fillable

variable {G H : List Token → Prop}

theorem Fillable.andThen (h : Fillable G) (h' : ∀ us, G us → Fillable fun vs => H (us ++ vs)) : Fillable H := by
  induction h generalizing H with
  | done h => exact h' [] h
  | token k hk _ ih => exact .token k hk fun t ht => ih t ht fun us hus => h' (t :: us) hus

theorem Fillable.mono (h : Fillable G) (hGH : ∀ us, G us → H us) : Fillable H :=
  h.andThen fun us hus => .done (by simpa using hGH us hus)

theorem fillable_one (k : TokenKind) (hk : isFiller k = true) (h : ∀ t : Token, t.kind = k → G [t]) : Fillable G :=
  .token k hk fun t ht => .done (h t ht)

end Fillable

/-- The text ends, and what is left of it before the end can be completed. -/
def Open (G : List Token → Prop) (p : Parser) : Prop :=
  ∃ ts stop, stop.kind = .eof ∧ p.pending = .ok (ts ++ [stop]) ∧ Fillable fun us => G (ts ++ us)

section Open

variable {G H : List Token → Prop} {p q : Parser} {ts : List Token} {ids : List Nat}

theorem Open.andThen (h : Open G p) (h' : ∀ us, G us → Fillable fun vs => H (us ++ vs)) : Open H p := by
  obtain ⟨ts, stop, hs, hp, hG⟩ := h
  refine ⟨ts, stop, hs, hp, hG.andThen fun us hus => ?_⟩
  exact (h' _ hus).mono fun vs hvs => List.append_assoc ts us vs ▸ hvs

theorem Open.after (h : Open G q) (hr : Reads p ts ids q) (hGH : ∀ us, G us → H (ts ++ us)) : Open H p := by
  obtain ⟨us, stop, hs, hp, hG⟩ := h
  refine ⟨ts ++ us, stop, hs, ?_, hG.mono fun vs hvs => ?_⟩
  · rw [hr.pending, hp, List.append_assoc]
    rfl
  · rw [List.append_assoc]
    exact hGH _ hvs

theorem Open.mono (h : Open G p) (hGH : ∀ us, G us → H us) : Open H p := h.after (.refl p) hGH

end Open

/-- An outcome that says that the text ended too early. -/
def Starved (r : EStateM.Result (Failure SyntaxError) Parser α) : Prop :=
  ∃ s x q, r = .error (.rejected ⟨s, .prematureEnd x⟩) q

theorem starved_bind {m : Parse α} {f : α → Parse β} {p : Parser} (h : Starved ((m >>= f) p)) :
    Starved (m p) ∨ ∃ a q, m p = .ok a q ∧ Starved (f a q) := by
  obtain ⟨s, x, r, h⟩ := h
  change EStateM.bind m f p = _ at h
  unfold EStateM.bind at h
  cases hm : m p with
  | ok a q =>
    rw [hm] at h
    exact .inr ⟨a, q, rfl, s, x, r, h⟩
  | error e q =>
    rw [hm] at h
    cases h
    exact .inl ⟨s, x, r, rfl⟩

theorem not_starved_pure {a : α} {p : Parser} : ¬ Starved ((pure a : Parse α) p) := by
  rintro ⟨s, x, q, h⟩
  cases h

theorem not_starved_advance {p : Parser} : ¬ Starved (advance p) := by
  rintro ⟨s, x, q, h⟩
  unfold advance at h
  split at h
  · cases h
  · split at h <;> cases h

theorem not_starved_pushBack {p : Parser} {t : Token} : ¬ Starved (pushBack t p) := by
  rintro ⟨s, x, q, h⟩
  unfold pushBack at h
  split at h <;> cases h

/-- What a read is to take: where it stands then, the tokens, the numbers, and its result. -/
abbrev Taking (α : Type) := Parser → List Token → List Nat → α → Prop

def Found (T : Taking α) (ts : List Token) : Prop := ∃ r ids a, T r ts ids a

/-- A read that started at `p` and stands at `q` goes on with `m`, and takes what `T` has in all. -/
structure Continues (p q : Parser) (m : Parse α) (T : Taking α) : Prop where
  taken : ∀ {a r}, m q = .ok a r → ∃ ts ids, Reads p ts ids r ∧ T r ts ids a
  starved : Starved (m q) → Open (Found T) p

/-- A read from `p` on takes what `T` has. Where all of it is missing, it can be filled in. -/
structure Takes (p : Parser) (m : Parse α) (T : Taking α) : Prop
    extends Continues p p m T where
  missing : Fillable (Found T)

/-- The token `t` was taken from `p`, which led to `q`. The end of input can be taken again. -/
inductive Past (p : Parser) (t : Token) (q : Parser) : Prop
  | token (ht : t.kind ≠ .eof) (hr : Reads p [t] [] q)
  | ending (ht : t.kind = .eof) (hp : p.pending = .ok [t])

section Rules

variable {p q q' r : Parser} {m : Parse α} {f : α → Parse β} {T T' : Taking α} {G : Taking α} {F : Taking β}
  {kinds : List TokenKind} {k : TokenKind} {t : Token} {ts : List Token} {ids : List Nat}

theorem Continues.mono (h : Continues p q m T) (hT : ∀ r ts ids a, T r ts ids a → T' r ts ids a) :
    Continues p q m T' where
  taken ha := by
    obtain ⟨ts, ids, hr, ht⟩ := h.taken ha
    exact ⟨ts, ids, hr, hT _ _ _ _ ht⟩
  starved hm := (h.starved hm).mono fun _ ⟨r, ids, a, ht⟩ => ⟨r, ids, a, hT _ _ _ _ ht⟩

theorem Takes.mono (h : Takes p m T) (hT : ∀ r ts ids a, T r ts ids a → T' r ts ids a) :
    Takes p m T' where
  toContinues := h.toContinues.mono hT
  missing := h.missing.mono fun _ ⟨r, ids, a, ht⟩ => ⟨r, ids, a, hT _ _ _ _ ht⟩

theorem Continues.after (hr : Reads p ts ids q)
    (h : Continues q r m fun s us js a => T s (ts ++ us) (ids ++ js) a) : Continues p r m T where
  taken ha := by
    obtain ⟨us, js, hr', ht⟩ := h.taken ha
    exact ⟨_, _, hr.trans hr', ht⟩
  starved hm := (h.starved hm).after hr fun _ ⟨s, _, a, ht⟩ => ⟨s, _, a, ht⟩

section Bind

variable (hf : ∀ r us is a, G r us is a → Takes r (f a) fun s vs js b => F s (us ++ vs) (is ++ js) b)

include hf

theorem fillable_after (us : List Token) (h : Found G us) : Fillable fun vs => Found F (us ++ vs) := by
  obtain ⟨r, is, a, hg⟩ := h
  exact (hf r us is a hg).missing.mono fun _ ⟨s, _, b, ht⟩ => ⟨s, _, b, ht⟩

theorem Continues.bind (hm : Continues p q m G) : Continues p q (m >>= f) F where
  taken hb := by
    obtain ⟨a, r, ha, hb⟩ := bind_eq_ok.mp hb
    obtain ⟨us, is, hr, hg⟩ := hm.taken ha
    obtain ⟨vs, js, hr', ht⟩ := (hf r us is a hg).taken hb
    exact ⟨_, _, hr.trans hr', ht⟩
  starved hb := by
    rcases starved_bind hb with hb | ⟨a, r, ha, hb⟩
    · exact (hm.starved hb).andThen (fillable_after hf)
    · obtain ⟨us, is, hr, hg⟩ := hm.taken ha
      exact ((hf r us is a hg).starved hb).after hr fun _ ⟨s, _, b, ht⟩ => ⟨s, _, b, ht⟩

theorem Takes.bind (hm : Takes p m G) : Takes p (m >>= f) F where
  toContinues := hm.toContinues.bind hf
  missing := hm.missing.andThen (fillable_after hf)

end Bind

theorem takes_pure {a : α} (h : T p [] [] a) : Takes p (pure a) T where
  taken hb := by
    obtain ⟨rfl, rfl⟩ := pure_eq_ok.mp hb
    exact ⟨[], [], .refl p, h⟩
  starved hb := absurd hb not_starved_pure
  missing := Fillable.done ⟨p, [], a, h⟩

section Last

variable (hf : ∀ r us is a, G r us is a → ∃ b, f a = pure b ∧ F r us is b)

include hf

theorem Continues.last (hm : Continues p q m G) : Continues p q (m >>= f) F := by
  refine hm.bind fun r us is a hg => ?_
  obtain ⟨b, hb, ht⟩ := hf r us is a hg
  rw [hb]
  exact takes_pure (by simpa using ht)

theorem Takes.last (hm : Takes p m G) : Takes p (m >>= f) F where
  toContinues := hm.toContinues.last hf
  missing := hm.missing.mono fun us ⟨r, is, a, hg⟩ => by
    obtain ⟨b, -, ht⟩ := hf r us is a hg
    exact ⟨r, is, b, ht⟩

end Last

theorem continues_endless : Continues p q endless T where
  taken ha := absurd ha throw_ne_ok
  starved := by
    rintro ⟨s, x, r, h⟩
    cases h

theorem continues_fail {s : Span} {e : SyntaxError} (he : ∀ x, e ≠ .prematureEnd x) :
    Continues p q (fail s e) T where
  taken ha := absurd ha throw_ne_ok
  starved := by
    rintro ⟨s, x, r, h⟩
    cases h
    exact absurd rfl (he x)

theorem past_of_advance (h : advance p = .ok t q) : Past p t q := by
  by_cases ht : t.kind = .eof
  · refine .ending ht ?_
    rw [(advance_ok h).2.2, preceded, if_pos ht]
  · exact .token ht (advance_reads h ht)

theorem Past.reads (h : Past p t q) (ht : t.kind ≠ .eof) : Reads p [t] [] q := by
  cases h with
  | token _ hr => exact hr
  | ending he => exact absurd he ht

theorem continues_advance {g : Token → Parse α} (h : ∀ t r, advance q = .ok t r → Continues p r (g t) T) :
    Continues p q (advance >>= g) T where
  taken ha := by
    obtain ⟨t, r, ht, ha⟩ := bind_eq_ok.mp ha
    exact (h t r ht).taken ha
  starved ha := by
    rcases starved_bind ha with ha | ⟨t, r, ht, ha⟩
    · exact absurd ha not_starved_advance
    · exact (h t r ht).starved ha

theorem continues_pushBack {g : Unit → Parse α} (ht : advance q = .ok t q')
    (h : ∀ r, r.held = some t → Reads q [] [] r → Continues p r (g ()) T) :
    Continues p q' (pushBack t >>= g) T where
  taken ha := by
    obtain ⟨_, r, hu, ha⟩ := bind_eq_ok.mp ha
    obtain ⟨hh, hr⟩ := putBack_reads ht hu
    exact (h r hh hr).taken ha
  starved ha := by
    rcases starved_bind ha with ha | ⟨_, r, hu, ha⟩
    · exact absurd ha not_starved_pushBack
    · obtain ⟨hh, hr⟩ := putBack_reads ht hu
      exact (h r hh hr).starved ha

/-- A token that does not fit is the end of the text, or no lack of it. -/
theorem continues_unexpected {e : Expected} (ht : Past p t q) (h : Fillable (Found T)) :
    Continues p q (unexpected t e) T where
  taken ha := absurd ha unexpected_ne_ok
  starved := by
    rintro ⟨s, x, r, hx⟩
    unfold unexpected at hx
    split at hx
    · rename_i hk
      cases ht with
      | token hne => exact absurd hk hne
      | ending _ hp => exact ⟨[], t, hk, hp, h⟩
    · cases hx

theorem takes_consume {f : Token → Parse β} (hk : isFiller k = true)
    (hf : ∀ r t, t.kind = k → Takes r (f t) fun s vs js b => F s (t :: vs) js b) :
    Takes p (consume k >>= f) F := by
  have hconsume : Takes p (consume k) fun _ ts ids t => t.kind = k ∧ ts = [t] ∧ ids = [] := by
    have hmissing : Fillable (Found fun _ ts ids t => t.kind = k ∧ ts = [t] ∧ ids = []) :=
      fillable_one k hk fun t ht => ⟨p, [], t, ht, rfl, rfl⟩
    refine ⟨continues_advance fun t r ht => ?_, hmissing⟩
    split
    · rename_i htk
      have hne : t.kind ≠ .eof := by
        rw [htk]
        rintro rfl
        cases hk
      exact .after (advance_reads ht hne) (takes_pure ⟨htk, rfl, rfl⟩).toContinues
    · exact continues_unexpected (past_of_advance ht) hmissing
  refine hconsume.bind ?_
  rintro r _ _ t ⟨ht, rfl, rfl⟩
  exact hf r t ht

theorem takes_name (p : Parser) : Takes p ident fun _ ts ids x =>
    ∃ t : Token, t.kind = .identifier ∧ x = ⟨t.text, t.span⟩ ∧ ts = [t] ∧ ids = [] :=
  takes_consume rfl fun _ t ht => takes_pure ⟨t, ht, rfl, rfl, rfl⟩

theorem takes_ident {f : Ident → Parse β}
    (hf : ∀ r t, t.kind = .identifier → Takes r (f ⟨t.text, t.span⟩) fun s vs js b => F s (t :: vs) js b) :
    Takes p (ident >>= f) F := by
  refine (takes_name p).bind ?_
  rintro r _ _ _ ⟨t, ht, rfl, rfl, rfl⟩
  exact hf r t ht

theorem takes_node {s : Span} {f : Node → Parse β}
    (hf : ∀ r n, n.span = s → r.held = p.held → Takes r (f n) fun r vs js b => F r vs (n.id :: js) b) :
    Takes p (node s >>= f) F := by
  have hnode : Takes p (node s) fun r ts ids n => n.span = s ∧ r.held = p.held ∧ ts = [] ∧ ids = [n.id] := by
    refine ⟨⟨fun ha => ?_, ?_⟩, Fillable.done ⟨p, _, ⟨0, s⟩, rfl, rfl, rfl, rfl⟩⟩
    · obtain ⟨hn, hh, hr⟩ := node_ok ha
      exact ⟨_, _, hr, hn, hh, rfl, rfl⟩
    · rintro ⟨_, x, r, h⟩
      cases h
  refine hnode.bind ?_
  rintro r _ _ n ⟨hn, hh, rfl, rfl⟩
  exact hf r n hn hh

/-- What follows a token that may be there. Where it is missing, so is what it would have brought. -/
theorem takes_takeAny {f : Option Token → Parse β} (hk : .eof ∉ kinds)
    (hsome : ∀ r t, t.kind ∈ kinds → Continues r r (f (some t)) fun s vs js b => F s (t :: vs) js b)
    (hnone : ∀ r, Takes r (f none) F) : Takes p (takeAny kinds >>= f) F := by
  have hne : ¬ Starved (takeAny kinds p) := by
    intro h
    rcases starved_bind h with h | ⟨t, r, -, h⟩
    · exact not_starved_advance h
    · split at h
      · exact not_starved_pure h
      · rcases starved_bind h with h | ⟨_, _, -, h⟩
        · exact not_starved_pushBack h
        · exact not_starved_pure h
  have hall {o : Option Token} {r : Parser} (ho : takeAny kinds p = .ok o r) : Continues p r (f o) F := by
    rcases takeAny_ok ho with ⟨t, rfl, ht, ha⟩ | ⟨rfl, -, -, -, hr⟩
    · exact .after (advance_reads ha fun he => hk (he ▸ ht)) (hsome r t ht)
    · exact .after hr (hnone r).toContinues
  refine ⟨⟨fun hb => ?_, fun hb => ?_⟩, (hnone p).missing⟩
  · obtain ⟨o, r, ho, hb⟩ := bind_eq_ok.mp hb
    exact (hall ho).taken hb
  · obtain ⟨o, r, ho, hb⟩ := (starved_bind hb).resolve_left hne
    exact (hall ho).starved hb

theorem takes_take {f : Option Token → Parse β} (hk : k ≠ .eof)
    (hsome : ∀ r t, t.kind = k → Continues r r (f (some t)) fun s vs js b => F s (t :: vs) js b)
    (hnone : ∀ r, Takes r (f none) F) : Takes p (take k >>= f) F :=
  takes_takeAny (by simpa using hk.symm) (fun r t ht => hsome r t (List.mem_singleton.mp ht)) hnone

end Rules

end Gondola.Parser
