import Gondola.Proofs.Token.Lexing
import Gondola.Proofs.Token.Lossless

/-! What stands between the quotes of a string literal: plain characters, and backslashes with the character that each
of them takes. A text can be split in one way only. -/
namespace Gondola

namespace Literal

def escapes : List (Char × Char) :=
  [('"', '"'), ('\'', '\''), ('\\', '\\'), ('n', '\n'), ('r', '\r'), ('t', '\t'), ('b', '\x08'), ('f', '\x0c'),
    ('v', '\x0b'), ('0', '\x00')]

inductive Piece where
  | plain (c : Char) (hquote : c ≠ '"') (hslash : c ≠ '\\')
  | pair (c : Char)

namespace Piece

def chars : Piece → List Char
  | plain c _ _ => [c]
  | pair c => ['\\', c]

/-- What a piece stands for. A pair that is not among the escapes is kept. -/
def text : Piece → List Char
  | plain c _ _ => [c]
  | pair c => (escapes.lookup c).elim ['\\', c] fun d => [d]

theorem text_pair (c : Char) : (pair c).text = escape c := by
  unfold escape
  split
  case h_11 hquote hsingle hslash hn hr ht hb hf hv hzero =>
    have hnone : escapes.lookup c = none := by
      rw [List.lookup_eq_none_iff]
      intro p hp
      rw [bne_iff_ne]
      rintro rfl
      simp only [escapes, List.mem_cons, List.not_mem_nil, or_false] at hp
      rcases hp with rfl | rfl | rfl | rfl | rfl | rfl | rfl | rfl | rfl | rfl
      all_goals contradiction
    rw [text, hnone, Option.elim_none]
  all_goals rfl

theorem text_ne_nil (p : Piece) : p.text ≠ [] := by
  cases p with
  | plain => exact List.cons_ne_nil _ _
  | pair c =>
    rw [text]
    cases escapes.lookup c with
    | none => exact List.cons_ne_nil _ _
    | some d => exact List.cons_ne_nil _ _

end Piece

def spelled (ps : List Piece) : List Char := ps.flatMap Piece.chars

/-- A backslash never takes the closing quote, so that the pieces before it can be read off. -/
theorem spelled_append_inj {ps qs : List Piece} {rest rest' : List Char}
    (h : spelled ps ++ '"' :: rest = spelled qs ++ '"' :: rest') : ps = qs ∧ rest = rest' := by
  induction ps generalizing qs with
  | nil =>
    cases qs with
    | nil => exact ⟨rfl, (List.cons.inj h).2⟩
    | cons q qs =>
      cases q with
      | plain c hquote _ => exact absurd (List.cons.inj h).1.symm hquote
      | pair c => exact absurd (List.cons.inj h).1 (by decide)
  | cons p ps ih =>
    cases p with
    | plain c hquote hslash =>
      cases qs with
      | nil => exact absurd (List.cons.inj h).1 hquote
      | cons q qs =>
        cases q with
        | plain d _ _ =>
          obtain ⟨rfl, htail⟩ := List.cons.inj h
          obtain ⟨rfl, hrest⟩ := ih htail
          exact ⟨rfl, hrest⟩
        | pair d => exact absurd (List.cons.inj h).1 hslash
    | pair c =>
      cases qs with
      | nil => exact absurd (List.cons.inj h).1 (by decide)
      | cons q qs =>
        cases q with
        | plain d _ hslash => exact absurd (List.cons.inj h).1.symm hslash
        | pair d =>
          obtain ⟨-, hpair⟩ := List.cons.inj h
          obtain ⟨rfl, htail⟩ := List.cons.inj hpair
          obtain ⟨rfl, hrest⟩ := ih htail
          exact ⟨rfl, hrest⟩

theorem spelled_injective {ps qs : List Piece} (h : spelled ps = spelled qs) : ps = qs :=
  (spelled_append_inj (congrArg (· ++ ['"']) h)).1

theorem exists_pair_of_quote {ps : List Piece} {before after : List Char}
    (h : spelled ps = before ++ '"' :: after) :
    ∃ qs rs, ps = qs ++ .pair '"' :: rs ∧ before = spelled qs ++ ['\\'] ∧ after = spelled rs := by
  induction ps generalizing before with
  | nil => cases before <;> cases h
  | cons p ps ih =>
    cases p with
    | plain c hquote hslash =>
      cases before with
      | nil => exact absurd (List.cons.inj h).1 hquote
      | cons b before =>
        obtain ⟨hhead, htail⟩ := List.cons.inj h
        obtain ⟨qs, rs, rfl, rfl, rfl⟩ := ih htail
        refine ⟨.plain c hquote hslash :: qs, rs, rfl, ?_, rfl⟩
        rw [← show c = b from hhead]
        rfl
    | pair c =>
      cases before with
      | nil => exact absurd (List.cons.inj h).1 (by decide)
      | cons b before =>
        obtain ⟨hhead, htail⟩ := List.cons.inj h
        cases before with
        | nil =>
          obtain ⟨hquote, rfl⟩ := List.cons.inj htail
          refine ⟨[], ps, ?_, ?_, rfl⟩
          · rw [show c = '"' from hquote]
            rfl
          · rw [← show '\\' = b from hhead]
            rfl
        | cons b' before =>
          obtain ⟨hsecond, htail⟩ := List.cons.inj htail
          obtain ⟨qs, rs, rfl, rfl, rfl⟩ := ih htail
          refine ⟨.pair c :: qs, rs, rfl, ?_, rfl⟩
          rw [← show '\\' = b from hhead, ← show c = b' from hsecond]
          rfl

theorem body?_spelled (ps : List Piece) (rest : List Char) :
    body? (spelled ps ++ '"' :: rest) = some (spelled ps, rest) := by
  induction ps with
  | nil => rfl
  | cons p ps ih =>
    cases p with
    | plain c hquote hslash =>
      show body? (c :: (spelled ps ++ '"' :: rest)) = _
      rw [body?_plain _ hquote hslash, ih]
      rfl
    | pair c =>
      show body? ('\\' :: c :: (spelled ps ++ '"' :: rest)) = _
      rw [body?, ih]
      rfl

theorem exists_pieces_of_body? {cs body rest : List Char} (h : body? cs = some (body, rest)) :
    ∃ ps, body = spelled ps := by
  fun_induction body? cs generalizing body with
  | case1 => cases h
  | case2 cs =>
    obtain ⟨rfl, rfl⟩ := Prod.mk.inj (Option.some.inj h)
    exact ⟨[], rfl⟩
  | case3 c cs ih =>
    obtain ⟨⟨b, r⟩, hp, he⟩ := Option.map_eq_some_iff.mp h
    obtain ⟨rfl, rfl⟩ := Prod.mk.inj he
    obtain ⟨ps, rfl⟩ := ih hp
    exact ⟨.pair c :: ps, rfl⟩
  | case4 c cs hquote hslash ih =>
    obtain ⟨⟨b, r⟩, hp, he⟩ := Option.map_eq_some_iff.mp h
    obtain ⟨rfl, rfl⟩ := Prod.mk.inj he
    obtain ⟨ps, rfl⟩ := ih hp
    have hplain : c ≠ '\\' := by
      rintro rfl
      -- A backslash at the very end would leave the literal open.
      cases cs with
      | nil => cases hp
      | cons d ds => exact hslash d ds rfl rfl
    exact ⟨.plain c hquote hplain :: ps, rfl⟩

theorem body?_eq_some_iff {cs body rest : List Char} :
    body? cs = some (body, rest) ↔ ∃ ps, body = spelled ps ∧ cs = spelled ps ++ '"' :: rest := by
  constructor
  · intro h
    obtain ⟨ps, rfl⟩ := exists_pieces_of_body? h
    exact ⟨ps, rfl, (body?_append h).symm⟩
  · rintro ⟨ps, rfl, rfl⟩
    exact body?_spelled ps rest

/-- Both ways to go through a literal, for its end and for its text, take the same pairs. -/
theorem decode_spelled (ps : List Piece) : decode (spelled ps) = ps.flatMap Piece.text := by
  induction ps with
  | nil => rfl
  | cons p ps ih =>
    rw [List.flatMap_cons, ← ih]
    cases p with
    | plain c hquote hslash => exact decode_plain _ hslash
    | pair c =>
      rw [Piece.text_pair]
      show decode ('\\' :: c :: spelled ps) = _
      rw [decode]

theorem length_le_texts (ps : List Piece) : ps.length ≤ (ps.flatMap Piece.text).length := by
  induction ps with
  | nil => exact Nat.le_refl 0
  | cons p ps ih =>
    have hpos := List.length_pos_iff.mpr p.text_ne_nil
    rw [List.flatMap_cons, List.length_append, List.length_cons]
    omega

/-- How the text behind an opening quote is read: the pieces up to the closing quote, and what follows it. -/
structure ReadAs (cs : List Char) (ps : List Piece) (rest : List Char) (text : String) : Prop where
  split : cs = spelled ps ++ '"' :: rest
  unique : ∀ qs, spelled qs = spelled ps → qs = ps
  /-- No other quote is the end of pieces. -/
  closing : ∀ qs after, cs = spelled qs ++ '"' :: after → qs = ps ∧ after = rest
  /-- The quotes before the closing one are second halves of pairs. -/
  earlier : ∀ before after, spelled ps = before ++ '"' :: after →
    ∃ qs rs, ps = qs ++ .pair '"' :: rs ∧ before = spelled qs ++ ['\\'] ∧ after = spelled rs
  decoded : text.toList = ps.flatMap Piece.text
  /-- Each piece leaves something in the text. -/
  kept : ps.length ≤ text.length

theorem readAs_spelled (ps : List Piece) (rest : List Char) :
    ReadAs (spelled ps ++ '"' :: rest) ps rest (String.ofList (decode (spelled ps))) where
  split := rfl
  unique _ h := spelled_injective h
  closing qs after h := by
    obtain ⟨rfl, rfl⟩ := spelled_append_inj h
    exact ⟨rfl, rfl⟩
  earlier _ _ h := exists_pair_of_quote h
  decoded := by rw [String.toList_ofList, decode_spelled]
  kept := by
    rw [String.length_ofList, decode_spelled]
    exact length_le_texts ps

/-- The pieces that stand for the characters of a text, with a backslash only where one is needed. -/
def pieceOf (c : Char) : Piece :=
  if h : c = '"' ∨ c = '\\' then .pair c else .plain c (fun hc => h (.inl hc)) fun hc => h (.inr hc)

/-- A literal with a backslash before each quote and backslash of the text. -/
def masked (text : String) : String :=
  String.ofList ('"' :: text.toList.flatMap (fun c => if c = '"' ∨ c = '\\' then ['\\', c] else [c]) ++ ['"'])

theorem chars_pieceOf (c : Char) : (pieceOf c).chars = if c = '"' ∨ c = '\\' then ['\\', c] else [c] := by
  unfold pieceOf
  split
  · rfl
  · rfl

theorem text_pieceOf (c : Char) : (pieceOf c).text = [c] := by
  unfold pieceOf
  split
  · rename_i h
    rcases h with rfl | rfl
    · rfl
    · rfl
  · rfl

theorem toList_masked (text : String) :
    (masked text).toList = '"' :: (spelled (text.toList.map pieceOf) ++ ['"']) := by
  rw [masked, String.toList_ofList, spelled, List.flatMap_map]
  simp only [chars_pieceOf, List.cons_append]

theorem texts_pieceOf (cs : List Char) : (cs.map pieceOf).flatMap Piece.text = cs := by
  rw [List.flatMap_map]
  simp only [text_pieceOf, List.flatMap_singleton']

end Literal

namespace Lexeme

variable {c : Char} {cs : List Char} {l : Lexeme}

theorem first?_spelled (ps : List Literal.Piece) (rest : List Char) :
    first? '"' (Literal.spelled ps ++ '"' :: rest) = some
      ⟨.string, '"' :: Literal.spelled ps ++ ['"'], Literal.decode (Literal.spelled ps), rest⟩ := by
  unfold first?
  rw [if_pos rfl, ofString?, Literal.body?_spelled]
  rfl

theorem first?_string (hl : first? c cs = some l) (hk : l.kind = .string) :
    c = '"' ∧ ∃ ps, cs = Literal.spelled ps ++ '"' :: l.rest ∧ l.text = Literal.decode (Literal.spelled ps) := by
  unfold first? at hl
  split at hl
  · rename_i hc
    obtain ⟨⟨body, rest⟩, hbody, rfl⟩ := Option.map_eq_some_iff.mp hl
    obtain ⟨ps, rfl, hcs⟩ := Literal.body?_eq_some_iff.mp hbody
    exact ⟨hc, ps, hcs, rfl⟩
  · split at hl
    · obtain rfl := Option.some.inj hl
      exact absurd hk (ofSymbol_plain c []).1
    · split at hl
      · obtain rfl := Option.some.inj hl
        cases hk
      · obtain rfl := Option.some.inj hl
        exact absurd hk (ofSymbol_plain c _).1

end Lexeme

namespace Literal

theorem readAs_of_next {s s' : Scanner} {t : Token} (h : s.next = (.ok t, s')) (ht : t.kind = .string) :
    ∃ cs ps, s.text = '"' :: cs ∧ ReadAs cs ps s'.rest t.text := by
  cases Scanner.finds_of_next h with
  | ending => cases ht
  | @token c cs l htext hl =>
    obtain ⟨rfl, ps, hcs, hl⟩ := Lexeme.first?_string hl ht
    refine ⟨cs, ps, htext, ?_⟩
    show ReadAs cs ps l.rest (String.ofList l.text)
    rw [hcs, hl]
    exact readAs_spelled ps l.rest

theorem tokenize_masked (text : String) :
    ∃ t stop, tokenize (masked text) = .ok [t, stop] ∧ t.kind = .string ∧ t.text = text ∧ stop.kind = .eof := by
  have hlexes : Lexes (masked text).toList fun ts => ∃ t, ts = [t] ∧ t.kind = .string ∧ t.text = text := by
    rw [toList_masked]
    apply Lexes.single (isBlank_of_visible (by decide)) (by decide) (Lexeme.first?_spelled _ []) rfl
    intro t hk ht
    refine ⟨t, rfl, hk, ?_⟩
    rw [ht, decode_spelled, texts_pieceOf, String.ofList_toList]
  obtain ⟨_, stop, htokens, hstop, t, rfl, hk, ht⟩ := hlexes.tokens {} false
  exact ⟨t, stop, htokens, hk, ht, hstop⟩

end Literal

/-- A string is scanned piece by piece. Its text is what the pieces stand for, wherever pieces and a quote follow an
opening quote there is one, and every text can be written as a string. -/
theorem literal_read_by_pieces :
    (∀ (s s' : Scanner) (t : Token), s.next = (.ok t, s') → t.kind = .string →
      ∃ cs ps, s.text = '"' :: cs ∧ Literal.ReadAs cs ps s'.rest t.text) ∧
    (∀ (s : Scanner) (ps : List Literal.Piece) (rest : List Char),
      s.text = '"' :: (Literal.spelled ps ++ '"' :: rest) →
      ∃ t s', s.next = (.ok t, s') ∧ t.kind = .string ∧ s'.rest = rest ∧
        Literal.ReadAs (Literal.spelled ps ++ '"' :: rest) ps rest t.text) ∧
    ∀ text : String, ∃ t stop, tokenize (Literal.masked text) = .ok [t, stop] ∧ t.kind = .string ∧
      t.text = text ∧ stop.kind = .eof := by
  refine ⟨fun s s' t h ht => Literal.readAs_of_next h ht, fun s ps rest h => ?_, Literal.tokenize_masked⟩
  refine ⟨_, _, Scanner.next_of_token h (Lexeme.first?_spelled ps rest), rfl, rfl, ?_⟩
  exact Literal.readAs_spelled ps rest

/-- Two backslashes before a quote do not take it, three do, and an unknown pair stays. -/
theorem literal_read_by_pieces_backslashes :
    (Scanner.ofString " \"\\\\\\\"\\q\\\\\" x").text =
      '"' :: (Literal.spelled [.pair '\\', .pair '"', .pair 'q', .pair '\\'] ++ '"' :: [' ', 'x']) ∧
    ∃ t s', (Scanner.ofString " \"\\\\\\\"\\q\\\\\" x").next = (.ok t, s') ∧ t.kind = .string ∧
      s'.rest = [' ', 'x'] ∧ t.text.toList = ['\\', '"', '\\', 'q', '\\'] := by
  have htext : (Scanner.ofString " \"\\\\\\\"\\q\\\\\" x").text =
      '"' :: (Literal.spelled [.pair '\\', .pair '"', .pair 'q', .pair '\\'] ++ '"' :: [' ', 'x']) := by decide
  obtain ⟨t, s', hnext, ht, hrest, hread⟩ := literal_read_by_pieces.2.1 _ _ _ htext
  exact ⟨htext, t, s', hnext, ht, hrest, hread.decoded⟩

end Gondola
