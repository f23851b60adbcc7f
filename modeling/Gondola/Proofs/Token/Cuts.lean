import Gondola.Proofs.Token.Places
import Mathlib.Data.String.Basic

/-! Cutting a text between two of its tokens. A token looks at most at the character after it, and a cut can only take
that character away. -/
namespace Gondola

open Text

theorem splitTrivia_cut {inComment : Bool} {cs ds gap text : List Char}
    (h : splitTrivia inComment (cs ++ ds) = (gap, text ++ ds)) (htext : text ≠ []) :
    splitTrivia inComment cs = (gap, text) := by
  fun_induction splitTrivia inComment cs generalizing gap with
  | case1 inComment =>
    have hall := congrArg List.length (splitTrivia_append inComment ds)
    have hlen := List.length_pos_iff.mpr htext
    rw [← List.nil_append ds, h, List.length_append, List.length_append, List.nil_append] at hall
    omega
  | case2 c cs gap' text' hrest ih =>
    rw [List.cons_append, splitTrivia] at h
    obtain ⟨rfl, htail⟩ := Prod.mk.inj h
    obtain ⟨rfl, rfl⟩ := Prod.mk.inj (hrest.symm.trans (ih (Prod.ext rfl htail)))
    rfl
  | case3 cs gap' text' hrest ih =>
    rw [List.cons_append, List.cons_append, splitTrivia] at h
    obtain ⟨rfl, htail⟩ := Prod.mk.inj h
    obtain ⟨rfl, rfl⟩ := Prod.mk.inj (hrest.symm.trans (ih (Prod.ext rfl htail)))
    rfl
  | case4 c cs hslash hblank gap' text' hrest ih =>
    rw [List.cons_append, splitTrivia_of_blank _ hblank] at h
    obtain ⟨rfl, htail⟩ := Prod.mk.inj h
    obtain ⟨rfl, rfl⟩ := Prod.mk.inj (hrest.symm.trans (ih (Prod.ext rfl htail)))
    rfl
  | case5 c cs hslash hblank =>
    by_cases hcomment : c = '/' ∧ (cs ++ ds).head? = some '/'
    · -- Only if nothing is left of the token can the cut go through the start of a comment.
      obtain ⟨rfl, hhead⟩ := hcomment
      cases cs with
      | cons d cs =>
        obtain rfl : d = '/' := Option.some.inj hhead
        exact absurd rfl (hslash cs rfl)
      | nil =>
        obtain ⟨ds, rfl⟩ := List.head?_eq_some_iff.mp hhead
        have hall := congrArg List.length (splitTrivia_append true ds)
        have hlen := congrArg List.length (Prod.mk.inj h).2
        rw [List.length_append] at hall
        simp only [List.length_append, List.length_cons] at hlen
        omega
    · rw [not_and] at hcomment
      rw [List.cons_append, splitTrivia_of_text (by simpa using hblank) hcomment] at h
      obtain ⟨rfl, htail⟩ := Prod.mk.inj h
      rw [← List.cons_append] at htail
      rw [List.append_cancel_right htail]

theorem splitTrivia_splitTrivia (inComment : Bool) (cs : List Char) :
    splitTrivia false (splitTrivia inComment cs).2 = ([], (splitTrivia inComment cs).2) := by
  fun_induction splitTrivia inComment cs with
  | case1 => rfl
  | case2 _ _ _ _ hrest ih | case3 _ _ _ hrest ih | case4 _ _ _ _ _ _ hrest ih =>
    rw [hrest] at ih
    exact ih
  | case5 c cs hslash hblank =>
    apply splitTrivia_of_text (by simpa using hblank)
    rintro rfl hhead
    obtain ⟨ds, rfl⟩ := List.head?_eq_some_iff.mp hhead
    exact hslash ds rfl rfl

theorem Literal.body?_change {cs body rest : List Char} (h : body? cs = some (body, rest)) (ds : List Char) :
    body? (body ++ '"' :: ds) = some (body, ds) := by
  fun_induction body? cs generalizing body with
  | case1 => cases h
  | case2 cs =>
    obtain ⟨rfl, rfl⟩ := Prod.mk.inj (Option.some.inj h)
    rfl
  | case3 c cs ih =>
    obtain ⟨⟨b, r⟩, hp, he⟩ := Option.map_eq_some_iff.mp h
    obtain ⟨rfl, rfl⟩ := Prod.mk.inj he
    simp only [List.cons_append, body?, ih hp, Option.map_some]
  | case4 c cs hquote hslash ih =>
    obtain ⟨⟨b, r⟩, hp, he⟩ := Option.map_eq_some_iff.mp h
    obtain ⟨rfl, rfl⟩ := Prod.mk.inj he
    rw [List.cons_append, body?, ih hp]
    · rfl
    · exact hquote
    · rintro d ds' rfl -
      -- A backslash takes the next character, and there is one, or the literal had no end.
      cases cs with
      | nil => cases hp
      | cons e es => exact hslash e es rfl rfl

namespace Lexeme

theorem span_cut {p : Char → Bool} {cs ds rest : List Char} (h : (cs ++ ds).dropWhile p = rest ++ ds) :
    cs.takeWhile p = (cs ++ ds).takeWhile p ∧ cs.dropWhile p = rest := by
  induction cs with
  | nil =>
    have hnil : rest = [] := by
      have hlen : (ds.dropWhile p).length ≤ ds.length := (List.dropWhile_suffix p).length_le
      rw [← List.nil_append ds, h, List.length_append, List.nil_append] at hlen
      exact List.eq_nil_of_length_eq_zero (by omega)
    subst hnil
    cases ds with
    | nil => exact ⟨rfl, rfl⟩
    | cons d ds =>
      have hd : p d = false := by
        rw [Bool.eq_false_iff]
        intro hd
        have hlen : (ds.dropWhile p).length ≤ ds.length := (List.dropWhile_suffix p).length_le
        simp only [List.nil_append, List.dropWhile_cons, if_pos hd] at h
        rw [h, List.length_cons] at hlen
        omega
      simp [hd]
  | cons c cs ih =>
    by_cases hc : p c = true
    · rw [List.cons_append, List.dropWhile_cons, if_pos hc] at h
      simp [hc, ih h]
    · rw [List.cons_append, List.dropWhile_cons, if_neg hc, ← List.cons_append] at h
      obtain rfl := List.append_cancel_right h
      simp [hc]

/-- The same lexeme with other text after it. -/
def before (l : Lexeme) (rest : List Char) : Lexeme := { l with rest := rest }

theorem ofSymbol_cut {c : Char} {cs ds rest : List Char} (h : (ofSymbol c (cs ++ ds)).rest = rest ++ ds) :
    ofSymbol c cs = (ofSymbol c (cs ++ ds)).before rest := by
  unfold ofSymbol at h ⊢
  cases hm : Mark.ofChar? c with
  | some m =>
    simp only [hm, plain] at h
    rw [List.append_cancel_right h]
    rfl
  | none =>
    simp only [hm] at h
    by_cases hs : startsName c = true
    · simp only [hs, if_true] at h ⊢
      obtain ⟨htake, hdrop⟩ := span_cut h
      simp only [ofWord, htake, hdrop]
      rfl
    · by_cases hd : isDigit c = true
      · simp only [hs, hd, if_true] at h ⊢
        obtain ⟨htake, hdrop⟩ := span_cut h
        simp only [ofDigits, htake, hdrop]
        rfl
      · simp only [hs, hd, plain] at h ⊢
        rw [List.append_cancel_right h]
        rfl

theorem first?_cut {c : Char} {cs ds rest : List Char} {l : Lexeme} (hl : first? c (cs ++ ds) = some l)
    (h : l.rest = rest ++ ds) : first? c cs = some (l.before rest) := by
  unfold first? at hl ⊢
  by_cases hc : c = '"'
  · rw [if_pos hc] at hl ⊢
    obtain ⟨⟨body, r⟩, hbody, rfl⟩ := Option.map_eq_some_iff.mp hl
    obtain rfl : r = rest ++ ds := h
    have hcs : body ++ '"' :: rest = cs := by
      have happend := Literal.body?_append hbody
      rw [← List.cons_append, ← List.append_assoc] at happend
      exact List.append_cancel_right happend
    unfold ofString?
    rw [← hcs, Literal.body?_change hbody rest]
    rfl
  · rw [if_neg hc] at hl ⊢
    cases cs with
    | nil =>
      cases ds with
      | nil =>
        obtain rfl := Option.some.inj hl
        exact congrArg some (ofSymbol_cut h)
      | cons d ds =>
        simp only [List.nil_append] at hl
        cases hp : Mark.ofPair? c d with
        | some m =>
          -- A pair would reach beyond the cut.
          rw [hp] at hl
          obtain rfl := Option.some.inj hl
          have hlen : ds.length = (rest ++ d :: ds).length := congrArg List.length h
          simp at hlen
          omega
        | none =>
          rw [hp] at hl
          obtain rfl := Option.some.inj hl
          exact congrArg some (ofSymbol_cut h)
    | cons e es =>
      simp only [List.cons_append] at hl ⊢
      cases hp : Mark.ofPair? c e with
      | some m =>
        rw [hp] at hl
        obtain rfl := Option.some.inj hl
        rw [show es = rest from List.append_cancel_right h]
        rfl
      | none =>
        rw [hp] at hl
        obtain rfl := Option.some.inj hl
        exact congrArg some (ofSymbol_cut h)

end Lexeme

theorem Position.offset_after (p : Position) (cs : List Char) : (p.after cs).offset = p.offset + byteLength cs := by
  induction cs generalizing p with
  | nil => rfl
  | cons c cs ih =>
    have hstep : (p.step c).offset = p.offset + c.utf8Size := by
      unfold Position.step
      split <;> rfl
    rw [← List.singleton_append, Position.after_append, ih, byteLength_append, byteLength_singleton]
    show (p.step c).offset + _ = _
    omega

namespace Span

/-- The text under a span. -/
def cut (source : String) (s : Span) : String := String.Pos.Raw.extract source ⟨s.lo⟩ ⟨s.hi⟩

theorem cut_of_append {source : String} {before inside after : List Char} {s : Span}
    (h : source.toList = before ++ inside ++ after) (hlo : s.lo = byteLength before)
    (hhi : s.hi = byteLength (before ++ inside)) : s.cut source = String.ofList inside := by
  have hsource : source = String.ofList (before ++ inside ++ after) := by rw [← h, String.ofList_toList]
  rw [cut, hlo, hhi, byteLength_append, byteLength, byteLength, String.utf8ByteSize_ofList,
    String.utf8ByteSize_ofList, hsource]
  exact String.extract_of_valid before inside after

end Span

namespace Scanner

theorem here_le_start (s : Scanner) : s.here.offset ≤ s.start.offset := by
  rw [start, Position.offset_after]
  omega

theorem text_suffix (s : Scanner) : s.text <:+ s.rest := ⟨_, splitTrivia_append false s.rest⟩

theorem rest_suffix_text {s s' : Scanner} {t : Token} (h : s.next = (.ok t, s')) : s'.rest <:+ s.text := by
  cases finds_of_next h with
  | ending => exact List.nil_suffix
  | @token c cs l htext hl => exact ⟨l.chars, (Lexeme.first?_append hl).trans htext.symm⟩

theorem start_le_next {s s' : Scanner} {t : Token} (h : s.next = (.ok t, s')) :
    s.start.offset ≤ s'.here.offset := by
  cases finds_of_next h with
  | ending => exact Nat.le_refl _
  | token =>
    rw [Position.offset_after]
    omega

theorem StandsIn.offset_le {source : String} {s : Scanner} (h : StandsIn source s) :
    s.here.offset ≤ source.utf8ByteSize := by
  obtain ⟨read, hsource, hhere⟩ := h
  have htotal : byteLength (read ++ s.rest) = source.utf8ByteSize := by
    rw [← hsource, byteLength, String.ofList_toList]
  rw [hhere, Position.after_eq, ← htotal, byteLength_append]
  exact Nat.le_add_right _ _

theorem next_cut {s s' : Scanner} {t : Token} {cs ds rest : List Char} (h : s.next = (.ok t, s'))
    (ht : t.kind ≠ .eof) (hs : s.rest = cs ++ ds) (hs' : s'.rest = rest ++ ds) (done : Bool) :
    next ⟨cs, s.here, done⟩ = (.ok t, ⟨rest, s'.here, false⟩) := by
  cases finds_of_next h with
  | ending => exact absurd rfl ht
  | @token c xs l htext hl =>
    have hall : l.chars ++ (rest ++ ds) = c :: xs := by
      rw [← Lexeme.first?_append hl, ← hs']
    obtain ⟨ys, hys⟩ : ∃ ys, l.chars = c :: ys := by
      cases hchars : l.chars with
      | nil => exact absurd hchars (Lexeme.first?_chars_ne_nil hl)
      | cons d ys =>
        rw [hchars] at hall
        exact ⟨ys, by rw [(List.cons.inj hall).1]⟩
    have hxs : xs = ys ++ rest ++ ds := by
      rw [hys] at hall
      rw [List.append_assoc, ← (List.cons.inj hall).2]
      rfl
    have hwhole : splitTrivia false (cs ++ ds) =
        ((splitTrivia false s.rest).1, c :: (ys ++ rest) ++ ds) := by
      refine Prod.ext (by rw [hs]) ?_
      rw [← hs]
      show s.text = _
      rw [htext, hxs]
      rfl
    have hsplit : splitTrivia false cs = ((splitTrivia false s.rest).1, c :: (ys ++ rest)) :=
      splitTrivia_cut hwhole (List.cons_ne_nil _ _)
    have hl' : Lexeme.first? c (ys ++ rest) = some (l.before rest) :=
      Lexeme.first?_cut (hxs ▸ hl) hs'
    have hstart : start ⟨cs, s.here, done⟩ = s.start := by rw [start, hsplit]; rfl
    have htext' : text ⟨cs, s.here, done⟩ = c :: (ys ++ rest) := by rw [text, hsplit]
    rw [next_of_token htext' hl', hstart]
    rfl

theorem next_text (s : Scanner) : next ⟨s.text, s.start, s.done⟩ = s.next := by
  have hsplit : splitTrivia false s.text = ([], s.text) := splitTrivia_splitTrivia false s.rest
  simp only [next, hsplit]
  rfl

/-- Scanning finds the tokens, one after the other, and the end of input is not among them. -/
inductive Scans : Scanner → List Token → Scanner → Prop
  | nil (s : Scanner) : Scans s [] s
  | cons {s s₁ s₂ t ts} (h : s.next = (.ok t, s₁)) (ht : t.kind ≠ .eof) (hrest : Scans s₁ ts s₂) :
      Scans s (t :: ts) s₂

theorem scans_of_tokens {s : Scanner} {ts : List Token} {stop : Token} (h : s.tokens = .ok (ts ++ [stop])) :
    ∃ s', Scans s ts s' := by
  induction ts generalizing s with
  | nil => exact ⟨s, .nil s⟩
  | cons t ts ih =>
    rcases hnext : s.next with ⟨e | u, s₁⟩
    · rw [tokens_of_error hnext] at h
      cases h
    · rw [tokens_of_ok hnext] at h
      split at h
      · simp at h
      · rename_i hu
        cases hrest : s₁.tokens with
        | error e =>
          rw [hrest] at h
          cases h
        | ok us =>
          rw [hrest] at h
          obtain ⟨rfl, rfl⟩ := List.cons.inj (Except.ok.inj h)
          obtain ⟨s', hs'⟩ := ih hrest
          exact ⟨s', .cons hnext hu hs'⟩

namespace Scans

variable {s s' : Scanner} {t : Token} {ts us : List Token} {source : String}

theorem split (h : Scans s (ts ++ us) s') : ∃ m, Scans s ts m ∧ Scans m us s' := by
  induction ts generalizing s with
  | nil => exact ⟨s, .nil s, h⟩
  | cons t ts ih =>
    cases h with
    | cons hn ht hrest =>
      obtain ⟨m, h₁, h₂⟩ := ih hrest
      exact ⟨m, .cons hn ht h₁, h₂⟩

theorem tokens (h : Scans s ts s') : s.tokens = (ts ++ ·) <$> s'.tokens := by
  induction h with
  | nil s => cases s.tokens <;> rfl
  | @cons s s₁ s₂ t ts hn ht hrest ih =>
    rw [tokens_of_ok hn, if_neg ht, ih]
    cases s₂.tokens <;> rfl

theorem suffix (h : Scans s ts s') : s'.rest <:+ s.rest := by
  induction h with
  | nil s => exact List.suffix_rfl
  | @cons s s₁ s₂ t ts hn ht hrest ih => exact (ih.trans (rest_suffix_text hn)).trans s.text_suffix

theorem here_le (h : Scans s ts s') : s.here.offset ≤ s'.here.offset := by
  induction h with
  | nil s => exact Nat.le_refl _
  | @cons s s₁ s₂ t ts hn ht hrest ih => exact (s.here_le_start.trans (start_le_next hn)).trans ih

theorem start_le (h : Scans s ts s') : s.start.offset ≤ s'.start.offset := by
  induction h with
  | nil s => exact Nat.le_refl _
  | @cons s s₁ s₂ t ts hn ht hrest ih => exact ((start_le_next hn).trans s₁.here_le_start).trans ih

theorem standsIn (h : Scans s ts s') (hs : s.StandsIn source) : s'.StandsIn source := by
  induction h with
  | nil => exact hs
  | cons hn _ _ ih =>
    have hstep := hs.step
    rw [hn] at hstep
    exact ih hstep

theorem part (h : Scans s ts s') (hs : s.StandsIn source) (hus : us <:+: ts) :
    ∃ m m', Scans m us m' ∧ m.StandsIn source := by
  obtain ⟨before, after, rfl⟩ := hus
  obtain ⟨m', h, -⟩ := h.split
  obtain ⟨m, hbefore, hmid⟩ := h.split
  exact ⟨m, m', hmid, hbefore.standsIn hs⟩

theorem cut {cs : List Char} (h : Scans s ts s') (hs : s.rest = cs ++ s'.rest) (done : Bool) :
    ∃ done', Scans ⟨cs, s.here, done⟩ ts ⟨[], s'.here, done'⟩ := by
  induction h generalizing cs done with
  | nil s =>
    obtain rfl : cs = [] := List.self_eq_append_left.mp hs
    exact ⟨done, .nil _⟩
  | @cons s s₁ s₂ t ts hn ht hrest ih =>
    obtain ⟨ds, hds⟩ := hrest.suffix
    obtain ⟨done', hscans⟩ := ih hds.symm false
    exact ⟨done', .cons (next_cut hn ht hs hds.symm done) ht hscans⟩

/-- Cut out of a text, from the first to the last of them, the tokens are found again. -/
theorem cutOut (h : Scans s (t :: ts) s') (hs : s.StandsIn source) :
    ∃ before cs, source.toList = before ++ cs ++ s'.rest ∧ s.start.offset = byteLength before ∧
      s'.here.offset = byteLength (before ++ cs) ∧
      ∃ done, Scans ⟨cs, s.start, s.done⟩ (t :: ts) ⟨[], s'.here, done⟩ := by
  obtain ⟨before, hbefore, hstart⟩ := hs.start
  have htrim : Scans ⟨s.text, s.start, s.done⟩ (t :: ts) s' := by
    cases h with
    | cons hn ht hrest => exact .cons (s.next_text.trans hn) ht hrest
  obtain ⟨cs, hcs⟩ : s'.rest <:+ s.text := htrim.suffix
  obtain ⟨read, hread, hhere⟩ := h.standsIn hs
  have hsource : source.toList = before ++ cs ++ s'.rest := by
    rw [hbefore, ← hcs, List.append_assoc]
  have hend : read = before ++ cs := List.append_cancel_right (hread.symm.trans hsource)
  refine ⟨before, cs, hsource, ?_, ?_, htrim.cut hcs.symm s.done⟩
  · rw [hstart, Position.after_eq]
  · rw [hhere, Position.after_eq, hend]

end Scans

theorem Finds.next {s s' : Scanner} {r : Except (Located ScanError) Token} (h : Finds s r s') :
    s.next = (r, s') := by
  rcases hnext : s.next with ⟨r', s₁⟩
  have hfinds := finds_of_next hnext
  cases h with
  | ending h =>
    cases hfinds with
    | ending => rfl
    | token hc | unclosed hc =>
      rw [h] at hc
      cases hc
  | token h hl => exact hnext.symm.trans (next_of_token h hl)
  | unclosed h hl =>
    cases hfinds with
    | ending hc =>
      rw [h] at hc
      cases hc
    | token hc hl' =>
      rw [h] at hc
      cases hc
      rw [hl] at hl'
      cases hl'
    | unclosed => rfl

theorem words_congr {s r : Scanner} (h : s.rest = r.rest) : s.words = r.words := by
  have htext : r.text = s.text := by rw [text, text, h]
  induction s using words.induct generalizing r with
  | case1 s e s₁ hs =>
    cases finds_of_next hs with
    | unclosed hc hl => rw [words_of_error hs, words_of_error (Finds.unclosed (htext.trans hc) hl).next]
  | case2 s t s₁ hs ht =>
    cases finds_of_next hs with
    | ending hc => rw [words_of_eof hs ht, words_of_eof (Finds.ending (htext.trans hc)).next rfl]
    | token _ hl => exact absurd ht (Lexeme.first?_kind_ne_eof hl)
  | case3 s t s₁ hs ht hlt ih =>
    cases finds_of_next hs with
    | ending => exact absurd rfl ht
    | @token c cs l hc hl =>
      have hr := (Finds.token (htext.trans hc) hl).next
      rw [words_of_token hs ht, words_of_token hr ht]
      have hrest := ih (r := ⟨l.rest, r.start.after l.chars, false⟩) rfl rfl
      rw [hrest]

end Scanner

end Gondola
