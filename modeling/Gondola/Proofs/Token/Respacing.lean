import Gondola.Proofs.Token.Runs

/-! The space between tokens is free: its tokens can be cut out of a text and put together again with other blanks and
comments between them. -/
namespace Gondola

open Text

/-! Blanks and comments in front of a text. -/
section Gaps

variable {cs gap line : List Char} {P : List Token → Prop}

/-- Blanks and comments, each of which ends before its line does, with a blank in front. -/
structure IsGap (gap : List Char) : Prop where
  trivia : Trivia False gap
  blank : ∃ c cs, gap = c :: cs ∧ isBlank c = true

theorem IsGap.apart (h : IsGap gap) (cs : List Char) : Apart (gap ++ cs) := by
  obtain ⟨c, ds, rfl, hc⟩ := h.blank
  exact .cons _ (isSeparator_of_isBlank hc)

theorem splitTrivia_of_line (h : '\n' ∉ line) : (splitTrivia true line).2 = [] := by
  induction line with
  | nil => rfl
  | cons c line ih =>
    have hc : (c != '\n') = true := bne_iff_ne.mpr fun hc => h (hc ▸ List.mem_cons_self)
    rw [splitTrivia, hc]
    exact ih fun hmem => h (List.mem_cons_of_mem _ hmem)

theorem Lexes.comment (hline : '\n' ∉ line) (h : Lexes cs P) : Lexes ('/' :: '/' :: line ++ '\n' :: cs) P := by
  intro here done ds hds
  let s : Scanner := ⟨'/' :: '/' :: line, here, done⟩
  have htext : s.text = [] := splitTrivia_of_line hline
  have hnext := Scanner.next_of_trivia (cs ++ ds) done htext
  obtain ⟨ts, here', done', hts, htokens⟩ := h (here.after (s.rest ++ ['\n'])) done ds hds
  refine ⟨ts, here', done', hts, ?_⟩
  rw [← htokens, List.append_assoc]
  exact Scanner.tokens_congr hnext

theorem Lexes.trivia (hgap : Trivia False gap) (h : Lexes cs P) : Lexes (gap ++ cs) P := by
  induction hgap with
  | nil => exact h
  | blank hc _ ih => exact ih.blank hc
  | comment hline _ ih =>
    rw [List.append_assoc]
    exact ih.comment hline
  | ending hlast => exact hlast.elim

end Gaps

def Token.word (t : Token) : TokenKind × String := (t.kind, t.text)

namespace Scanner

variable {s s' : Scanner} {t : Token} {ts : List Token} {source : String}

/-- What the next token is written as. -/
def slice (s : Scanner) : List Char := s.text.take (s.text.length - s.next.2.rest.length)

/-- The slices of the next tokens. -/
def slices (s : Scanner) : Nat → List (List Char)
  | 0 => []
  | n + 1 => s.slice :: s.next.2.slices n

theorem slice_append (h : s.next = (.ok t, s')) : s.slice ++ s'.rest = s.text := by
  obtain ⟨chars, hchars⟩ := rest_suffix_text h
  have hslice : s.slice = chars := by
    rw [slice, h, ← hchars, List.length_append, Nat.add_sub_cancel, List.take_left']
    rfl
  rw [hslice, hchars]

theorem slices_of_next (h : s.next = (.ok t, s')) (n : Nat) : s.slices (n + 1) = s.slice :: s'.slices n := by
  rw [slices, h]

theorem lexes_slice {P : List Token → Prop} (h : s.next = (.ok t, s')) (ht : t.kind ≠ .eof)
    (hP : ∀ u : Token, u.word = t.word → P [u]) : Lexes s.slice P := by
  have hslice := slice_append h
  cases finds_of_next h with
  | ending => exact absurd rfl ht
  | @token c cs l htext hl =>
    have hchars : s.slice = l.chars :=
      List.append_cancel_right (hslice.trans (htext.trans (Lexeme.first?_append hl).symm))
    cases hcons : l.chars with
    | nil => exact absurd hcons (Lexeme.first?_chars_ne_nil hl)
    | cons d ds =>
      rw [hchars, hcons, htext, List.cons_append] at hslice
      obtain ⟨rfl, hcs⟩ := List.cons.inj hslice
      have hslash : d = '/' → ds.head? ≠ some '/' := by
        intro hd hhead
        obtain ⟨es, rfl⟩ := List.head?_eq_some_iff.mp hhead
        rw [hd, ← hcs] at htext
        exact head?_of_text htext rfl
      -- The lexeme is the same if nothing follows it.
      have hcut : Lexeme.first? d ds = some (l.before []) := Lexeme.first?_cut (hcs ▸ hl) rfl
      rw [hchars, hcons]
      apply Lexes.token (isBlank_of_splitTrivia htext) hslash hcut
      intro u hkind hu
      exact LexesBefore.nil (hP u (Prod.ext hkind hu))

end Scanner

/-- Texts in a row, with a gap after each of them but the last. -/
def spaced (gap : Nat → List Char) : List (List Char) → List Char
  | [] => []
  | [cs] => cs
  | cs :: ds :: css => cs ++ (gap 0 ++ spaced (fun i => gap (i + 1)) (ds :: css))

namespace Scanner

variable {s s' : Scanner} {t : Token} {ts : List Token} {source : String}

theorem Scans.lexes_spaced (h : Scans s ts s') {gap : Nat → List Char} (hgap : ∀ i, IsGap (gap i)) :
    Lexes (spaced gap (s.slices ts.length)) fun us => us.map Token.word = ts.map Token.word := by
  induction h generalizing gap with
  | nil s => exact LexesBefore.nil rfl
  | @cons s s₁ s₂ t ts hn ht hrest ih =>
    have hslice : Lexes s.slice fun us => us.map Token.word = [t.word] :=
      lexes_slice hn ht fun u hu => by rw [List.map_singleton, hu]
    rw [List.length_cons, slices_of_next hn]
    cases hrest with
    | nil => exact hslice
    | @cons _ s₁' _ t' ts hn' ht' hrest' =>
      have htail := ih fun i => hgap (i + 1)
      rw [List.length_cons, slices_of_next hn'] at htail ⊢
      apply hslice.append ((hgap 0).apart _)
      intro us hus
      apply (Lexes.trivia (hgap 0).trivia htail).mono
      intro vs hvs
      rw [List.map_append, hus, hvs]
      rfl

/-- In a text whose places fit into 32 bits, the slices lie under the spans of the tokens. -/
theorem Scans.slices_eq_cut (h : Scans s ts s') (hs : s.StandsIn source)
    (hsize : source.utf8ByteSize < UInt32.size) :
    s.slices ts.length = ts.map fun t => (t.span.cut source).toList := by
  induction h with
  | nil => rfl
  | @cons s s₁ s₂ t ts hn ht hrest ih =>
    have hs₁ := (hs.token hsize hn).2
    have htail := ih hs₁
    have hslice := slice_append hn
    obtain ⟨read, hsource, hstart⟩ := hs.start
    have hsplit : source.toList = read ++ s.slice ++ s₁.rest := by
      rw [hsource, ← hslice, List.append_assoc]
    obtain ⟨hlo, hhi⟩ : t.span.lo = s.start.offset ∧ t.span.hi = s₁.here.offset := by
      have hle := start_le_next hn
      have hend := hs₁.offset_le
      cases finds_of_next hn with
      | ending => exact absurd rfl ht
      | token => exact ⟨rfl, Span.hi_ofBounds _ _ hle hend hsize⟩
    obtain ⟨read₁, hsource₁, hhere⟩ := hs₁
    have hread : read₁ = read ++ s.slice := List.append_cancel_right (hsource₁.symm.trans hsplit)
    have hcut : t.span.cut source = String.ofList s.slice := by
      apply Span.cut_of_append hsplit
      · rw [hlo, hstart, Position.after_eq]
      · rw [hhi, hhere, Position.after_eq, hread]
    rw [List.length_cons, slices_of_next hn, List.map_cons, hcut, String.toList_ofList, htail]

end Scanner

/-- The tokens of a text are those of any text that has the same slices, with gaps between them. -/
theorem tokenize_respaced {source : String} {ts : List Token} (h : tokenize source = .ok ts) :
    ∃ us stop, ts = us ++ [stop] ∧ stop.kind = .eof ∧ (∀ t ∈ us, t.kind ≠ .eof) ∧
      (source.utf8ByteSize < UInt32.size →
        (Scanner.ofString source).slices us.length = us.map fun t => (t.span.cut source).toList) ∧
      ∀ gap : Nat → List Char, (∀ i, IsGap (gap i)) →
        ∃ vs, tokenize (String.ofList (spaced gap ((Scanner.ofString source).slices us.length))) = .ok vs ∧
          vs.map Token.word = ts.map Token.word := by
  obtain ⟨us, s, hscans, hhalts⟩ := (Scanner.ofString source).exists_scans_halts
  rw [tokenize, hscans.tokens] at h
  cases hhalts with
  | unclosed htext hbody =>
    rw [Scanner.tokens_of_error (Scanner.Finds.unclosed htext (Lexeme.first?_unclosed hbody)).next] at h
    cases h
  | ending htext =>
    rw [Scanner.tokens_of_ok (Scanner.Finds.ending htext).next, if_pos rfl] at h
    obtain rfl := Except.ok.inj h
    refine ⟨us, _, rfl, rfl, hscans.kind_ne_eof, ?_, ?_⟩
    · exact hscans.slices_eq_cut (Scanner.standsIn_ofString source)
    · intro gap hgap
      obtain ⟨vs, stop, htokens, hvs⟩ := (hscans.lexes_spaced hgap).tokens_eq .nil {} false
      refine ⟨vs ++ [⟨.eof, "", .between stop stop⟩], ?_, ?_⟩
      · rw [tokenize, Scanner.ofString, String.toList_ofList]
        exact htokens
      · rw [List.map_append, List.map_append, hvs]
        rfl

/-- A slash before a literal, a mark of two characters, and comments with a quote in every gap. -/
theorem tokenize_respaced_comments :
    ∃ ts, tokenize "a//b\n/\"\\\"\"!=1" = .ok ts ∧ IsGap [' ', '/', '/', '"', '\n'] ∧
      ∃ vs, tokenize "a //\"\n/ //\"\n\"\\\"\" //\"\n!= //\"\n1" = .ok vs ∧
        vs.map Token.word = ts.map Token.word := by
  have hcomment : Trivia False ('/' :: '/' :: ['"'] ++ '\n' :: []) := .comment (by decide) .nil
  have hgap : IsGap [' ', '/', '/', '"', '\n'] := ⟨.blank isBlank_space hcomment, ' ', _, rfl, isBlank_space⟩
  have hrun : (tokenize "a//b\n/\"\\\"\"!=1").toOption.map List.length = some 6 := by decide +kernel
  cases h : tokenize "a//b\n/\"\\\"\"!=1" with
  | error e =>
    rw [h] at hrun
    cases hrun
  | ok ts =>
    rw [h] at hrun
    obtain ⟨us, stop, rfl, -, -, -, hspaced⟩ := tokenize_respaced h
    have hlength : us.length = 5 := by
      have hlength := Option.some.inj hrun
      rw [List.length_append, List.length_singleton] at hlength
      omega
    obtain ⟨vs, hvs, hwords⟩ := hspaced (fun _ => [' ', '/', '/', '"', '\n']) fun _ => hgap
    have htext : spaced (fun _ => [' ', '/', '/', '"', '\n'])
        ((Scanner.ofString "a//b\n/\"\\\"\"!=1").slices 5) =
        "a //\"\n/ //\"\n\"\\\"\" //\"\n!= //\"\n1".toList := by decide +kernel
    rw [hlength, htext, String.ofList_toList] at hvs
    exact ⟨_, rfl, hgap, vs, hvs, hwords⟩

end Gondola
