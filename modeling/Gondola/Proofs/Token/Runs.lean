import Gondola.Proofs.Token.Pieces

/-! Whole runs of a scanner. It finds the tokens of the text, one error if a literal is left open, and then the end of
input, however often it is asked. -/
namespace Gondola

open Text

/-! Quotes that are left open. -/
section Quotes

/-- The second text is what remains of the first one at a place outside of its comments and literals. -/
inductive Outside : List Char → List Char → Prop
  | here (cs : List Char) : Outside cs cs
  | char {c cs ds} (hquote : c ≠ '"') (hslash : c = '/' → cs.head? ≠ some '/') (h : Outside cs ds) :
      Outside (c :: cs) ds
  | comment {line cs ds} (hline : '\n' ∉ line) (h : Outside cs ds) : Outside ('/' :: '/' :: (line ++ '\n' :: cs)) ds
  | literal {ps cs ds} (h : Outside cs ds) : Outside ('"' :: (Literal.spelled ps ++ '"' :: cs)) ds

/-- There is a quote outside of comments and literals that no later one closes, and `rest` follows it. -/
structure OpenQuote (cs rest : List Char) : Prop where
  outside : Outside cs ('"' :: rest)
  unmatched : ∀ ps after, rest ≠ Literal.spelled ps ++ '"' :: after

variable {c : Char} {cs ds rest line gap : List Char}

theorem not_openQuote_nil : ¬OpenQuote [] rest := by
  rintro ⟨h, -⟩
  cases h

theorem openQuote_char (hquote : c ≠ '"') (hslash : c = '/' → cs.head? ≠ some '/') :
    OpenQuote (c :: cs) rest ↔ OpenQuote cs rest := by
  constructor
  · rintro ⟨h, hrest⟩
    cases h with
    | here | literal => exact absurd rfl hquote
    | char _ _ h => exact ⟨h, hrest⟩
    | comment => exact absurd rfl (hslash rfl)
  · rintro ⟨h, hrest⟩
    exact ⟨.char hquote hslash h, hrest⟩

theorem line_append_inj {line' : List Char} (hline : '\n' ∉ line) (hline' : '\n' ∉ line')
    (h : line ++ '\n' :: cs = line' ++ '\n' :: ds) : cs = ds := by
  induction line generalizing line' with
  | nil =>
    cases line' with
    | nil => exact (List.cons.inj h).2
    | cons c line' =>
      obtain ⟨rfl, -⟩ := List.cons.inj h
      exact absurd List.mem_cons_self hline'
  | cons c line ih =>
    cases line' with
    | nil =>
      obtain ⟨rfl, -⟩ := List.cons.inj h
      exact absurd List.mem_cons_self hline
    | cons d line' =>
      exact ih (fun hmem => hline (List.mem_cons_of_mem _ hmem)) (fun hmem => hline' (List.mem_cons_of_mem _ hmem))
        (List.cons.inj h).2

/-- From the start of a comment one gets outside of it only behind its line. -/
theorem Outside.of_comment (h : Outside ('/' :: '/' :: cs) ('"' :: rest)) :
    ∃ line ds, cs = line ++ '\n' :: ds ∧ '\n' ∉ line ∧ Outside ds ('"' :: rest) := by
  cases h with
  | char _ hslash => exact absurd rfl (hslash rfl)
  | @comment line ds _ hline h => exact ⟨line, ds, rfl, hline, h⟩

theorem openQuote_comment (hline : '\n' ∉ line) :
    OpenQuote ('/' :: '/' :: (line ++ '\n' :: cs)) rest ↔ OpenQuote cs rest := by
  constructor
  · rintro ⟨h, hrest⟩
    obtain ⟨line', ds, hds, hline', h⟩ := h.of_comment
    obtain rfl := line_append_inj hline hline' hds
    exact ⟨h, hrest⟩
  · rintro ⟨h, hrest⟩
    exact ⟨.comment hline h, hrest⟩

theorem not_openQuote_line (hline : '\n' ∉ line) : ¬OpenQuote ('/' :: '/' :: line) rest := by
  rintro ⟨h, -⟩
  obtain ⟨line', ds, rfl, -, -⟩ := h.of_comment
  exact hline (List.mem_append_right _ List.mem_cons_self)

theorem openQuote_literal (ps : List Literal.Piece) :
    OpenQuote ('"' :: (Literal.spelled ps ++ '"' :: cs)) rest ↔ OpenQuote cs rest := by
  constructor
  · rintro ⟨h, hrest⟩
    generalize hall : '"' :: (Literal.spelled ps ++ '"' :: cs) = text at h
    cases h with
    | here => exact absurd (List.cons.inj hall).2.symm (hrest ps cs)
    | char hquote => exact absurd (List.cons.inj hall).1.symm hquote
    | comment => exact absurd (List.cons.inj hall).1 (by decide)
    | literal h =>
      obtain ⟨-, rfl⟩ := Literal.spelled_append_inj (List.cons.inj hall).2
      exact ⟨h, hrest⟩
  · rintro ⟨h, hrest⟩
    exact ⟨.literal h, hrest⟩

theorem openQuote_unclosed (h : Literal.body? cs = none) : OpenQuote ('"' :: cs) rest ↔ rest = cs := by
  have hunmatched : ∀ ps after, cs ≠ Literal.spelled ps ++ '"' :: after := by
    rintro ps after rfl
    cases h.symm.trans (Literal.body?_spelled ps after)
  constructor
  · rintro ⟨houtside, -⟩
    cases houtside with
    | here => rfl
    | char hquote => exact absurd rfl hquote
    | literal => exact absurd rfl (hunmatched _ _)
  · rintro rfl
    exact ⟨.here _, hunmatched⟩

theorem openQuote_trivia (h : Trivia (cs = []) gap) : OpenQuote (gap ++ cs) rest ↔ OpenQuote cs rest := by
  induction h with
  | nil => exact Iff.rfl
  | @blank c gap hc _ ih =>
    have hvisible (d : Char) (hd : '!' ≤ d ∧ d ≤ '~') : c ≠ d := by
      rintro rfl
      exact absurd (isBlank_of_visible hd) (Bool.eq_false_iff.not.mpr (not_not.mpr hc))
    have hslash : c = '/' → (gap ++ cs).head? ≠ some '/' := fun h => absurd h (hvisible '/' (by decide))
    exact (openQuote_char (hvisible '"' (by decide)) hslash).trans ih
  | @comment line gap hline _ ih =>
    rw [List.append_assoc]
    exact (openQuote_comment hline).trans ih
  | @ending line hlast hline =>
    rw [hlast, List.append_nil]
    exact iff_of_false (not_openQuote_line hline) not_openQuote_nil

theorem openQuote_chars {chars : List Char} (h : ∀ c ∈ chars, c ≠ '"' ∧ c ≠ '/') :
    OpenQuote (chars ++ cs) rest ↔ OpenQuote cs rest := by
  induction chars with
  | nil => exact Iff.rfl
  | cons c chars ih =>
    obtain ⟨hc, htail⟩ := List.forall_mem_cons.mp h
    exact (openQuote_char hc.1 fun hslash => absurd hslash hc.2).trans (ih htail)

end Quotes

namespace Lexeme

variable {c : Char} {cs rest : List Char} {l : Lexeme}

theorem first?_eq_none (h : first? c cs = none) : c = '"' ∧ Literal.body? cs = none := by
  unfold first? at h
  split at h
  · rename_i hc
    exact ⟨hc, Option.map_eq_none_iff.mp h⟩
  · split at h
    · cases h
    · split at h <;> cases h

theorem first?_unclosed (h : Literal.body? cs = none) : first? '"' cs = none := by
  unfold first?
  rw [if_pos rfl, ofString?, h, Option.map_none]

theorem ofSymbol_chars (c : Char) (cs : List Char) :
    (ofSymbol c cs).chars = [c] ∨ ∀ d ∈ (ofSymbol c cs).chars, d ≠ '"' ∧ d ≠ '/' := by
  have hclass (p : Char → Bool) (hp : p '"' = false ∧ p '/' = false) (d : Char) (hd : p d = true) :
      d ≠ '"' ∧ d ≠ '/' := by
    constructor
    · rintro rfl
      exact absurd hd (Bool.eq_false_iff.mp hp.1)
    · rintro rfl
      exact absurd hd (Bool.eq_false_iff.mp hp.2)
  unfold ofSymbol
  split
  · exact .inl rfl
  · split
    · rename_i hstart
      refine .inr (List.forall_mem_cons.mpr ⟨hclass startsName (by decide) c hstart, ?_⟩)
      exact fun d hd => hclass continuesName (by decide) d (List.mem_takeWhile_imp hd)
    · split
      · rename_i hdigit
        refine .inr (List.forall_mem_cons.mpr ⟨hclass isDigit (by decide) c hdigit, ?_⟩)
        exact fun d hd => hclass isDigit (by decide) d (List.mem_takeWhile_imp hd)
      · exact .inl rfl

theorem ofPair?_chars {d : Char} {m : Mark} (h : Mark.ofPair? c d = some m) :
    ∀ e ∈ [c, d], e ≠ '"' ∧ e ≠ '/' := by
  have hpair : (c ≠ '"' ∧ c ≠ '/') ∧ d ≠ '"' ∧ d ≠ '/' := by
    unfold Mark.ofPair? at h
    split at h
    all_goals first
      | decide
      | cases h
  exact List.forall_mem_cons.mpr ⟨hpair.1, List.forall_mem_singleton.mpr hpair.2⟩

theorem openQuote_first? (hl : first? c cs = some l) (hslash : c = '/' → cs.head? ≠ some '/') :
    OpenQuote (c :: cs) rest ↔ OpenQuote l.rest rest := by
  by_cases hk : l.kind = .string
  · obtain ⟨rfl, ps, rfl, -⟩ := first?_string hl hk
    exact openQuote_literal ps
  · have hquote : c ≠ '"' := by
      rintro rfl
      unfold first? at hl
      rw [if_pos rfl] at hl
      obtain ⟨p, -, rfl⟩ := Option.map_eq_some_iff.mp hl
      exact hk rfl
    have hchars : l.chars = [c] ∨ ∀ d ∈ l.chars, d ≠ '"' ∧ d ≠ '/' := by
      unfold first? at hl
      rw [if_neg hquote] at hl
      split at hl
      · obtain rfl := Option.some.inj hl
        exact ofSymbol_chars c []
      · split at hl
        · rename_i hpair
          obtain rfl := Option.some.inj hl
          exact .inr (ofPair?_chars hpair)
        · obtain rfl := Option.some.inj hl
          exact ofSymbol_chars c _
    have hall := first?_append hl
    rcases hchars with hchars | hchars
    · rw [hchars] at hall
      have hrest : l.rest = cs := (List.cons.inj hall).2
      rw [hrest]
      exact openQuote_char hquote hslash
    · rw [← hall]
      exact openQuote_chars hchars

end Lexeme

namespace Scanner

variable {s s' : Scanner} {t : Token} {ts : List Token} {rest : List Char}

theorem head?_of_text {cs : List Char} (h : s.text = '/' :: cs) : cs.head? ≠ some '/' := by
  intro hhead
  obtain ⟨ds, rfl⟩ := List.head?_eq_some_iff.mp hhead
  have hsplit : splitTrivia false s.text = ([], s.text) := splitTrivia_splitTrivia false s.rest
  rw [h, splitTrivia] at hsplit
  cases hsplit

theorem openQuote_text (s : Scanner) : OpenQuote s.rest rest ↔ OpenQuote s.text rest := by
  have hsplit : (splitTrivia false s.rest).1 ++ s.text = s.rest := splitTrivia_append false s.rest
  rw [← openQuote_trivia s.trivia_gap, hsplit]

theorem openQuote_next (h : s.next = (.ok t, s')) (ht : t.kind ≠ .eof) :
    OpenQuote s.rest rest ↔ OpenQuote s'.rest rest := by
  rw [s.openQuote_text]
  cases finds_of_next h with
  | ending => exact absurd rfl ht
  | token htext hl =>
    rw [htext]
    apply Lexeme.openQuote_first? hl
    rintro rfl
    exact head?_of_text htext

theorem Scans.openQuote (h : Scans s ts s') : OpenQuote s.rest rest ↔ OpenQuote s'.rest rest := by
  induction h with
  | nil => exact Iff.rfl
  | cons hn ht _ ih => exact (openQuote_next hn ht).trans ih

/-- There is no next token: the text is at its end, or goes on with a literal that is left open. -/
inductive Halts (s : Scanner) : Prop
  | ending (h : s.text = [])
  | unclosed {cs : List Char} (h : s.text = '"' :: cs) (hbody : Literal.body? cs = none)

theorem exists_scans_halts (s : Scanner) : ∃ ts s', Scans s ts s' ∧ Halts s' := by
  induction s using words.induct with
  | case1 s e s₁ hs =>
    cases finds_of_next hs with
    | unclosed htext hl =>
      obtain ⟨rfl, hbody⟩ := Lexeme.first?_eq_none hl
      exact ⟨[], s, .nil s, .unclosed htext hbody⟩
  | case2 s t s₁ hs ht =>
    cases finds_of_next hs with
    | ending htext => exact ⟨[], s, .nil s, .ending htext⟩
    | token _ hl => exact absurd ht (Lexeme.first?_kind_ne_eof hl)
  | case3 s t s₁ hs ht _ ih =>
    obtain ⟨ts, s', hscans, hhalts⟩ := ih
    exact ⟨t :: ts, s', .cons hs ht hscans, hhalts⟩

theorem Scans.kind_ne_eof (h : Scans s ts s') : ∀ t ∈ ts, t.kind ≠ .eof := by
  induction h with
  | nil => exact List.forall_mem_nil _
  | cons _ ht _ ih => exact List.forall_mem_cons.mpr ⟨ht, ih⟩

/-! What a scanner answers, however often it is asked. -/
section Answers

variable {past : List (Except (Located ScanError) Token)} {last : Token}

/-- The scanner answers with `past` and from then on with `last`, and is done with the first `last`. -/
structure Answers (s : Scanner) (past : List (Except (Located ScanError) Token)) (last : Token) : Prop where
  outcome : ∀ n, (s.afterSteps n).next.1 = past[n]?.getD (.ok last)
  done : ∀ n, (s.afterSteps n).done = decide (past.length < n)

theorem afterSteps_succ (s : Scanner) (n : Nat) : s.afterSteps (n + 1) = s.next.2.afterSteps n := by
  induction n with
  | zero => rfl
  | succ n ih =>
    show (s.afterSteps (n + 1)).next.2 = _
    rw [ih]
    rfl

theorem Answers.step {r : Except (Located ScanError) Token} (h : s.next = (r, s')) (hs : s.done = false)
    (h' : Answers s' past last) : Answers s (r :: past) last := by
  constructor
  · intro n
    cases n with
    | zero =>
      show s.next.1 = r
      rw [h]
    | succ n =>
      rw [afterSteps_succ, h]
      exact h'.outcome n
  · intro n
    cases n with
    | zero => exact hs
    | succ n =>
      rw [afterSteps_succ, h, h'.done n]
      simp only [List.length_cons, Nat.add_lt_add_iff_right]

theorem answers_ended (h : s.text = []) (hs : s.done = false) :
    Answers s [] ⟨.eof, "", .between s.start s.start⟩ := by
  have hnext : s.next = (.ok ⟨.eof, "", .between s.start s.start⟩, ⟨[], s.start, true⟩) := (Finds.ending h).next
  have hsteps (n : Nat) : s.afterSteps (n + 1) = ⟨[], s.start, true⟩ := by
    induction n with
    | zero =>
      show s.next.2 = _
      rw [hnext]
    | succ n ih =>
      show (s.afterSteps (n + 1)).next.2 = _
      rw [ih]
      rfl
  constructor
  · intro n
    cases n with
    | zero =>
      show s.next.1 = _
      rw [hnext]
      rfl
    | succ n =>
      rw [hsteps]
      rfl
  · intro n
    cases n with
    | zero => exact hs
    | succ n =>
      rw [hsteps]
      rfl

theorem Scans.done_eq (h : Scans s ts s') (hs : s.done = false) : s'.done = false := by
  induction h with
  | nil => exact hs
  | cons hn ht _ ih =>
    apply ih
    cases finds_of_next hn with
    | ending => exact absurd rfl ht
    | token => rfl

theorem Scans.answers (h : Scans s ts s') (hs : s.done = false) (h' : Answers s' past last) :
    Answers s (ts.map .ok ++ past) last := by
  induction h with
  | nil => exact h'
  | cons hn ht hrest ih =>
    have hdone := Scans.done_eq (.cons hn ht (.nil _)) hs
    exact .step hn hs (ih hdone h')

end Answers

end Scanner

def endToken (source : String) : Token :=
  ⟨.eof, "", .between (Position.after {} source.toList) (Position.after {} source.toList)⟩

theorem offset_after_toList (source : String) : (Position.after {} source.toList).offset = source.utf8ByteSize := by
  rw [Position.after_eq, byteLength, String.ofList_toList]

/-- The tokens of a text, and the error that follows them if there is one, are all that its scanner finds. -/
structure RunsThrough (source : String) (ts : List Token) (err : Option (Located ScanError)) : Prop where
  tokens : ∀ t ∈ ts, t.kind ≠ .eof
  answers : (Scanner.ofString source).Answers (ts.map .ok ++ err.toList.map .error) (endToken source)
  ending : (endToken source).span.lo = source.utf8ByteSize ∧ (endToken source).span.len = 0
  failed : (∃ e, err = some e) ↔ ∃ rest, OpenQuote source.toList rest
  /-- The error is placed from the open quote to the end of the text. -/
  place : ∀ e before rest, err = some e → OpenQuote source.toList rest → source.toList = before ++ '"' :: rest →
    e.value = .unterminatedString ∧ e.span = .between (.after {} before) (.after {} source.toList) ∧
      e.span.lo = byteLength before ∧ (source.utf8ByteSize < UInt32.size → e.span.hi = source.utf8ByteSize)
  tokenized : tokenize source = err.elim (.ok (ts ++ [endToken source])) .error

section Runs

variable {source : String} {ts : List Token} {s : Scanner}

theorem span_endToken (source : String) :
    (endToken source).span.lo = source.utf8ByteSize ∧ (endToken source).span.len = 0 := by
  constructor
  · exact offset_after_toList source
  · simp [endToken, Span.between, Span.ofBounds]

theorem runsThrough_of_ending (hscans : (Scanner.ofString source).Scans ts s) (htext : s.text = []) :
    RunsThrough source ts none := by
  have hdone := hscans.done_eq rfl
  obtain ⟨read, hsource, hstart⟩ := (hscans.standsIn (Scanner.standsIn_ofString source)).start
  have hlast : (⟨.eof, "", .between s.start s.start⟩ : Token) = endToken source := by
    rw [endToken, hstart, hsource, htext, List.append_nil]
  have hnone (rest : List Char) : ¬OpenQuote source.toList rest := by
    have hquote : OpenQuote source.toList rest ↔ OpenQuote s.rest rest := hscans.openQuote
    rw [s.openQuote_text, htext] at hquote
    exact hquote.not.mpr not_openQuote_nil
  refine ⟨hscans.kind_ne_eof, ?_, span_endToken source, ?_, nofun, ?_⟩
  · exact hscans.answers rfl (hlast ▸ Scanner.answers_ended htext hdone)
  · constructor
    · rintro ⟨e, he⟩
      cases he
    · rintro ⟨rest, hrest⟩
      exact absurd hrest (hnone rest)
  · rw [tokenize, hscans.tokens, Scanner.tokens_of_ok (Scanner.Finds.ending htext).next, if_pos rfl, hlast]
    rfl

theorem runsThrough_of_unclosed (hscans : (Scanner.ofString source).Scans ts s) {cs : List Char}
    (htext : s.text = '"' :: cs) (hbody : Literal.body? cs = none) :
    RunsThrough source ts (some ⟨.between s.start (s.start.after s.text), .unterminatedString⟩) := by
  have hdone := hscans.done_eq rfl
  obtain ⟨read, hsource, hstart⟩ := (hscans.standsIn (Scanner.standsIn_ofString source)).start
  have hstop : s.start.after s.text = Position.after {} source.toList := by
    rw [hstart, hsource, Position.after_append]
  have hnext := (Scanner.Finds.unclosed htext (Lexeme.first?_unclosed hbody)).next
  have hquote (rest : List Char) : OpenQuote source.toList rest ↔ rest = cs := by
    have hquote : OpenQuote source.toList rest ↔ OpenQuote s.rest rest := hscans.openQuote
    rw [s.openQuote_text, htext, openQuote_unclosed hbody] at hquote
    exact hquote
  -- The error leaves the scanner at the end of the text, and not done.
  have hended : Scanner.Answers ⟨[], s.start.after s.text, s.done⟩ [] (endToken source) := by
    rw [hstop]
    exact Scanner.answers_ended rfl hdone
  refine ⟨hscans.kind_ne_eof, ?_, span_endToken source, ?_, ?_, ?_⟩
  · exact hscans.answers rfl (.step hnext hdone hended)
  · exact iff_of_true ⟨_, rfl⟩ ⟨cs, (hquote cs).mpr rfl⟩
  · intro e before rest he hrest hbefore
    obtain rfl := Option.some.inj he
    obtain rfl := (hquote rest).mp hrest
    obtain rfl : before = read := by
      rw [hsource, htext] at hbefore
      exact (List.append_cancel_right hbefore).symm
    rw [hstop, hstart]
    have hlo : (Position.after {} before).offset = byteLength before := by rw [Position.after_eq]
    refine ⟨rfl, rfl, hlo, fun hsize => ?_⟩
    have hle : (Position.after {} before).offset ≤ (Position.after {} source.toList).offset := by
      rw [hsource, Position.after_append, Position.offset_after _ s.text]
      exact Nat.le_add_right _ _
    rw [← offset_after_toList source]
    exact Span.hi_ofBounds _ _ hle (offset_after_toList source).le hsize
  · rw [tokenize, hscans.tokens, Scanner.tokens_of_error hnext]
    rfl

/-- However often a scanner is asked, it answers with tokens, at most one error and then the end of input. -/
theorem exists_runsThrough (source : String) : ∃ ts err, RunsThrough source ts err := by
  obtain ⟨ts, s, hscans, hhalts⟩ := (Scanner.ofString source).exists_scans_halts
  cases hhalts with
  | ending htext => exact ⟨ts, none, runsThrough_of_ending hscans htext⟩
  | unclosed htext hbody => exact ⟨ts, _, runsThrough_of_unclosed hscans htext hbody⟩

end Runs

end Gondola
