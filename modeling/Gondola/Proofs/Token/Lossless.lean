import Gondola.Proofs.Token.Cuts

/-! Scanning loses nothing: the spans of the tokens and the gaps around them make up the whole text. -/
namespace Gondola

open Text

/-- Blanks and comments. A comment lasts until the end of its line. With `last` nothing follows, and the last
line may do without a line feed. -/
inductive Trivia (last : Prop) : List Char → Prop
  | nil : Trivia last []
  | blank {c cs} (hc : isBlank c = true) (h : Trivia last cs) : Trivia last (c :: cs)
  | comment {line cs} (hline : '\n' ∉ line) (h : Trivia last cs) :
      Trivia last ('/' :: '/' :: line ++ '\n' :: cs)
  | ending {line} (hlast : last) (hline : '\n' ∉ line) : Trivia last ('/' :: '/' :: line)

theorem Trivia.mono {last last' : Prop} {cs : List Char} (h : Trivia last cs) (hlast : last → last') :
    Trivia last' cs := by
  induction h with
  | nil => exact .nil
  | blank hc _ ih => exact .blank hc ih
  | comment hline _ ih => exact .comment hline ih
  | ending h hline => exact .ending (hlast h) hline

/-- What was read of the comment that a text starts in. -/
inductive OpenComment : Bool → List Char → Prop
  | outside : OpenComment false []
  | inside {line} (hline : '\n' ∉ line) : OpenComment true ('/' :: '/' :: line)

theorem trivia_of_splitTrivia {inComment : Bool} {cs opened : List Char} (ho : OpenComment inComment opened) :
    Trivia ((splitTrivia inComment cs).2 = []) (opened ++ (splitTrivia inComment cs).1) := by
  -- The invariant is the comment that is still open. A line feed closes it.
  fun_induction splitTrivia inComment cs generalizing opened with
  | case1 inComment =>
    rw [List.append_nil]
    cases ho with
    | outside => exact .nil
    | inside hline => exact .ending rfl hline
  | case2 c cs gap text hrest ih =>
    rw [hrest] at ih
    cases ho with
    | @inside line hline =>
      by_cases hc : c = '\n'
      · subst hc
        exact .comment hline (ih .outside)
      · have hopen : OpenComment (c != '\n') ('/' :: '/' :: (line ++ [c])) := by
          rw [bne_iff_ne.mpr hc]
          apply OpenComment.inside
          simp only [List.mem_append, List.mem_singleton]
          exact not_or.mpr ⟨hline, fun h => hc h.symm⟩
        have htrivia := ih hopen
        simp only [List.cons_append, List.append_assoc, List.nil_append] at htrivia ⊢
        exact htrivia
  | case3 cs gap text hrest ih =>
    rw [hrest] at ih
    cases ho with
    | outside => exact ih (.inside List.not_mem_nil)
  | case4 c cs _ hblank gap text hrest ih =>
    rw [hrest] at ih
    cases ho with
    | outside => exact .blank hblank (ih .outside)
  | case5 =>
    cases ho with
    | outside => exact .nil

/-- The token is written as the characters: a string in quotes, with what lies between them decoded, and any other
token as itself. -/
def Token.SpelledBy (t : Token) (chars : List Char) : Prop :=
  if t.kind = .string then ∃ body, chars = '"' :: body ++ ['"'] ∧ t.text.toList = Literal.decode body
  else t.text.toList = chars

namespace Lexeme

theorem ofSymbol_plain (c : Char) (cs : List Char) :
    (ofSymbol c cs).kind ≠ .string ∧ (ofSymbol c cs).text = (ofSymbol c cs).chars := by
  unfold ofSymbol
  split
  · exact ⟨by simp [plain], rfl⟩
  · split
    · refine ⟨?_, rfl⟩
      simp only [ofWord, plain]
      split <;> simp
    · split
      · exact ⟨by simp [ofDigits, plain], rfl⟩
      · exact ⟨by simp [plain], rfl⟩

theorem spelledBy_plain {l : Lexeme} {s : Span} (h : l.kind ≠ .string ∧ l.text = l.chars) :
    Token.SpelledBy ⟨l.kind, String.ofList l.text, s⟩ l.chars := by
  unfold Token.SpelledBy
  rw [if_neg h.1, String.toList_ofList, h.2]

theorem spelledBy_of_first? {c : Char} {cs : List Char} {l : Lexeme} (h : first? c cs = some l) (s : Span) :
    Token.SpelledBy ⟨l.kind, String.ofList l.text, s⟩ l.chars := by
  unfold first? at h
  split at h
  · obtain ⟨⟨body, rest⟩, -, rfl⟩ := Option.map_eq_some_iff.mp h
    exact ⟨body, rfl, String.toList_ofList⟩
  · split at h
    · obtain rfl := Option.some.inj h
      exact spelledBy_plain (ofSymbol_plain c [])
    · split at h
      · obtain rfl := Option.some.inj h
        exact spelledBy_plain ⟨by simp [plain], rfl⟩
      · obtain rfl := Option.some.inj h
        exact spelledBy_plain (ofSymbol_plain c _)

end Lexeme

/-- From byte `lo` on, the text is trivia and tokens in turn, up to the end of input. -/
inductive Tiles : Nat → List Char → List Token → Prop
  | ending {lo gap t} (hgap : Trivia True gap) (ht : t.kind = .eof) (htext : t.text = "")
      (hlo : t.span.lo = lo + byteLength gap) (hlen : t.span.len = 0) : Tiles lo gap [t]
  | token {lo gap chars rest t ts} (hgap : Trivia False gap) (ht : t.kind ≠ .eof) (hchars : chars ≠ [])
      (htext : t.SpelledBy chars) (hlo : t.span.lo = lo + byteLength gap)
      (hhi : t.span.hi = lo + byteLength gap + byteLength chars) (h : Tiles t.span.hi rest ts) :
      Tiles lo (gap ++ chars ++ rest) (t :: ts)

namespace Scanner

variable {source : String} {s : Scanner}

theorem trivia_gap (s : Scanner) : Trivia (s.text = []) (splitTrivia false s.rest).1 :=
  trivia_of_splitTrivia .outside

theorem offset_start (s : Scanner) :
    s.start.offset = s.here.offset + byteLength (splitTrivia false s.rest).1 := by
  rw [start, Position.offset_after]

theorem tiles_of_tokens (hsize : source.utf8ByteSize < UInt32.size) (hs : s.StandsIn source)
    {ts : List Token} (h : s.tokens = .ok ts) : Tiles s.here.offset s.rest ts := by
  fun_induction tokens s generalizing ts with
  | case1 => cases h
  | case2 s t s' hn he =>
    obtain rfl := Except.ok.inj h
    cases finds_of_next hn with
    | ending htext =>
      have hrest : (splitTrivia false s.rest).1 = s.rest := by
        have hall := splitTrivia_append false s.rest
        rwa [show (splitTrivia false s.rest).2 = [] from htext, List.append_nil] at hall
      have hgap : Trivia True s.rest := hrest ▸ s.trivia_gap.mono fun _ => trivial
      refine .ending hgap rfl rfl ?_ ?_
      · exact s.offset_start.trans (by rw [hrest])
      · simp [Span.between, Span.ofBounds]
    | token _ hl => exact absurd he (Lexeme.first?_kind_ne_eof hl)
  | case3 => cases h
  | case4 s t s' hn he _ us hrest ih =>
    obtain rfl := Except.ok.inj h
    have hs' := (hs.token hsize hn).2
    have htail := ih hs' hrest
    have hend := hs'.offset_le
    have hstart := start_le_next hn
    cases finds_of_next hn with
    | ending => exact absurd rfl he
    | @token c cs l htext hl =>
      have hhi : (Span.between s.start (s.start.after l.chars)).hi = (s.start.after l.chars).offset :=
        Span.hi_ofBounds _ _ hstart hend hsize
      have hgap : Trivia False (splitTrivia false s.rest).1 := by
        refine s.trivia_gap.mono fun hnil => ?_
        rw [htext] at hnil
        cases hnil
      have hsplit : s.rest = (splitTrivia false s.rest).1 ++ l.chars ++ l.rest := by
        rw [List.append_assoc, Lexeme.first?_append hl, ← htext]
        exact (splitTrivia_append false s.rest).symm
      rw [hsplit]
      refine .token hgap he (Lexeme.first?_chars_ne_nil hl) (Lexeme.spelledBy_of_first? hl _)
        s.offset_start ?_ (hhi ▸ htail)
      rw [hhi, Position.offset_after, s.offset_start]

end Scanner

/-- The bytes from one to another. -/
def Span.fromTo (lo hi : Nat) : Span := { lo := lo, len := hi - lo }

theorem Span.hi_fromTo {lo hi : Nat} (h : lo ≤ hi) : (fromTo lo hi).hi = hi := Nat.add_sub_cancel' h

/-- What lies before, between and after the spans of tokens, from byte `lo` to byte `stop`. -/
def gaps (stop : Nat) : Nat → List Token → List Span
  | lo, [] => [.fromTo lo stop]
  | lo, t :: ts => .fromTo lo t.span.lo :: gaps stop t.span.hi ts

/-- The same with the spans in their places. -/
def stretches (stop : Nat) : Nat → List Token → List Span
  | lo, [] => [.fromTo lo stop]
  | lo, t :: ts => .fromTo lo t.span.lo :: t.span :: stretches stop t.span.hi ts

/-- The tokens and the trivia around them are the text. -/
structure Lossless (source : String) (ts : List Token) : Prop where
  ends : ∃ us stop, ts = us ++ [stop] ∧ stop.kind = .eof ∧ stop.span.lo = source.utf8ByteSize ∧
    stop.span.len = 0 ∧ ∀ t ∈ us, t.kind ≠ .eof ∧ 0 < t.span.len
  ordered : ts.Pairwise fun t u => t.span.hi ≤ u.span.lo
  trivia : ∀ g ∈ gaps source.utf8ByteSize 0 ts, Trivia (g.hi = source.utf8ByteSize) (g.cut source).toList
  texts : ∀ t ∈ ts, t.SpelledBy (t.span.cut source).toList
  whole : (stretches source.utf8ByteSize 0 ts).flatMap (fun s => (s.cut source).toList) = source.toList

namespace Tiles

variable {source : String} {lo : Nat} {before rest : List Char} {ts : List Token}

theorem lo_le (h : Tiles lo rest ts) : ∀ t ∈ ts, lo ≤ t.span.lo := by
  induction h with
  | ending _ _ _ hlo =>
    rw [List.forall_mem_singleton]
    omega
  | @token lo gap chars rest t ts _ _ _ _ hlo hhi _ ih =>
    rw [List.forall_mem_cons]
    constructor
    · omega
    · intro u hu
      have hle := ih u hu
      omega

theorem ordered (h : Tiles lo rest ts) : ts.Pairwise fun t u => t.span.hi ≤ u.span.lo := by
  induction h with
  | ending => exact List.pairwise_singleton _ _
  | token _ _ _ _ _ _ h ih => exact List.pairwise_cons.mpr ⟨h.lo_le, ih⟩

theorem byteLength_pos {chars : List Char} (h : chars ≠ []) : 0 < byteLength chars := by
  obtain ⟨c, cs, rfl⟩ := List.exists_cons_of_ne_nil h
  have hc := c.utf8Size_pos
  rw [byteLength_cons]
  omega

theorem ends (h : Tiles lo rest ts) : ∃ us stop, ts = us ++ [stop] ∧ stop.kind = .eof ∧
    stop.span.lo = lo + byteLength rest ∧ stop.span.len = 0 ∧ ∀ t ∈ us, t.kind ≠ .eof ∧ 0 < t.span.len := by
  induction h with
  | @ending lo gap t _ ht _ hlo hlen => exact ⟨[], t, rfl, ht, hlo, hlen, nofun⟩
  | @token lo gap chars rest t ts _ ht hchars _ hlo hhi _ ih =>
    obtain ⟨us, stop, rfl, hstop, hend, hlen, hus⟩ := ih
    have hpos := byteLength_pos hchars
    have ht' : 0 < t.span.len := by
      unfold Span.hi at hhi
      omega
    refine ⟨t :: us, stop, rfl, hstop, ?_, hlen, List.forall_mem_cons.mpr ⟨⟨ht, ht'⟩, hus⟩⟩
    rw [hend, hhi, byteLength_append, byteLength_append]
    omega

section Cut

variable (hsource : source.toList = before ++ rest) (hlo : lo = byteLength before)

include hsource hlo

theorem size_eq : lo + byteLength rest = source.utf8ByteSize := by
  rw [hlo, ← byteLength_append, ← hsource, byteLength, String.ofList_toList]

theorem cut_eq {gap inside after : List Char} {s : Span} (hrest : rest = gap ++ inside ++ after)
    (hs : s.lo = lo + byteLength gap) (he : s.hi = lo + byteLength gap + byteLength inside) :
    (s.cut source).toList = inside := by
  have hsplit : source.toList = before ++ gap ++ inside ++ after := by
    rw [hsource, hrest]
    simp only [List.append_assoc]
  have hcut : s.cut source = String.ofList inside := by
    apply Span.cut_of_append hsplit
    · rw [hs, hlo, byteLength_append]
    · rw [he, hlo, byteLength_append, byteLength_append]
  rw [hcut, String.toList_ofList]

theorem cut_gap {gap after : List Char} {hi : Nat} (hrest : rest = gap ++ after) (hhi : hi = lo + byteLength gap) :
    ((Span.fromTo lo hi).cut source).toList = gap := by
  have hsplit : rest = [] ++ gap ++ after := hrest
  apply cut_eq hsource hlo hsplit
  · rfl
  · rw [Span.hi_fromTo (by omega), hhi]
    rfl

theorem cut_end {s : Span} (hs : s.lo = lo + byteLength rest) (he : s.hi = lo + byteLength rest) :
    (s.cut source).toList = [] := by
  have hsplit : rest = rest ++ [] ++ [] := by rw [List.append_nil, List.append_nil]
  exact cut_eq hsource hlo hsplit hs he

end Cut

/-- What is said of a whole text, from byte `lo` on. -/
structure Accounts (source : String) (lo : Nat) (rest : List Char) (ts : List Token) : Prop where
  trivia : ∀ g ∈ gaps source.utf8ByteSize lo ts, Trivia (g.hi = source.utf8ByteSize) (g.cut source).toList
  texts : ∀ t ∈ ts, t.SpelledBy (t.span.cut source).toList
  whole : (stretches source.utf8ByteSize lo ts).flatMap (fun s => (s.cut source).toList) = rest

theorem accounts (h : Tiles lo rest ts) (hsource : source.toList = before ++ rest)
    (hlo : lo = byteLength before) : Accounts source lo rest ts := by
  -- What was read before `lo` grows by a gap and a token with each step.
  induction h generalizing before with
  | @ending lo gap t hgap ht htext hstart hlen =>
    have hsize := size_eq hsource hlo
    have hend : t.span.hi = lo + byteLength gap := by
      rw [Span.hi, hlen, hstart]
      rfl
    have hcut := cut_gap hsource hlo (List.append_nil gap).symm hstart
    have hempty : (t.span.cut source).toList = [] := cut_end hsource hlo hstart hend
    have hbehind : ((Span.fromTo t.span.hi source.utf8ByteSize).cut source).toList = [] := by
      apply cut_end hsource hlo hend
      rw [Span.hi_fromTo (by omega), hsize]
    constructor
    · rw [gaps, gaps, List.forall_mem_cons, List.forall_mem_singleton, hcut, hbehind]
      refine ⟨hgap.mono fun _ => ?_, .nil⟩
      rw [Span.hi_fromTo (by omega)]
      omega
    · have hspelled : t.SpelledBy [] := by
        rw [Token.SpelledBy, ht, htext]
        exact rfl
      rw [List.forall_mem_singleton, hempty]
      exact hspelled
    · simp [stretches, hcut, hempty, hbehind]
  | @token lo gap chars rest t ts hgap _ _ htext hstart hend _ ih =>
    have hcut := cut_gap hsource hlo (List.append_assoc gap chars rest) hstart
    have hchars := cut_eq hsource hlo rfl hstart hend
    have hread : source.toList = before ++ (gap ++ chars) ++ rest := by
      rw [hsource, List.append_assoc before]
    have htail : t.span.hi = byteLength (before ++ (gap ++ chars)) := by
      rw [hend, hlo, byteLength_append, byteLength_append]
      omega
    obtain ⟨htrivia, htexts, hwhole⟩ := ih hread htail
    constructor
    · rw [gaps, List.forall_mem_cons, hcut]
      exact ⟨hgap.mono False.elim, htrivia⟩
    · rw [List.forall_mem_cons, hchars]
      exact ⟨htext, htexts⟩
    · rw [stretches, List.flatMap_cons, List.flatMap_cons, hcut, hchars, hwhole, List.append_assoc]

end Tiles

/-- Scanning loses nothing of a text whose places fit into 32 bits. -/
theorem lossless_of_tokenize {source : String} {ts : List Token} (hsize : source.utf8ByteSize < UInt32.size)
    (h : tokenize source = .ok ts) : Lossless source ts := by
  have htiles : Tiles 0 source.toList ts :=
    Scanner.tiles_of_tokens hsize (Scanner.standsIn_ofString source) h
  have hsource : source.toList = [] ++ source.toList := rfl
  have hlo : 0 = byteLength [] := rfl
  have hends := htiles.ends
  rw [Tiles.size_eq hsource hlo] at hends
  obtain ⟨htrivia, htexts, hwhole⟩ := htiles.accounts hsource hlo
  exact ⟨hends, htiles.ordered, htrivia, htexts, hwhole⟩

/-- A string with an escape, behind a character of two bytes, and a comment without a line feed. -/
theorem lossless_of_tokenize_comment :
    ("// é\nx = \"a\\n\"; // end").utf8ByteSize < UInt32.size ∧
      ∃ ts, tokenize "// é\nx = \"a\\n\"; // end" = .ok ts ∧ ts.length = 5 ∧
        Lossless "// é\nx = \"a\\n\"; // end" ts := by
  have hsize : ("// é\nx = \"a\\n\"; // end").utf8ByteSize < UInt32.size := by decide
  have hrun : (tokenize "// é\nx = \"a\\n\"; // end").toOption.map List.length = some 5 := by
    decide +kernel
  refine ⟨hsize, ?_⟩
  cases h : tokenize "// é\nx = \"a\\n\"; // end" with
  | error e =>
    rw [h] at hrun
    cases hrun
  | ok ts =>
    rw [h] at hrun
    exact ⟨ts, rfl, Option.some.inj hrun, lossless_of_tokenize hsize h⟩

end Gondola
