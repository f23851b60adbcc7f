import Gondola.Token.Stream

/-! One step of scanning: what it leaves, and what it finds. -/
namespace Gondola

namespace Lexeme

theorem ofSymbol_kind_ne_eof (c : Char) (cs : List Char) : (ofSymbol c cs).kind ≠ .eof := by
  unfold ofSymbol
  split
  · simp [plain]
  · split
    · simp only [ofWord, plain]
      split <;> simp
    · split <;> simp [ofDigits, plain]

theorem first?_kind_ne_eof {c : Char} {cs : List Char} {l : Lexeme} (h : first? c cs = some l) :
    l.kind ≠ .eof := by
  unfold first? at h
  split at h
  · obtain ⟨p, -, rfl⟩ := Option.map_eq_some_iff.mp h
    simp
  · split at h
    · obtain rfl := Option.some.inj h
      exact ofSymbol_kind_ne_eof c []
    · split at h <;> obtain rfl := Option.some.inj h
      · simp [plain]
      · exact ofSymbol_kind_ne_eof c _

end Lexeme

namespace Scanner

def start (s : Scanner) : Position := s.here.after (splitTrivia false s.rest).1

def text (s : Scanner) : List Char := (splitTrivia false s.rest).2

theorem text_length_le (s : Scanner) : s.text.length ≤ s.rest.length := by
  have hall := congrArg List.length (splitTrivia_append false s.rest)
  rw [List.length_append] at hall
  unfold text
  omega

/-- What a step finds: the end of input, a token, or a literal without an end. -/
inductive Finds (s : Scanner) : Except (Located ScanError) Token → Scanner → Prop
  | ending (h : s.text = []) : Finds s (.ok ⟨.eof, "", .between s.start s.start⟩) ⟨[], s.start, true⟩
  | token {c cs l} (h : s.text = c :: cs) (hl : Lexeme.first? c cs = some l) :
      Finds s (.ok ⟨l.kind, String.ofList l.text, .between s.start (s.start.after l.chars)⟩)
        ⟨l.rest, s.start.after l.chars, false⟩
  | unclosed {c cs} (h : s.text = c :: cs) (hl : Lexeme.first? c cs = none) :
      Finds s (.error ⟨.between s.start (s.start.after s.text), .unterminatedString⟩)
        ⟨[], s.start.after s.text, s.done⟩

theorem finds_next (s : Scanner) : Finds s s.next.1 s.next.2 := by
  unfold next
  split
  rename_i gap text hsplit
  have hstart : s.start = s.here.after gap := by rw [start, hsplit]
  have htext : s.text = text := by rw [Scanner.text, hsplit]
  cases text with
  | nil => exact hstart ▸ .ending htext
  | cons c cs =>
    simp only
    cases hl : Lexeme.first? c cs with
    | some l => exact hstart ▸ .token htext hl
    | none =>
      have hunclosed := Finds.unclosed htext hl
      rw [htext, hstart] at hunclosed
      exact hunclosed

theorem finds_of_next {s s' : Scanner} {r : Except (Located ScanError) Token}
    (h : s.next = (r, s')) : Finds s r s' := by
  have hfinds := s.finds_next
  rwa [h] at hfinds

theorem next_of_eof {s s' : Scanner} {t : Token} (h : s.next = (.ok t, s')) (ht : t.kind = .eof) :
    s'.next = (.ok t, s') := by
  cases finds_of_next h with
  | ending => rfl
  | token _ hl => exact absurd ht (Lexeme.first?_kind_ne_eof hl)

theorem tokens_of_ok {s s' : Scanner} {t : Token} (h : s.next = (.ok t, s')) :
    s.tokens = if t.kind = .eof then .ok [t] else (t :: ·) <$> s'.tokens := by
  rw [tokens]
  split
  · rename_i h'
    rw [h] at h'
    simp at h'
  · rename_i h'
    rw [h] at h'
    simp only [Prod.mk.injEq, Except.ok.injEq] at h'
    obtain ⟨rfl, rfl⟩ := h'
    split
    · rfl
    · cases s'.tokens <;> rfl

theorem tokens_of_error {s s' : Scanner} {e : Located ScanError} (h : s.next = (.error e, s')) :
    s.tokens = .error e := by
  rw [tokens]
  split
  · rename_i h'
    rw [h] at h'
    simp only [Prod.mk.injEq, Except.error.injEq] at h'
    rw [h'.1]
  · rename_i h'
    rw [h] at h'
    simp at h'

theorem tokens_length_le (s : Scanner) {ts : List Token} (h : s.tokens = .ok ts) :
    ts.length ≤ s.rest.length + 1 := by
  fun_induction tokens s generalizing ts with
  | case1 => simp at h
  | case2 s t s' hn he =>
    simp only [Except.ok.injEq] at h
    simp [← h]
  | case3 => simp at h
  | case4 s t s' hn he hlt us hus ih =>
    simp only [Except.ok.injEq] at h
    subst h
    have := ih hus
    simp only [List.length_cons]
    omega

theorem tokens_ne_nil (s : Scanner) : s.tokens ≠ .ok [] := by
  rcases h : s.next with ⟨e | t, s'⟩
  · rw [tokens_of_error h]
    simp
  · rw [tokens_of_ok h]
    split
    · simp
    · cases s'.tokens with
      | error e => exact fun hnil => by cases hnil
      | ok ts => exact fun hnil => by cases Except.ok.inj hnil

end Scanner

end Gondola
