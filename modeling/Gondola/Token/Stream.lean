import Gondola.Token.Scanner

/-! All tokens of a text. Scanning splits the text and loses no character of it, so each token other
than the end of input leaves less to scan. -/
namespace Gondola

open Text

theorem splitTrivia_append (inComment : Bool) (cs : List Char) :
    (splitTrivia inComment cs).1 ++ (splitTrivia inComment cs).2 = cs := by
  fun_induction splitTrivia inComment cs <;> simp_all

namespace Literal

theorem body?_append {cs body rest : List Char} (h : body? cs = some (body, rest)) :
    body ++ '"' :: rest = cs := by
  fun_induction body? cs generalizing body with
  | case1 => simp at h
  | case2 cs => simp at h; simp [h]
  | case3 c cs ih =>
    obtain ⟨⟨b, r⟩, hp, he⟩ := Option.map_eq_some_iff.mp h
    simp only [Prod.mk.injEq] at he
    obtain ⟨rfl, rfl⟩ := he
    simp [ih hp]
  | case4 c cs _ _ ih =>
    obtain ⟨⟨b, r⟩, hp, he⟩ := Option.map_eq_some_iff.mp h
    simp only [Prod.mk.injEq] at he
    obtain ⟨rfl, rfl⟩ := he
    simp [ih hp]

end Literal

namespace Lexeme

theorem ofSymbol_append (c : Char) (cs : List Char) :
    (ofSymbol c cs).chars ++ (ofSymbol c cs).rest = c :: cs := by
  unfold ofSymbol
  split
  · simp [plain]
  · split
    · simp [ofWord, plain, List.takeWhile_append_dropWhile]
    · split
      · simp [ofDigits, plain, List.takeWhile_append_dropWhile]
      · simp [plain]

theorem ofSymbol_chars_ne_nil (c : Char) (cs : List Char) : (ofSymbol c cs).chars ≠ [] := by
  unfold ofSymbol
  split
  · simp [plain]
  · split
    · simp [ofWord, plain]
    · split <;> simp [ofDigits, plain]

theorem first?_append {c : Char} {cs : List Char} {l : Lexeme} (h : first? c cs = some l) :
    l.chars ++ l.rest = c :: cs := by
  unfold first? at h
  split at h
  · obtain ⟨p, hp, rfl⟩ := Option.map_eq_some_iff.mp h
    have hb := Literal.body?_append (show Literal.body? cs = some (p.1, p.2) from hp)
    simp_all
  · split at h
    · simp only [Option.some.injEq] at h
      subst h
      exact ofSymbol_append c []
    · split at h <;> simp only [Option.some.injEq] at h <;> subst h
      · simp [plain]
      · exact ofSymbol_append c _

theorem first?_chars_ne_nil {c : Char} {cs : List Char} {l : Lexeme} (h : first? c cs = some l) :
    l.chars ≠ [] := by
  unfold first? at h
  split at h
  · obtain ⟨p, _, rfl⟩ := Option.map_eq_some_iff.mp h
    simp
  · split at h
    · simp only [Option.some.injEq] at h
      subst h
      exact ofSymbol_chars_ne_nil c []
    · split at h <;> simp only [Option.some.injEq] at h <;> subst h
      · simp [plain]
      · exact ofSymbol_chars_ne_nil c _

theorem first?_rest_length_lt {c : Char} {cs : List Char} {l : Lexeme} (h : first? c cs = some l) :
    l.rest.length < (c :: cs).length := by
  have ha := congrArg List.length (first?_append h)
  have hn := List.length_pos_iff.mpr (first?_chars_ne_nil h)
  simp only [List.length_append] at ha
  omega

end Lexeme

namespace Scanner

theorem next_rest_length_lt {s s' : Scanner} {t : Token} (h : s.next = (.ok t, s'))
    (ht : t.kind ≠ .eof) : s'.rest.length < s.rest.length := by
  have hg := congrArg List.length (splitTrivia_append false s.rest)
  simp only [List.length_append] at hg
  unfold next at h
  simp only at h
  split at h
  · simp only [Prod.mk.injEq, Except.ok.injEq] at h
    exact absurd (h.1 ▸ rfl) ht
  · rename_i c cs hc
    split at h
    · rename_i l hl
      simp only [Prod.mk.injEq] at h
      have hr := Lexeme.first?_rest_length_lt hl
      rw [← hc] at hr
      rw [← h.2]
      show l.rest.length < s.rest.length
      omega
    · simp at h

/-- The tokens from here up to the end of input, which is the last of them. -/
def tokens (s : Scanner) : Except (Located ScanError) (List Token) :=
  match h : s.next with
  | (.error e, _) => .error e
  | (.ok t, s') =>
    if ht : t.kind = .eof then .ok [t]
    else
      have _ := next_rest_length_lt h ht
      match tokens s' with
      | .error e => .error e
      | .ok ts => .ok (t :: ts)
termination_by s.rest.length

end Scanner

def tokenize (source : String) : Except (Located ScanError) (List Token) :=
  (Scanner.ofString source).tokens

end Gondola
