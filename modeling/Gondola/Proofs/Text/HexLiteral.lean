import Gondola.Proofs.Code.OneLine

/-! String literals with hexadecimal escapes, which stand for the text that was written. As far as source has the same
escapes, scanning reads them back too. -/
namespace Gondola

namespace Text

def simpleEscapes : List (Char × Char) := [('"', '"'), ('\\', '\\'), ('\n', 'n'), ('\r', 'r'), ('\t', 't')]

/-- The three ways to write a character in a literal. -/
inductive WrittenAs (style : ControlEscape) (c : Char) : List Char → Prop
  | plain (hquote : c ≠ '"') (hslash : c ≠ '\\') (hcontrol : isControl c = false) : WrittenAs style c [c]
  | simple {d : Char} (h : (c, d) ∈ simpleEscapes) : WrittenAs style c ['\\', d]
  | control (h : isControl c = true) : WrittenAs style c (style.chars c)

theorem writtenAs_literalChar (style : ControlEscape) (c : Char) : WrittenAs style c (literalChar style c) := by
  unfold literalChar
  split_ifs with hquote hslash hn hr ht hcontrol
  · subst hquote
    exact .simple (by decide)
  · subst hslash
    exact .simple (by decide)
  · subst hn
    exact .simple (by decide)
  · subst hr
    exact .simple (by decide)
  · subst ht
    exact .simple (by decide)
  · exact .control hcontrol
  · exact .plain hquote hslash (Bool.eq_false_iff.mpr hcontrol)

theorem toNat_lt_of_isControl {c : Char} (h : isControl c = true) : c.toNat < 128 := by
  rw [isControl, Bool.or_eq_true, decide_eq_true_eq, beq_iff_eq] at h
  omega

theorem ne_of_isControl {c : Char} (h : isControl c = false) : c ≠ '\n' ∧ c ≠ '\r' := by
  constructor
  · rintro rfl
    exact absurd h (by decide)
  · rintro rfl
    exact absurd h (by decide)

namespace HexLiteral

/-- What a character behind a backslash stands for on its own. -/
def escape? : Char → Option Char
  | '"' => some '"'
  | '\\' => some '\\'
  | 'n' => some '\n'
  | 'r' => some '\r'
  | 't' => some '\t'
  | _ => none

/-- Reads what follows the opening quote of a literal. The first quote without a backslash has to be the end of the
text, there are no line breaks, and no escapes but those that are known. -/
def read? : List Char → Option (List Char)
  | [] => none
  | '"' :: cs => if cs = [] then some [] else none
  | '\\' :: 'x' :: a :: b :: cs => do
    let high ← hexDigit? a
    let low ← hexDigit? b
    (Char.ofNat (16 * high + low) :: ·) <$> read? cs
  | '\\' :: c :: cs => do
    let d ← escape? c
    (d :: ·) <$> read? cs
  | c :: cs => if c = '\\' ∨ c = '\n' ∨ c = '\r' then none else (c :: ·) <$> read? cs

variable {c : Char}

theorem read?_plain (cs : List Char) (hquote : c ≠ '"') (hslash : c ≠ '\\') (hn : c ≠ '\n') (hr : c ≠ '\r') :
    read? (c :: cs) = (c :: ·) <$> read? cs := by
  rw [read?]
  · exact if_neg fun h => h.elim hslash fun h => h.elim hn hr
  · exact hquote
  · exact fun _ _ _ h _ => hslash h
  · exact fun _ _ h _ => hslash h

theorem read?_simple {d : Char} (h : (c, d) ∈ simpleEscapes) (cs : List Char) :
    read? ('\\' :: d :: cs) = (c :: ·) <$> read? cs := by
  have hall : ∀ p ∈ simpleEscapes, escape? p.2 = some p.1 ∧ p.2 ≠ 'x' := by decide
  obtain ⟨hescape, hx⟩ := hall (c, d) h
  rw [read?]
  · rw [hescape]
    rfl
  · exact fun _ _ _ h _ => hx h

theorem read?_control (h : isControl c = true) (cs : List Char) :
    read? (ControlEscape.hex.chars c ++ cs) = (c :: ·) <$> read? cs := by
  have hsmall := toNat_lt_of_isControl h
  have hhigh := hexDigit?_digitChar (c.toNat / 16) (by omega)
  have hlow := hexDigit?_digitChar (c.toNat % 16) (by omega)
  have hsum : 16 * (c.toNat / 16) + c.toNat % 16 = c.toNat := by omega
  show (do
    let high ← hexDigit? (Nat.digitChar (c.toNat / 16))
    let low ← hexDigit? (Nat.digitChar (c.toNat % 16))
    (Char.ofNat (16 * high + low) :: ·) <$> read? cs) = _
  rw [hhigh, hlow]
  show (Char.ofNat (16 * (c.toNat / 16) + c.toNat % 16) :: ·) <$> read? cs = _
  rw [hsum, Char.ofNat_toNat]

theorem read?_literalChar (c : Char) (cs : List Char) :
    read? (literalChar .hex c ++ cs) = (c :: ·) <$> read? cs := by
  have h := writtenAs_literalChar .hex c
  generalize literalChar .hex c = written at h
  cases h with
  | plain hquote hslash hcontrol =>
    obtain ⟨hn, hr⟩ := ne_of_isControl hcontrol
    exact read?_plain cs hquote hslash hn hr
  | simple h => exact read?_simple h cs
  | control h => exact read?_control h cs

theorem read?_written (text : List Char) : read? (text.flatMap (literalChar .hex) ++ ['"']) = some text := by
  induction text with
  | nil => rfl
  | cons c text ih =>
    rw [List.flatMap_cons, List.append_assoc, read?_literalChar, ih]
    rfl

end HexLiteral

end Text

namespace Literal

open Text

theorem body?_literalChar (c : Char) (cs : List Char) :
    body? (literalChar .hex c ++ cs) = (body? cs).map fun (body, rest) => (literalChar .hex c ++ body, rest) := by
  have h := writtenAs_literalChar .hex c
  generalize literalChar .hex c = written at h
  cases h with
  | plain hquote hslash _ => exact body?_plain cs hquote hslash
  | simple h => rfl
  | control h =>
    have hsmall := toNat_lt_of_isControl h
    obtain ⟨hquote, hslash⟩ := ne_of_hexDigit? (hexDigit?_digitChar (c.toNat / 16) (by omega))
    obtain ⟨hquote', hslash'⟩ := ne_of_hexDigit? (hexDigit?_digitChar (c.toNat % 16) (by omega))
    show (body? (Nat.digitChar (c.toNat / 16) :: Nat.digitChar (c.toNat % 16) :: cs)).map _ = _
    rw [body?_plain _ hquote hslash, body?_plain _ hquote' hslash', Option.map_map, Option.map_map]
    rfl

theorem body?_quoted (text : List Char) :
    body? (text.flatMap (literalChar .hex) ++ ['"']) = some (text.flatMap (literalChar .hex), []) := by
  induction text with
  | nil => rfl
  | cons c text ih =>
    rw [List.flatMap_cons, List.append_assoc, body?_literalChar, ih]
    rfl

end Literal

section Targets

open Text

/-- A literal between its two quotes. The first one that no backslash takes is the last character, there is no line
break, and what is in between stands for the text. -/
structure Text.HexLiteral.IsQuoted (literal : String) (text : List Char) (body : List Char) : Prop where
  quotes : literal.toList = '"' :: body ++ ['"']
  closed : Literal.body? (body ++ ['"']) = some (body, [])
  oneLine : '\n' ∉ literal.toList ∧ '\r' ∉ literal.toList
  reads : HexLiteral.read? (body ++ ['"']) = some text

theorem Text.HexLiteral.isQuoted_stringLiteral (s : String) :
    IsQuoted (stringLiteral .hex s) s.toList (s.toList.flatMap (literalChar .hex)) where
  quotes := String.toList_ofList
  closed := Literal.body?_quoted s.toList
  oneLine := by
    have hcode := oneLine_stringLiteral .hex s
    exact ⟨fun h => (hcode _ h).1 rfl, fun h => (hcode _ h).2 rfl⟩
  reads := HexLiteral.read?_written s.toList

/-- If source has the escapes of a literal too, the literal is scanned as the text. -/
theorem tokenize_stringLiteral {s : String} (style : ControlEscape) (h : ∀ c ∈ s.toList, isWritable c = true) :
    ∃ t stop, tokenize (stringLiteral style s) = .ok [t, stop] ∧ t.kind = .string ∧ t.text = s ∧ stop.kind = .eof := by
  have hlexes : Lexes (stringLiteral style s).toList fun ts => ∃ t, ts = [t] ∧ t.kind = .string ∧ t.text = s :=
    Lexes.literal h style fun t hk ht => ⟨t, rfl, hk, ht⟩
  obtain ⟨_, stop, htokens, hstop, t, rfl, hk, ht⟩ := hlexes.tokens {} false
  exact ⟨t, stop, htokens, hk, ht, hstop⟩

/-- Python and JavaScript literals stand for the text. Source with the same literal has the same text if all its control
characters have escapes of their own. -/
theorem hexLiteral_read_back (s : String) :
    (∀ cx n, (Python.expr cx (.string n s)).value = stringLiteral .hex s ∧
      (JavaScript.expr cx (.string n s)).value = stringLiteral .hex s) ∧
    (∃ body, HexLiteral.IsQuoted (stringLiteral .hex s) s.toList body) ∧
    ((∀ c ∈ s.toList, isControl c = true → c = '\n' ∨ c = '\r' ∨ c = '\t') →
      ∃ t stop, tokenize (stringLiteral .hex s) = .ok [t, stop] ∧ t.kind = .string ∧ t.text = s ∧
        stop.kind = .eof) := by
  refine ⟨fun _ _ => ⟨rfl, rfl⟩, ⟨_, HexLiteral.isQuoted_stringLiteral s⟩, fun h => ?_⟩
  refine tokenize_stringLiteral .hex fun c hc => ?_
  cases hcontrol : isControl c with
  | false => rw [isWritable, hcontrol, Bool.not_false, Bool.true_or, Bool.true_or, Bool.true_or]
  | true =>
    rcases h c hc hcontrol with rfl | rfl | rfl
    · decide
    · decide
    · decide

/-- Backslashes and quotes that look like escapes before they are written. -/
theorem hexLiteral_read_back_escapes :
    (∀ c ∈ "\\\"\\n\n\\x41\t0".toList, isControl c = true → c = '\n' ∨ c = '\r' ∨ c = '\t') ∧
    ∃ t stop, tokenize (stringLiteral .hex "\\\"\\n\n\\x41\t0") = .ok [t, stop] ∧ t.kind = .string ∧
      t.text = "\\\"\\n\n\\x41\t0" ∧ stop.kind = .eof := by
  have hall : ("\\\"\\n\n\\x41\t0".toList.all fun c => !isControl c || c == '\n' || c == '\r' || c == '\t') = true := by
    decide
  have hcontrols : ∀ c ∈ "\\\"\\n\n\\x41\t0".toList, isControl c = true → c = '\n' ∨ c = '\r' ∨ c = '\t' := by
    intro c hc hcontrol
    simpa [hcontrol, or_assoc] using List.all_eq_true.mp hall c hc
  exact ⟨hcontrols, (hexLiteral_read_back "\\\"\\n\n\\x41\t0").2.2 hcontrols⟩

end Targets

end Gondola
