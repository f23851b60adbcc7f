import Gondola.Compile
import Gondola.Proofs.Text.HexLiteral
import Gondola.Proofs.Typing.Parts
import Gondola.Proofs.Typing.Soundness

/-! String literals as C reads them. Before anything else, two question marks and a third character can be one character
there, a trigraph. The literal that is written for a text stands for its bytes if there are no trigraphs in it, and
never if there are some. -/
namespace Gondola

namespace Text

namespace CLiteral

/-- What two question marks and the given character stand for. -/
def trigraph? : Char → Option Char
  | '=' => some '#'
  | '(' => some '['
  | '/' => some '\\'
  | ')' => some ']'
  | '\'' => some '^'
  | '<' => some '\x7b'
  | '!' => some '|'
  | '>' => some '\x7d'
  | '-' => some '~'
  | _ => none

def replaceTrigraphs : List Char → List Char
  | '?' :: '?' :: c :: cs =>
    match trigraph? c with
    | some r => r :: replaceTrigraphs cs
    | none => '?' :: replaceTrigraphs ('?' :: c :: cs)
  | c :: cs => c :: replaceTrigraphs cs
  | [] => []

def startsTrigraph : List Char → Bool
  | '?' :: '?' :: c :: _ => (trigraph? c).isSome
  | _ => false

def hasTrigraph (cs : List Char) : Bool := cs.tails.any startsTrigraph

def isOctalDigit (c : Char) : Bool := '0' ≤ c && c ≤ '7'

def isHexDigit (c : Char) : Bool := (hexDigit? c).isSome

def number (base : Nat) (digits : List Char) : Nat :=
  digits.foldl (fun v d => base * v + (hexDigit? d).getD 0) 0

def simple? : Char → Option Char
  | '\'' => some '\''
  | '"' => some '"'
  | '?' => some '?'
  | '\\' => some '\\'
  | 'a' => some '\x07'
  | 'b' => some '\x08'
  | 'f' => some '\x0c'
  | 'n' => some '\n'
  | 'r' => some '\r'
  | 't' => some '\t'
  | 'v' => some '\x0b'
  | _ => none

/-- The digits that belong to an escape: up to three octal ones, any number of hexadecimal ones, or as many of those as
a universal name takes. -/
def escapeDigits (c : Char) (cs : List Char) : List Char :=
  if isOctalDigit c then (cs.take 2).takeWhile isOctalDigit
  else if c = 'x' then cs.takeWhile isHexDigit
  else if c = 'u' then (cs.take 4).takeWhile isHexDigit
  else if c = 'U' then (cs.take 8).takeWhile isHexDigit
  else []

def byte? (v : Nat) : Option (List UInt8) := if v < 256 then some [UInt8.ofNat v] else none

/-- Universal names are for characters that cannot be written otherwise. -/
def universal? (v : Nat) : Option (List UInt8) :=
  if v.isValidChar ∧ (160 ≤ v ∨ v = '$'.toNat ∨ v = '@'.toNat ∨ v = '\x60'.toNat) then
    some (String.utf8EncodeChar (Char.ofNat v))
  else none

/-- What an escape stands for, by the character behind the backslash and the digits that follow. -/
def escape? (c : Char) (digits : List Char) : Option (List UInt8) :=
  if isOctalDigit c then byte? (number 8 (c :: digits))
  else if c = 'x' then if digits = [] then none else byte? (number 16 digits)
  else if c = 'u' then if digits.length = 4 then universal? (number 16 digits) else none
  else if c = 'U' then if digits.length = 8 then universal? (number 16 digits) else none
  else (simple? c).map String.utf8EncodeChar

/-- Reads what follows the opening quote of a literal. The first quote without a backslash has to be the end. -/
def read? : List Char → Option (List UInt8)
  | [] => none
  | '"' :: cs => if cs = [] then some [] else none
  | '\\' :: c :: cs => do
    let bytes ← escape? c (escapeDigits c cs)
    (bytes ++ ·) <$> read? (cs.drop (escapeDigits c cs).length)
  | c :: cs => if c = '\\' ∨ c = '\n' then none else (String.utf8EncodeChar c ++ ·) <$> read? cs
termination_by cs => cs.length

def bytes? (literal : String) : Option (List UInt8) :=
  match replaceTrigraphs literal.toList with
  | '"' :: cs => read? cs
  | _ => none

/-! Escapes. -/
section Escapes

variable {c : Char} {cs ds : List Char} {bs : List UInt8}

theorem read?_escape (c : Char) (cs : List Char) :
    read? ('\\' :: c :: cs) = (do
      let bytes ← escape? c (escapeDigits c cs)
      (bytes ++ ·) <$> read? (cs.drop (escapeDigits c cs).length)) := by
  rw [read?]

theorem read?_plain (cs : List Char) (hquote : c ≠ '"') (hslash : c ≠ '\\') (hn : c ≠ '\n') :
    read? (c :: cs) = (String.utf8EncodeChar c ++ ·) <$> read? cs := by
  rw [read?]
  · exact if_neg fun h => h.elim hslash hn
  · exact hquote
  · exact fun _ _ h _ => hslash h

theorem escapeDigits_append (c : Char) (cs : List Char) :
    escapeDigits c cs ++ cs.drop (escapeDigits c cs).length = cs := by
  have htake (k : Nat) (p : Char → Bool) : (cs.take k).takeWhile p <+: cs :=
    (List.takeWhile_prefix p).trans (List.take_prefix k cs)
  refine List.prefix_iff_eq_append.mp ?_
  unfold escapeDigits
  split_ifs
  · exact htake 2 _
  · exact List.takeWhile_prefix _
  · exact htake 4 _
  · exact htake 8 _
  · exact List.nil_prefix

theorem isHexDigit_of_isOctalDigit (h : isOctalDigit c = true) : isHexDigit c = true := by
  rw [isOctalDigit, Bool.and_eq_true, decide_eq_true_eq, decide_eq_true_eq] at h
  have hseven : '7' ≤ '9' := by decide
  rw [isHexDigit, hexDigit?, if_pos ⟨h.1, Char.le_trans h.2 hseven⟩]
  rfl

theorem isHexDigit_escapeDigits {d : Char} (h : d ∈ escapeDigits c cs) : isHexDigit d = true := by
  unfold escapeDigits at h
  split_ifs at h
  · exact isHexDigit_of_isOctalDigit (List.mem_takeWhile_imp h)
  · exact List.mem_takeWhile_imp h
  · exact List.mem_takeWhile_imp h
  · exact List.mem_takeWhile_imp h
  · cases h

theorem length_byte? {v : Nat} (h : byte? v = some bs) : bs.length = 1 := by
  unfold byte? at h
  split at h
  · rw [← Option.some.inj h]
    rfl
  · cases h

theorem length_universal? {v : Nat} (h : universal? v = some bs) : bs.length ≤ 4 := by
  unfold universal? at h
  split at h
  · rw [← Option.some.inj h, String.length_utf8EncodeChar]
    exact Char.utf8Size_le_four _
  · cases h

theorem utf8Size_of_simple? {d : Char} (h : simple? c = some d) : d.utf8Size = 1 := by
  unfold simple? at h
  split at h <;> cases h <;> decide

theorem length_escape? (h : escape? c ds = some bs) : bs.length ≤ 1 + ds.length := by
  unfold escape? at h
  split_ifs at h
  · rw [length_byte? h]
    omega
  · rw [length_byte? h]
    omega
  · have := length_universal? h
    omega
  · have := length_universal? h
    omega
  · obtain ⟨d, hd, rfl⟩ := Option.map_eq_some_iff.mp h
    rw [String.length_utf8EncodeChar, utf8Size_of_simple? hd]
    omega

end Escapes

/-! What is written for a text, as long as nothing in it is replaced. -/
section Written

variable {c : Char}

theorem read?_simple {d : Char} (h : (c, d) ∈ simpleEscapes) (cs : List Char) :
    read? ('\\' :: d :: cs) = (String.utf8EncodeChar c ++ ·) <$> read? cs := by
  have hall : ∀ p ∈ simpleEscapes, escape? p.2 [] = some (String.utf8EncodeChar p.1) ∧
      isOctalDigit p.2 = false ∧ p.2 ≠ 'x' ∧ p.2 ≠ 'u' ∧ p.2 ≠ 'U' := by decide
  obtain ⟨hescape, hoctal, hx, hu, hU⟩ := hall (c, d) h
  have hdigits : escapeDigits d cs = [] := by
    rw [escapeDigits, if_neg (Bool.eq_false_iff.mp hoctal), if_neg hx, if_neg hu, if_neg hU]
  rw [read?_escape, hdigits, hescape]
  rfl

theorem octalDigit_digitChar : ∀ n < 8, isOctalDigit (Nat.digitChar n) = true := by decide

theorem read?_control (h : isControl c = true) (cs : List Char) :
    read? (ControlEscape.octal.chars c ++ cs) = (String.utf8EncodeChar c ++ ·) <$> read? cs := by
  have hsmall := toNat_lt_of_isControl h
  have ha := octalDigit_digitChar (c.toNat / 64) (by omega)
  have hb := octalDigit_digitChar (c.toNat / 8 % 8) (by omega)
  have hd := octalDigit_digitChar (c.toNat % 8) (by omega)
  have hdigits : escapeDigits (Nat.digitChar (c.toNat / 64))
      (Nat.digitChar (c.toNat / 8 % 8) :: Nat.digitChar (c.toNat % 8) :: cs) =
      [Nat.digitChar (c.toNat / 8 % 8), Nat.digitChar (c.toNat % 8)] := by
    rw [escapeDigits, if_pos ha]
    show List.takeWhile isOctalDigit [_, _] = _
    rw [List.takeWhile_cons_of_pos hb, List.takeWhile_cons_of_pos hd, List.takeWhile_nil]
  have hnumber : number 8 [Nat.digitChar (c.toNat / 64), Nat.digitChar (c.toNat / 8 % 8),
      Nat.digitChar (c.toNat % 8)] = c.toNat := by
    simp only [number, List.foldl_cons, List.foldl_nil]
    rw [hexDigit?_digitChar _ (by omega), hexDigit?_digitChar _ (by omega), hexDigit?_digitChar _ (by omega)]
    simp only [Option.getD_some]
    omega
  show read? ('\\' :: Nat.digitChar (c.toNat / 64) ::
    Nat.digitChar (c.toNat / 8 % 8) :: Nat.digitChar (c.toNat % 8) :: cs) = _
  rw [read?_escape, hdigits, escape?, if_pos ha, hnumber, byte?, if_pos (by omega), utf8EncodeChar_of_lt hsmall]
  rfl

theorem read?_literalChar (c : Char) (cs : List Char) :
    read? (literalChar .octal c ++ cs) = (String.utf8EncodeChar c ++ ·) <$> read? cs := by
  have h := writtenAs_literalChar .octal c
  generalize literalChar .octal c = written at h
  cases h with
  | plain hquote hslash hcontrol => exact read?_plain cs hquote hslash (ne_of_isControl hcontrol).1
  | simple h => exact read?_simple h cs
  | control h => exact read?_control h cs

theorem read?_written (text cs : List Char) :
    read? (text.flatMap (literalChar .octal) ++ cs) = (utf8 text ++ ·) <$> read? cs := by
  induction text with
  | nil =>
    show read? cs = (fun bytes => bytes) <$> read? cs
    rw [id_map']
  | cons c text ih =>
    rw [List.flatMap_cons, List.append_assoc, read?_literalChar, ih]
    cases read? cs with
    | none => rfl
    | some bytes => exact congrArg some (List.append_assoc _ _ _).symm

end Written

/-! Literals in which trigraphs are replaced. -/
section Trigraphs

variable {c r : Char} {cs : List Char}

theorem hasTrigraph_cons (c : Char) (cs : List Char) :
    hasTrigraph (c :: cs) = (startsTrigraph (c :: cs) || hasTrigraph cs) := rfl

theorem startsTrigraph_of_not (h : ∀ d ds, c = '?' → cs = '?' :: d :: ds → False) :
    startsTrigraph (c :: cs) = false := by
  unfold startsTrigraph
  split
  · rename_i d ds heq
    obtain ⟨hc, hcs⟩ := List.cons.inj heq
    exact (h d ds hc hcs).elim
  · rfl

theorem startsTrigraph_of_ne (cs : List Char) (h : c ≠ '?') : startsTrigraph (c :: cs) = false :=
  startsTrigraph_of_not fun _ _ hc _ => h hc

theorem replaceTrigraphs_cons (h : startsTrigraph (c :: cs) = false) :
    replaceTrigraphs (c :: cs) = c :: replaceTrigraphs cs := by
  generalize hall : c :: cs = all at h
  fun_cases replaceTrigraphs all with
  | case1 d ds r hr =>
    rw [startsTrigraph, hr] at h
    cases h
  | case2 | case3 =>
    obtain ⟨rfl, rfl⟩ := List.cons.inj hall
    rfl
  | case4 => cases hall

theorem literalChar_of_trigraph? (h : trigraph? c = some r) : literalChar .octal c = [c] := by
  unfold trigraph? at h
  split at h <;> cases h <;> decide

/-- A replacement is a backslash, or it stands for itself and is no question mark. -/
theorem trigraph?_cases (h : trigraph? c = some r) :
    isHexDigit r = false ∧
      (r = '\\' ∨ (r ≠ '"' ∧ r ≠ '\\' ∧ r ≠ '\n') ∧ String.utf8EncodeChar r = [r.toUInt8] ∧ r.toUInt8 ≠ 63) := by
  unfold trigraph? at h
  split at h <;> cases h <;> decide

theorem literalChar_head (c : Char) : literalChar .octal c = [c] ∨ ∃ ds, literalChar .octal c = '\\' :: ds := by
  have h := writtenAs_literalChar .octal c
  generalize literalChar .octal c = written at h
  cases h with
  | plain => exact .inl rfl
  | simple | control => exact .inr ⟨_, rfl⟩

/-- The literal for a text, from behind its first quote, after the replacement. -/
def seen : List Char → List Char
  | '?' :: '?' :: c :: cs =>
    match trigraph? c with
    | some r => r :: seen cs
    | none => '?' :: seen ('?' :: c :: cs)
  | c :: cs => literalChar .octal c ++ seen cs
  | [] => ['"']

abbrev written (cs : List Char) : List Char := cs.flatMap (literalChar .octal) ++ ['"']

theorem written_cons (c : Char) (cs : List Char) : written (c :: cs) = literalChar .octal c ++ written cs := by
  rw [written, List.flatMap_cons, List.append_assoc]

theorem eq_cons_of_written {d : Char} {ds : List Char} (h : written cs = d :: ds) (hslash : d ≠ '\\')
    (hquote : d ≠ '"') : ∃ cs', cs = d :: cs' ∧ written cs' = ds := by
  cases cs with
  | nil => exact absurd (List.cons.inj h).1.symm hquote
  | cons c cs =>
    rw [written_cons] at h
    rcases literalChar_head c with hc | ⟨es, hc⟩
    · rw [hc] at h
      obtain ⟨rfl, rfl⟩ := List.cons.inj h
      exact ⟨cs, rfl, rfl⟩
    · rw [hc] at h
      exact absurd (List.cons.inj h).1.symm hslash

theorem startsTrigraph_written (h : startsTrigraph cs = false) : startsTrigraph (written cs) = false := by
  generalize hall : written cs = all
  unfold startsTrigraph
  split
  · rename_i c ds
    obtain ⟨cs, rfl, hsecond⟩ := eq_cons_of_written hall (by decide) (by decide)
    obtain ⟨cs, rfl, hthird⟩ := eq_cons_of_written hsecond (by decide) (by decide)
    cases hr : trigraph? c with
    | none => rfl
    | some r =>
      -- The third character is no backslash and no quote, so it comes from the text as well.
      have hslash : c ≠ '\\' := by rintro rfl; cases hr
      have hquote : c ≠ '"' := by rintro rfl; cases hr
      obtain ⟨cs, rfl, -⟩ := eq_cons_of_written hthird hslash hquote
      rw [startsTrigraph, hr] at h
      cases h
  · rfl

theorem question_not_mem_literalChar (h : c ≠ '?') : '?' ∉ literalChar .octal c := by
  have hwritten := writtenAs_literalChar .octal c
  generalize literalChar .octal c = written at hwritten
  cases hwritten with
  | plain =>
    rw [List.mem_singleton]
    exact h.symm
  | @simple d hd =>
    have hall : ∀ p ∈ simpleEscapes, '?' ∉ ['\\', p.2] := by decide
    exact hall (c, d) hd
  | control hcontrol =>
    have hsmall := toNat_lt_of_isControl hcontrol
    have hdigit : ∀ n < 8, '?' ≠ Nat.digitChar n := by decide
    simp only [ControlEscape.chars, List.mem_cons, List.not_mem_nil, or_false, not_or]
    exact ⟨by decide, hdigit _ (by omega), hdigit _ (by omega), hdigit _ (by omega)⟩

theorem replaceTrigraphs_append {ds : List Char} (h : '?' ∉ ds) (cs : List Char) :
    replaceTrigraphs (ds ++ cs) = ds ++ replaceTrigraphs cs := by
  induction ds with
  | nil => rfl
  | cons d ds ih =>
    have hd : d ≠ '?' := (List.ne_of_not_mem_cons h).symm
    rw [List.cons_append, replaceTrigraphs_cons (startsTrigraph_of_ne _ hd), ih (List.not_mem_of_not_mem_cons h),
      List.cons_append]

theorem replaceTrigraphs_written (cs : List Char) : replaceTrigraphs (written cs) = seen cs := by
  fun_induction seen cs with
  | case1 c cs r hr ih =>
    have hplain := literalChar_of_trigraph? hr
    have hwritten : written ('?' :: '?' :: c :: cs) = '?' :: '?' :: c :: written cs := by
      rw [written_cons, written_cons, written_cons, hplain]
      rfl
    rw [hwritten, replaceTrigraphs, hr, ih]
  | case2 c cs hr ih =>
    have hstart : startsTrigraph (written ('?' :: '?' :: c :: cs)) = false :=
      startsTrigraph_written (by rw [startsTrigraph, hr]; rfl)
    have hwritten : written ('?' :: '?' :: c :: cs) = '?' :: written ('?' :: c :: cs) := written_cons _ _
    rw [hwritten] at hstart ⊢
    rw [replaceTrigraphs_cons hstart, ih]
  | case3 c cs hc ih =>
    have hstart := startsTrigraph_written (startsTrigraph_of_not hc)
    rw [written_cons] at hstart ⊢
    by_cases hquestion : c = '?'
    · subst hquestion
      have hplain : literalChar .octal '?' = ['?'] := by decide
      rw [hplain, List.singleton_append] at hstart ⊢
      rw [replaceTrigraphs_cons hstart, ih, List.singleton_append]
    · rw [replaceTrigraphs_append (question_not_mem_literalChar hquestion), ih]
  | case4 => rfl

/-- Up to its first trigraph, a text is seen as it was written. -/
theorem seen_cases (cs : List Char) :
    (hasTrigraph cs = false ∧ seen cs = written cs) ∨
      ∃ before c r rest, cs = before ++ '?' :: '?' :: c :: rest ∧ trigraph? c = some r ∧ hasTrigraph cs = true ∧
        seen cs = before.flatMap (literalChar .octal) ++ r :: seen rest := by
  fun_induction seen cs with
  | case1 c cs r hr =>
    refine .inr ⟨[], c, r, cs, rfl, hr, ?_, rfl⟩
    rw [hasTrigraph_cons, startsTrigraph, hr]
    rfl
  | case2 c cs hr ih =>
    have hstart : hasTrigraph ('?' :: '?' :: c :: cs) = hasTrigraph ('?' :: c :: cs) := by
      rw [hasTrigraph_cons, startsTrigraph, hr]
      rfl
    rw [hstart]
    rcases ih with ⟨hnone, hseen⟩ | ⟨before, d, r, rest, heq, hd, hsome, hseen⟩
    · exact .inl ⟨hnone, congrArg (List.cons '?') hseen⟩
    · exact .inr ⟨'?' :: before, d, r, rest, congrArg (List.cons '?') heq, hd, hsome, congrArg (List.cons '?') hseen⟩
  | case3 c cs hc ih =>
    have hstart : hasTrigraph (c :: cs) = hasTrigraph cs := by
      rw [hasTrigraph_cons, startsTrigraph_of_not hc, Bool.false_or]
    rw [hstart]
    rcases ih with ⟨hnone, hseen⟩ | ⟨before, d, r, rest, heq, hd, hsome, hseen⟩
    · exact .inl ⟨hnone, by rw [hseen, written_cons]⟩
    · refine .inr ⟨c :: before, d, r, rest, congrArg (List.cons c) heq, hd, hsome, ?_⟩
      rw [hseen, List.flatMap_cons, List.append_assoc]
  | case4 => exact .inl ⟨rfl, rfl⟩

end Trigraphs

/-! How many bytes are read where trigraphs are replaced. One of them is a backslash, which takes to itself what was not
written for it. -/
section Lengths

variable {c x : Char} {cs q : List Char} {bs : List UInt8}

theorem length_utf8_cons (c : Char) (q : List Char) : (utf8 (c :: q)).length = c.utf8Size + (utf8 q).length := by
  rw [utf8, List.flatMap_cons, List.length_append, String.length_utf8EncodeChar]
  rfl

theorem length_le_utf8 (q : List Char) : q.length ≤ (utf8 q).length := by
  induction q with
  | nil => exact Nat.le_refl 0
  | cons c q ih =>
    have hpos := c.utf8Size_pos
    rw [length_utf8_cons, List.length_cons]
    omega

/-- How the literal starts after the replacement. -/
inductive Starts : List Char → List Char → Prop
  | ending : Starts [] ['"']
  | trigraph {c r q} (h : trigraph? c = some r) : Starts ('?' :: '?' :: c :: q) (r :: seen q)
  | char (c : Char) (q : List Char) : Starts (c :: q) (literalChar .octal c ++ seen q)

theorem starts_seen (q : List Char) : Starts q (seen q) := by
  fun_cases seen q with
  | case1 c q r hr => exact .trigraph hr
  | case2 c q hr => exact .char '?' ('?' :: c :: q)
  | case3 c q => exact .char c q
  | case4 => exact .ending

theorem seen_digits {ds rest : List Char} (hds : ∀ d ∈ ds, isHexDigit d = true) (h : seen q = ds ++ rest) :
    ∃ q', q = ds ++ q' ∧ rest = seen q' := by
  induction ds generalizing q with
  | nil => exact ⟨q, rfl, h.symm⟩
  | cons d ds ih =>
    obtain ⟨hd, htail⟩ := List.forall_mem_cons.mp hds
    have hstarts := starts_seen q
    generalize seen q = text at h hstarts
    cases hstarts with
    | ending =>
      rw [← (List.cons.inj h).1] at hd
      cases hd
    | @trigraph c r q hr =>
      rw [← (List.cons.inj h).1, (trigraph?_cases hr).1] at hd
      cases hd
    | char c q =>
      rcases literalChar_head c with hc | ⟨es, hc⟩
      · rw [hc] at h
        obtain ⟨rfl, hrest⟩ := List.cons.inj h
        obtain ⟨q', rfl, hq'⟩ := ih htail hrest
        exact ⟨q', rfl, hq'⟩
      · rw [hc] at h
        rw [← (List.cons.inj h).1] at hd
        cases hd

/-- There are no more than `k` bytes to read, if what there is can be read. -/
def AtMost (k : Nat) (cs : List Char) : Prop := ∀ bs, read? cs = some bs → bs.length ≤ k

theorem AtMost.mono {k l : Nat} (h : AtMost k cs) (hkl : k ≤ l) : AtMost l cs := fun bs hbs => (h bs hbs).trans hkl

theorem AtMost.prepend {k : Nat} {ds : List Char} {front : List UInt8} (h : AtMost k cs)
    (hread : read? ds = (front ++ ·) <$> read? cs) : AtMost (front.length + k) ds := by
  intro bs hbs
  rw [hread] at hbs
  obtain ⟨rest, hrest, rfl⟩ := Option.map_eq_some_iff.mp hbs
  have hk := h rest hrest
  rw [List.length_append]
  omega

theorem AtMost.literalChar {k : Nat} (h : AtMost k cs) (c : Char) :
    AtMost (c.utf8Size + k) (literalChar .octal c ++ cs) := by
  rw [← String.length_utf8EncodeChar]
  exact h.prepend (read?_literalChar c cs)

theorem AtMost.plain {k : Nat} (h : AtMost k cs) (hquote : c ≠ '"') (hslash : c ≠ '\\') (hn : c ≠ '\n') :
    AtMost (c.utf8Size + k) (c :: cs) := by
  rw [← String.length_utf8EncodeChar]
  exact h.prepend (read?_plain cs hquote hslash hn)

theorem read?_backslash (cs : List Char) : read? ('\\' :: '\\' :: cs) = ([92] ++ ·) <$> read? cs := by
  rw [read?_escape]
  rfl

theorem AtMost.backslash {k : Nat} (h : AtMost k cs) : AtMost (1 + k) ('\\' :: '\\' :: cs) :=
  h.prepend (read?_backslash cs)

theorem atMost_escape (ih : ∀ p, p.length ≤ q.length → AtMost (utf8 p).length (seen p)) (x : Char) :
    AtMost (1 + (utf8 q).length) ('\\' :: x :: seen q) := by
  intro bs h
  rw [read?_escape] at h
  obtain ⟨bytes, hbytes, h⟩ := Option.bind_eq_some_iff.mp h
  obtain ⟨more, hmore, rfl⟩ := Option.map_eq_some_iff.mp h
  obtain ⟨p, hp, hrest⟩ := seen_digits (fun d => isHexDigit_escapeDigits) (escapeDigits_append x (seen q)).symm
  have hlen : p.length ≤ q.length := by
    rw [hp, List.length_append]
    omega
  have hsize : (utf8 q).length = (utf8 (escapeDigits x (seen q))).length + (utf8 p).length := by
    rw [← List.length_append, ← utf8_append, ← hp]
  have hescape := length_escape? hbytes
  have hdigits := length_le_utf8 (escapeDigits x (seen q))
  have htail := ih p hlen more (hrest ▸ hmore)
  rw [List.length_append]
  omega

theorem seen_ne_nil (q : List Char) : seen q ≠ [] := by
  have h := starts_seen q
  generalize seen q = text at h
  cases h with
  | ending | trigraph => exact List.cons_ne_nil _ _
  | char c q =>
    rcases literalChar_head c with h | ⟨ds, h⟩
    · rw [h]
      exact List.cons_ne_nil _ _
    · rw [h]
      exact List.cons_ne_nil _ _

theorem atMost_quote {k : Nat} (h : cs ≠ []) : AtMost k ('"' :: cs) := by
  intro bs hbs
  rw [read?, if_neg h] at hbs
  cases hbs

theorem atMost_backslash_writtenAs {text : List Char} (hc : WrittenAs .octal c text)
    (haligned : AtMost (utf8 q).length (seen q)) (hpending : AtMost ((utf8 q).length + 3) ('\\' :: seen q))
    (hescape : AtMost (1 + (utf8 q).length) ('\\' :: c :: seen q)) :
    AtMost ((utf8 (c :: q)).length + 3) ('\\' :: (text ++ seen q)) := by
  have hpos := c.utf8Size_pos
  rw [length_utf8_cons]
  cases hc with
  | plain => exact hescape.mono (by omega)
  | @simple d hd =>
    have hall : ∀ p ∈ simpleEscapes, p.2 = '"' ∨ p.2 = '\\' ∨
        (p.2 ≠ '"' ∧ p.2 ≠ '\\' ∧ p.2 ≠ '\n') ∧ p.2.utf8Size = 1 := by decide
    rcases hall (c, d) hd with (rfl : d = '"') | (rfl : d = '\\') | ⟨⟨hquote, hslash, hn⟩, hsize⟩
    · have hclosed : AtMost 0 ('"' :: seen q) := atMost_quote (seen_ne_nil q)
      exact hclosed.backslash.mono (by omega)
    · exact hpending.backslash.mono (by omega)
    · refine (haligned.plain hquote hslash hn).backslash.mono ?_
      rw [hsize]
      omega
  | control hcontrol =>
    have hsmall := toNat_lt_of_isControl hcontrol
    have hall : ∀ n < 8, (Nat.digitChar n ≠ '"' ∧ Nat.digitChar n ≠ '\\' ∧ Nat.digitChar n ≠ '\n') ∧
        (Nat.digitChar n).utf8Size = 1 := by decide
    have hdigit (n : Nat) (hn : n < 8) {k : Nat} {cs : List Char} (h : AtMost k cs) :
        AtMost (1 + k) (Nat.digitChar n :: cs) := by
      obtain ⟨⟨hquote, hslash, hbreak⟩, hsize⟩ := hall n hn
      exact hsize ▸ h.plain hquote hslash hbreak
    have hdigits := hdigit (c.toNat / 64) (by omega) (hdigit (c.toNat / 8 % 8) (by omega)
      (hdigit (c.toNat % 8) (by omega) haligned))
    exact hdigits.backslash.mono (by omega)

theorem read?_ending : read? ['"'] = some [] := by
  rw [read?, if_pos rfl]

theorem read?_unclosed : read? ['\\', '"'] = none := by
  rw [read?_escape]
  show ([34] ++ ·) <$> read? [] = none
  rw [read?]
  rfl

theorem atMost_ending : AtMost 0 ['"'] ∧ AtMost 3 ['\\', '"'] := by
  constructor
  · intro bs h
    rw [read?_ending] at h
    rw [← Option.some.inj h]
    exact Nat.le_refl 0
  · intro bs h
    rw [read?_unclosed] at h
    cases h

/-- Behind a backslash that is taken for an escaped one, three bytes more can be read than were written. -/
theorem atMost_seen (q : List Char) :
    AtMost (utf8 q).length (seen q) ∧ AtMost ((utf8 q).length + 3) ('\\' :: seen q) := by
  induction hlen : q.length using Nat.strong_induction_on generalizing q with
  | _ n ih =>
    subst hlen
    have hstarts := starts_seen q
    generalize seen q = text at hstarts
    cases hstarts with
    | ending => exact atMost_ending
    | @trigraph c r q hr =>
      have hshorter : q.length < ('?' :: '?' :: c :: q).length := by
        simp only [List.length_cons]
        omega
      obtain ⟨haligned, hpending⟩ := ih q.length hshorter q rfl
      have hescape := atMost_escape (fun p hp => (ih p.length (Nat.lt_of_le_of_lt hp hshorter) p rfl).1) r
      have hsize : (utf8 ('?' :: '?' :: c :: q)).length = 1 + (1 + (c.utf8Size + (utf8 q).length)) := by
        rw [length_utf8_cons, length_utf8_cons, length_utf8_cons]
        rfl
      have hpos := c.utf8Size_pos
      rw [hsize]
      refine ⟨?_, hescape.mono (by omega)⟩
      rcases (trigraph?_cases hr).2 with rfl | ⟨⟨hquote, hslash, hn⟩, hbytes, -⟩
      · exact hpending.mono (by omega)
      · have hone : r.utf8Size = 1 := by
          rw [← String.length_utf8EncodeChar, hbytes]
          rfl
        exact (haligned.plain hquote hslash hn).mono (by omega)
    | char c q =>
      obtain ⟨haligned, hpending⟩ := ih q.length (Nat.lt_succ_self _) q rfl
      have hescape := atMost_escape (fun p hp => (ih p.length (Nat.lt_succ_of_le hp) p rfl).1) c
      refine ⟨?_, atMost_backslash_writtenAs (writtenAs_literalChar .octal c) haligned hpending hescape⟩
      rw [length_utf8_cons]
      exact haligned.literalChar c

/-- A backslash in place of a trigraph does not give back the question marks that were in the text. -/
theorem read?_backslash_seen (q : List Char) {bs : List UInt8} (h : read? ('\\' :: seen q) = some bs) :
    bs.head? = some 92 ∨ bs.length ≤ (utf8 q).length := by
  have hescape (q : List Char) (x : Char) : AtMost (1 + (utf8 q).length) ('\\' :: x :: seen q) :=
    atMost_escape (fun p _ => (atMost_seen p).1) x
  -- An escaped backslash is the first byte, and any other escape takes from the rest of the text.
  have hdouble {cs : List Char} (h : read? ('\\' :: '\\' :: cs) = some bs) : bs.head? = some 92 := by
    rw [read?_backslash] at h
    obtain ⟨rest, -, rfl⟩ := Option.map_eq_some_iff.mp h
    rfl
  have hstarts := starts_seen q
  generalize seen q = text at h hstarts
  cases hstarts with
  | ending =>
    rw [read?_unclosed] at h
    cases h
  | @trigraph c r q hr =>
    have hlen := hescape q r bs h
    refine .inr (hlen.trans ?_)
    rw [length_utf8_cons, length_utf8_cons, length_utf8_cons]
    exact Nat.add_le_add (Char.utf8Size_pos _) (by omega)
  | char c q =>
    have hwritten := writtenAs_literalChar .octal c
    generalize literalChar .octal c = written at h hwritten
    cases hwritten with
    | plain =>
      have hlen := hescape q c bs h
      have hpos := c.utf8Size_pos
      rw [length_utf8_cons]
      exact .inr (by omega)
    | simple | control => exact .inl (hdouble h)

end Lengths

theorem replaceTrigraphs_stringLiteral (s : String) :
    replaceTrigraphs (stringLiteral .octal s).toList = '"' :: seen s.toList := by
  rw [stringLiteral, String.toList_ofList, List.cons_append, replaceTrigraphs_cons (startsTrigraph_of_ne _ (by decide)),
    replaceTrigraphs_written]

theorem read?_replaced_ne {c r : Char} (h : trigraph? c = some r) (q : List Char) :
    read? (r :: seen q) ≠ some (utf8 ('?' :: '?' :: c :: q)) := by
  intro hread
  have hhead : (utf8 ('?' :: '?' :: c :: q)).head? = some 63 := rfl
  rcases (trigraph?_cases h).2 with rfl | ⟨⟨hquote, hslash, hn⟩, hbytes, hne⟩
  · rcases read?_backslash_seen q hread with hfirst | hlen
    · rw [hhead] at hfirst
      cases hfirst
    · have hpos := c.utf8Size_pos
      rw [length_utf8_cons, length_utf8_cons, length_utf8_cons] at hlen
      omega
  · rw [read?_plain _ hquote hslash hn, hbytes] at hread
    obtain ⟨rest, -, heq⟩ := Option.map_eq_some_iff.mp hread
    rw [← heq] at hhead
    exact hne (Option.some.inj hhead)

theorem read?_seen_iff (q : List Char) : read? (seen q) = some (utf8 q) ↔ hasTrigraph q = false := by
  rcases seen_cases q with ⟨hnone, hseen⟩ | ⟨before, c, r, rest, heq, hr, hsome, hseen⟩
  · have hread : read? (seen q) = some (utf8 q) := by
      rw [hseen, read?_written, read?_ending]
      exact congrArg some (List.append_nil _)
    exact iff_of_true hread hnone
  · have hread : read? (seen q) ≠ some (utf8 q) := by
      intro h
      rw [hseen, read?_written, heq] at h
      obtain ⟨bytes, hbytes, hsplit⟩ := Option.map_eq_some_iff.mp h
      rw [utf8_append] at hsplit
      rw [List.append_cancel_left hsplit] at hbytes
      exact read?_replaced_ne hr rest hbytes
    exact iff_of_false hread (Bool.eq_false_iff.not.mpr (not_not.mpr hsome))

theorem bytes?_stringLiteral (s : String) : bytes? (stringLiteral .octal s) = read? (seen s.toList) := by
  rw [bytes?, replaceTrigraphs_stringLiteral]
  rfl

end CLiteral

end Text

open Text

theorem Native.value_string {source : String} {p : Program} {T : TypeTable} (hp : parseProgram source = .ok p)
    (hc : p.check = .ok T) {n : Node} {s : String} (h : .string n s ∈ p.parts) (names : Names) (wanted : Option Ty) :
    (expr ⟨T, names⟩ (.string n s) wanted).value =
      callCode "venice_string_new" [stringLiteral .octal s, toString s.utf8ByteSize] := by
  obtain ⟨Γ, htyped⟩ := Checker.wellTyped_of_check (Parser.nodup_ids_of_parseProgram hp) hc h
  cases htyped with
  | string htype =>
    rw [expr]
    unfold valueCode
    simp only [htype, Option.getD_some]
    rfl

/-- C reads the bytes of a text from the literal that is written for it if and only if there is no trigraph in the text.
The length that is written is the number of those bytes in any case. -/
theorem cLiteral_denotes_iff (s : String) :
    (CLiteral.bytes? (stringLiteral .octal s) = some s.toUTF8.data.toList ↔
      CLiteral.hasTrigraph s.toList = false) ∧
    s.toUTF8.data.toList.length = s.utf8ByteSize ∧
    ∀ (source : String) (p : Program) (T : TypeTable) (n : Node), parseProgram source = .ok p → p.check = .ok T →
      .string n s ∈ p.parts → ∀ (names : Names) (wanted : Option Ty),
        (Native.expr ⟨T, names⟩ (.string n s) wanted).value =
          callCode "venice_string_new" [stringLiteral .octal s, toString s.utf8ByteSize] := by
  refine ⟨?_, ?_, fun source p T n hp hc h => Native.value_string hp hc h⟩
  · rw [CLiteral.bytes?_stringLiteral, ← utf8_toList]
    exact CLiteral.read?_seen_iff s.toList
  · rw [Array.length_toList]
    exact String.size_toByteArray

/-- Question marks that stay, a control character before a digit, and a character of two bytes. -/
theorem cLiteral_denotes_question_marks :
    CLiteral.hasTrigraph "???\x018é".toList = false ∧
      CLiteral.bytes? (stringLiteral .octal "???\x018é") = some "???\x018é".toUTF8.data.toList := by
  have hnone : CLiteral.hasTrigraph "???\x018é".toList = false := by decide
  exact ⟨hnone, (cLiteral_denotes_iff "???\x018é").1.mpr hnone⟩

/-- A text of three bytes that C reads as one. -/
theorem cLiteral_of_trigraph :
    (compile "print(\"??=\");" .native).toOption = some ("#include <venice.h>\n\nint main(void) \x7b\n" ++
      "    venice_print(VENICE_WORD(venice_string_new(\"??=\", 3)), \"s\");\n    return 0;\n\x7d\n") ∧
    stringLiteral .octal "??=" = "\"??=\"" ∧
    CLiteral.bytes? (stringLiteral .octal "??=") = some [35] ∧ "??=".toUTF8.data.toList = [63, 63, 61] := by
  refine ⟨by decide +kernel, by decide, ?_, by decide⟩
  rw [CLiteral.bytes?_stringLiteral]
  show CLiteral.read? ['#', '"'] = some [35]
  rw [CLiteral.read?_plain _ (by decide) (by decide) (by decide), CLiteral.read?_ending]
  rfl

end Gondola
