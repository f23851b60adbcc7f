import Gondola.Proofs.Token.Extension
import Gondola.Text.StringLiteral
import Mathlib.Data.List.TakeWhile

/-! Texts that are scanned the same wherever they stand before a separator or the end, put together from
names, numerals, literals and marks. -/
namespace Gondola

open Text

/-- Nothing, or a text that a separator starts. -/
def Apart (ds : List Char) : Prop := ∀ d ∈ ds.head?, isSeparator d = true

namespace Apart

theorem nil : Apart [] := nofun

theorem cons {d : Char} (ds : List Char) (hd : isSeparator d = true) : Apart (d :: ds) := by
  intro d' hd'
  rwa [← Option.some.inj hd']

theorem append {ds es : List Char} (h : Apart ds) (h' : Apart es) : Apart (ds ++ es) := by
  cases ds with
  | nil => exact h'
  | cons d ds => exact cons _ (h d rfl)

theorem head?_ne_slash {ds : List Char} (h : Apart ds) : ds.head? ≠ some '/' := by
  intro hhead
  have hslash := h '/' hhead
  simp [isSeparator] at hslash

end Apart

theorem Lexeme.endsBefore_apart (l : Lexeme) {ds : List Char} (h : Apart ds) : l.EndsBefore ds := by
  cases ds with
  | nil => exact True.intro
  | cons d ds => exact l.endsBefore_separator ds (h d rfl)

/-- Wherever `cs` stands before what `F` allows, it is scanned as tokens with the property `P`. -/
def LexesBefore (F : List Char → Prop) (cs : List Char) (P : List Token → Prop) : Prop :=
  ∀ here done ds, F ds → ∃ ts here' done', P ts ∧
    Scanner.tokens ⟨cs ++ ds, here, done⟩ = (ts ++ ·) <$> Scanner.tokens ⟨ds, here', done'⟩

namespace LexesBefore

variable {F F' : List Char → Prop} {c : Char} {cs ds : List Char} {P Q : List Token → Prop}

theorem mono (h : LexesBefore F cs P) (hpq : ∀ ts, P ts → Q ts) : LexesBefore F cs Q := by
  intro here done ds hds
  obtain ⟨ts, here', done', hts, htokens⟩ := h here done ds hds
  exact ⟨ts, here', done', hpq ts hts, htokens⟩

theorem nil (h : P []) : LexesBefore F [] P := by
  intro here done ds _
  refine ⟨[], here, done, h, ?_⟩
  rw [List.nil_append]
  cases Scanner.tokens ⟨ds, here, done⟩ <;> rfl

theorem blank (hc : isBlank c = true) (h : LexesBefore F cs P) : LexesBefore F (c :: cs) P := by
  intro here done ds hds
  obtain ⟨ts, here', done', hts, htokens⟩ := h (here.step c) done ds hds
  refine ⟨ts, here', done', hts, ?_⟩
  rw [← htokens]
  exact Scanner.tokens_congr (Scanner.next_of_blank (cs ++ ds) here done hc)

theorem andThen (h : LexesBefore F cs P) (hds : ∀ es, F' es → F (ds ++ es))
    (h' : ∀ ts, P ts → LexesBefore F' ds fun us => Q (ts ++ us)) : LexesBefore F' (cs ++ ds) Q := by
  intro here done es hes
  obtain ⟨ts, here₁, done₁, hts, hfirst⟩ := h here done (ds ++ es) (hds es hes)
  obtain ⟨us, here₂, done₂, hus, hsecond⟩ := h' ts hts here₁ done₁ es hes
  refine ⟨ts ++ us, here₂, done₂, hus, ?_⟩
  rw [List.append_assoc, hfirst, hsecond]
  cases Scanner.tokens ⟨es, here₂, done₂⟩ with
  | error e => rfl
  | ok vs => exact congrArg Except.ok (List.append_assoc ts us vs).symm

theorem token {l : Lexeme} (hc : isBlank c = false) (hslash : c = '/' → ∀ ds, F ds → (cs ++ ds).head? ≠ some '/')
    (hl : Lexeme.first? c cs = some l) (hends : l.rest = [] → ∀ ds, F ds → l.EndsBefore ds)
    (h : ∀ t : Token, t.kind = l.kind → t.text = String.ofList l.text →
      LexesBefore F l.rest fun ts => P (t :: ts)) : LexesBefore F (c :: cs) P := by
  intro here done ds hds
  let s : Scanner := ⟨c :: cs ++ ds, here, done⟩
  let t : Token := ⟨l.kind, String.ofList l.text, .between s.start (s.start.after l.chars)⟩
  -- There is no trivia before the token, so that it is the next one.
  have htext : s.text = c :: (cs ++ ds) :=
    congrArg Prod.snd (splitTrivia_of_text hc fun hc' => hslash hc' ds hds)
  have hnext : s.next = (.ok t, ⟨l.rest ++ ds, s.start.after l.chars, false⟩) :=
    Scanner.next_of_token htext (Lexeme.first?_followed hl fun hrest => hends hrest ds hds)
  have hkind : t.kind ≠ .eof := Lexeme.first?_kind_ne_eof hl
  obtain ⟨ts, here', done', hts, htokens⟩ := h t rfl rfl (s.start.after l.chars) false ds hds
  refine ⟨t :: ts, here', done', hts, ?_⟩
  rw [Scanner.tokens_of_ok hnext, if_neg hkind, htokens]
  cases Scanner.tokens ⟨ds, here', done'⟩ <;> rfl

theorem tokens_eq (h : LexesBefore F cs P) (hF : F []) (here : Position) (done : Bool) :
    ∃ ts stop, Scanner.tokens ⟨cs, here, done⟩ = .ok (ts ++ [⟨.eof, "", .between stop stop⟩]) ∧ P ts := by
  obtain ⟨ts, here', done', hts, htokens⟩ := h here done [] hF
  refine ⟨ts, here', ?_, hts⟩
  have hend : Scanner.next ⟨[], here', done'⟩ =
      (.ok ⟨.eof, "", .between here' here'⟩, ⟨[], here', true⟩) := rfl
  rw [List.append_nil] at htokens
  rw [htokens, Scanner.tokens_of_ok hend]
  rfl

end LexesBefore

/-- The same before a separator or the end. -/
abbrev Lexes (cs : List Char) (P : List Token → Prop) : Prop := LexesBefore Apart cs P

namespace Lexes

variable {c : Char} {cs ds : List Char} {P Q : List Token → Prop}

theorem append (h : Lexes cs P) (hds : Apart ds) (h' : ∀ ts, P ts → Lexes ds fun us => Q (ts ++ us)) :
    Lexes (cs ++ ds) Q :=
  h.andThen (fun _ => hds.append) h'

theorem token {l : Lexeme} (hc : isBlank c = false) (hslash : c = '/' → cs.head? ≠ some '/')
    (hl : Lexeme.first? c cs = some l)
    (h : ∀ t : Token, t.kind = l.kind → t.text = String.ofList l.text → Lexes l.rest fun ts => P (t :: ts)) :
    Lexes (c :: cs) P := by
  refine LexesBefore.token hc (fun hc' ds hds => ?_) hl (fun _ _ => l.endsBefore_apart) h
  cases cs with
  | nil => exact hds.head?_ne_slash
  | cons d cs => exact hslash hc'

theorem single {l : Lexeme} (hc : isBlank c = false) (hslash : c ≠ '/') (hl : Lexeme.first? c cs = some l)
    (hrest : l.rest = []) (h : ∀ t : Token, t.kind = l.kind → t.text = String.ofList l.text → P [t]) :
    Lexes (c :: cs) P := by
  apply token hc (fun hc' => absurd hc' hslash) hl
  intro t hk ht
  rw [hrest]
  exact .nil (h t hk ht)

theorem tokens (h : Lexes cs P) (here : Position) (done : Bool) :
    ∃ ts stop, Scanner.tokens ⟨cs, here, done⟩ = .ok (ts ++ [stop]) ∧ stop.kind = .eof ∧ P ts := by
  obtain ⟨ts, stop, htokens, hts⟩ := h.tokens_eq .nil here done
  exact ⟨ts, _, htokens, rfl, hts⟩

end Lexes

theorem Mark.ofPair?_greater {d : Char} (hd : d ≠ '=') : ofPair? '>' d = none := by
  unfold ofPair?
  split <;> simp_all

namespace Lexeme

variable {c : Char} {cs : List Char}

theorem first?_mark {m : Mark} (hm : Mark.ofChar? c = some m) (hpair : ∀ d ∈ cs.head?, Mark.ofPair? c d = none) :
    first? c cs = some (plain (.mark m) [c] cs) := by
  have hquote : c ≠ '"' := by
    rintro rfl
    cases hm
  have hsymbol (ds : List Char) : ofSymbol c ds = plain (.mark m) [c] ds := by
    unfold ofSymbol
    rw [hm]
  unfold first?
  rw [if_neg hquote]
  cases cs with
  | nil => exact congrArg some (hsymbol [])
  | cons d ds =>
    simp only [hpair d rfl]
    exact congrArg some (hsymbol (d :: ds))

theorem first?_word_or_digit (h : startsName c = true ∨ isDigit c = true) :
    first? c cs = some (ofSymbol c cs) := by
  have hquote : c ≠ '"' := by
    rintro rfl
    exact absurd h (by decide)
  unfold first?
  rw [if_neg hquote]
  cases cs with
  | nil => rfl
  | cons d ds => simp only [Mark.ofPair?_eq_none h]

theorem first?_greater (cs : List Char) :
    ∃ l, first? '>' cs = some l ∧ (l.kind = .mark .greater ∨ l.kind = .mark .greaterEq) := by
  cases cs with
  | nil => exact ⟨_, rfl, .inl rfl⟩
  | cons d ds =>
    by_cases hd : d = '='
    · subst hd
      exact ⟨_, rfl, .inr rfl⟩
    · exact ⟨_, first?_mark rfl fun d' hd' => Option.some.inj hd' ▸ Mark.ofPair?_greater hd, .inl rfl⟩

end Lexeme

/-! Marks. -/

/-- The brackets around a group, a list or a map. -/
inductive Bracket where
  | round | square | curly

namespace Bracket

def chars : Bracket → Char × Char
  | round => ('(', ')')
  | square => ('[', ']')
  | curly => ('\x7b', '\x7d')

def marks : Bracket → Mark × Mark
  | round => (.lparen, .rparen)
  | square => (.lbracket, .rbracket)
  | curly => (.lbrace, .rbrace)

end Bracket

theorem LexesBefore.mark {F : List Char → Prop} {c : Char} {cs : List Char} {P : List Token → Prop} {m : Mark}
    (hm : Mark.ofChar? c = some m) (hslash : c ≠ '/') (hpair : ∀ d ∈ cs.head?, Mark.ofPair? c d = none)
    (hends : cs = [] → ∀ ds, F ds → ∀ d ∈ ds.head?, Mark.ofPair? c d = none)
    (h : ∀ t : Token, t.kind = .mark m → LexesBefore F cs fun ts => P (t :: ts)) : LexesBefore F (c :: cs) P := by
  have hblank : isBlank c = false := by
    unfold Mark.ofChar? at hm
    split at hm
    all_goals first
      | exact isBlank_of_visible (by decide)
      | cases hm
  refine token hblank (fun hc => absurd hc hslash) (Lexeme.first?_mark hm hpair) (fun hcs ds hds => ?_)
    fun t ht _ => h t ht
  cases ds with
  | nil => exact True.intro
  | cons d ds =>
    rintro c' ⟨⟩
    exact hends hcs _ hds d rfl

namespace Lexes

variable {c : Char} {cs : List Char} {P Q : List Token → Prop}

theorem mark {m : Mark} (hm : Mark.ofChar? c = some m) (hslash : c ≠ '/')
    (hpair : ∀ d ∈ cs.head?, Mark.ofPair? c d = none)
    (h : ∀ t : Token, t.kind = .mark m → Lexes cs fun ts => P (t :: ts)) : Lexes (c :: cs) P := by
  refine LexesBefore.mark hm hslash hpair (fun _ ds hds d hd => ?_) h
  obtain ⟨ds, rfl⟩ := List.head?_eq_some_iff.mp hd
  exact (Lexeme.plain (.mark m) [c] cs).endsBefore_apart hds c rfl

theorem enclosed (b : Bracket) (h : Lexes cs P)
    (hQ : ∀ t ts u, t.kind = .mark b.marks.1 → P ts → u.kind = .mark b.marks.2 → Q (t :: ts ++ [u])) :
    Lexes (b.chars.1 :: (cs ++ [b.chars.2])) Q := by
  have hopen : Mark.ofChar? b.chars.1 = some b.marks.1 := by cases b <;> rfl
  have hclose : Mark.ofChar? b.chars.2 = some b.marks.2 := by cases b <;> rfl
  have hsep : isSeparator b.chars.2 = true := by cases b <;> exact isSeparator_of_mem (by decide)
  apply mark hopen (by cases b <;> decide) (fun d _ => by cases b <;> rfl)
  intro t ht
  apply h.append (.cons [] hsep)
  intro ts hts
  apply mark hclose (by cases b <;> decide) (fun d hd => by cases hd)
  intro u hu
  exact .nil (hQ t ts u ht hts hu)

end Lexes

/-! Names. -/
section Names

variable {c : Char} {cs : List Char}

/-- A text that is scanned as one name. -/
def IsIdentifier (name : String) : Prop :=
  ∃ c cs, name.toList = c :: cs ∧ isBlank c = false ∧
    Lexeme.first? c cs = some (.plain .identifier (c :: cs) [])

theorem Lexeme.ofSymbol_identifier (h : (ofSymbol c cs).kind = .identifier) :
    startsName c = true ∧ (ofSymbol c cs).text = c :: cs.takeWhile continuesName ∧
      ofSymbol c (cs.takeWhile continuesName) = plain .identifier (c :: cs.takeWhile continuesName) [] := by
  unfold ofSymbol at h ⊢
  cases hm : Mark.ofChar? c with
  | some m =>
    rw [hm] at h
    cases h
  | none =>
    simp only [hm] at h ⊢
    by_cases hs : startsName c = true
    · rw [if_pos hs] at h
      rw [if_pos hs, if_pos hs]
      have hall : ∀ d ∈ cs.takeWhile continuesName, continuesName d = true := fun d => List.mem_takeWhile_imp
      refine ⟨hs, rfl, ?_⟩
      -- The word is the same, so whether it is a keyword is too.
      unfold ofWord at h ⊢
      rw [List.takeWhile_eq_self_iff.mpr hall, List.dropWhile_eq_nil_iff.mpr hall]
      exact congrArg (fun k => plain k (c :: cs.takeWhile continuesName) []) h
    · rw [if_neg hs] at h
      split at h <;> cases h

theorem Lexeme.first?_identifier {l : Lexeme} (hl : first? c cs = some l) (hk : l.kind = .identifier) :
    startsName c = true ∧ l = ofSymbol c cs := by
  unfold first? at hl
  split at hl
  · obtain ⟨p, -, rfl⟩ := Option.map_eq_some_iff.mp hl
    cases hk
  · split at hl
    · obtain rfl := Option.some.inj hl
      exact ⟨(ofSymbol_identifier hk).1, rfl⟩
    · split at hl
      · obtain rfl := Option.some.inj hl
        cases hk
      · obtain rfl := Option.some.inj hl
        exact ⟨(ofSymbol_identifier hk).1, rfl⟩

theorem isBlank_of_splitTrivia {inComment : Bool} {ds : List Char} (h : (splitTrivia inComment ds).2 = c :: cs) :
    isBlank c = false := by
  fun_induction splitTrivia inComment ds with
  | case1 => cases h
  | case2 _ _ _ _ hrest ih | case3 _ _ _ hrest ih | case4 _ _ _ _ _ _ hrest ih =>
    rw [hrest] at ih
    exact ih h
  | case5 d ds _ hblank =>
    obtain ⟨rfl, -⟩ := List.cons.inj h
    exact Bool.eq_false_iff.mpr hblank

theorem Scanner.isIdentifier_of_next {s s' : Scanner} {t : Token} (h : s.next = (.ok t, s'))
    (ht : t.kind = .identifier) : IsIdentifier t.text := by
  cases finds_of_next h with
  | ending => cases ht
  | @token c cs l htext hl =>
    obtain ⟨hs, rfl⟩ := Lexeme.first?_identifier hl ht
    obtain ⟨-, hword, hself⟩ := Lexeme.ofSymbol_identifier ht
    refine ⟨c, cs.takeWhile continuesName, ?_, isBlank_of_splitTrivia htext, ?_⟩
    · exact (String.toList_ofList).trans hword
    · rw [Lexeme.first?_word_or_digit (.inl hs), hself]

theorem Scanner.isIdentifier_of_tokens {s : Scanner} {ts : List Token} (h : s.tokens = .ok ts) :
    ∀ t ∈ ts, t.kind = .identifier → IsIdentifier t.text := by
  fun_induction tokens s generalizing ts with
  | case1 => cases h
  | case2 s t s' hn he =>
    obtain rfl := Except.ok.inj h
    intro u hu hk
    rw [List.mem_singleton.mp hu, he] at hk
    cases hk
  | case3 => cases h
  | case4 s t s' hn he hlt us hus ih =>
    obtain rfl := Except.ok.inj h
    intro u hu hk
    rcases List.mem_cons.mp hu with rfl | hu
    · exact isIdentifier_of_next hn hk
    · exact ih hus u hu hk

theorem IsIdentifier.continuesName {name : String} (h : IsIdentifier name) :
    ∀ d ∈ name.toList, continuesName d = true := by
  obtain ⟨c, cs, hname, -, hl⟩ := h
  have hself := (Lexeme.first?_identifier hl rfl).2
  have hkind : (Lexeme.ofSymbol c cs).kind = .identifier := hself ▸ rfl
  obtain ⟨hstart, htext, -⟩ := Lexeme.ofSymbol_identifier hkind
  -- The whole name is one word, so what follows its first character continues it.
  have hcs : cs = cs.takeWhile Text.continuesName := by
    rw [← hself] at htext
    exact (List.cons.inj htext).2
  rw [hname]
  refine List.forall_mem_cons.mpr ⟨?_, fun d hd => List.mem_takeWhile_imp (hcs ▸ hd)⟩
  rw [startsName, Bool.or_eq_true] at hstart
  rw [Text.continuesName, isAlphanumeric, Bool.or_eq_true, Bool.or_eq_true]
  exact hstart.imp .inl id

theorem LexesBefore.identifier {F : List Char → Prop} {name : String} {P : List Token → Prop}
    (hF : ∀ ds, F ds → ∀ d ∈ ds.head?, continuesName d = false) (h : IsIdentifier name)
    (hP : ∀ t : Token, t.kind = .identifier → t.text = name → P [t]) : LexesBefore F name.toList P := by
  obtain ⟨c, cs, hname, hblank, hl⟩ := h
  have hslash : c ≠ '/' := by
    rintro rfl
    have hstart := (Lexeme.first?_identifier hl rfl).1
    exact absurd hstart (by decide)
  rw [hname]
  refine LexesBefore.token hblank (fun hc => absurd hc hslash) hl (fun _ ds hds => ?_) fun t hk ht => .nil (hP t hk ?_)
  · cases ds with
    | nil => exact True.intro
    | cons d ds => exact hF _ hds d rfl
  · rw [ht, Lexeme.plain, ← hname, String.ofList_toList]

theorem Lexes.identifier {name : String} {P : List Token → Prop} (h : IsIdentifier name)
    (hP : ∀ t : Token, t.kind = .identifier → t.text = name → P [t]) : Lexes name.toList P := by
  refine LexesBefore.identifier (fun ds hds d hd => ?_) h hP
  obtain ⟨ds, rfl⟩ := List.head?_eq_some_iff.mp hd
  exact (Lexeme.plain .identifier [] []).endsBefore_apart hds

end Names

/-! Numerals. -/
section Numerals

theorem mem_digits_of_isDigit {c : Char} (h : c.isDigit = true) :
    c ∈ ['0', '1', '2', '3', '4', '5', '6', '7', '8', '9'] := by
  simp only [Char.isDigit, Bool.and_eq_true, decide_eq_true_eq] at h
  have hlo : 48 ≤ c.toNat := h.1
  have hhi : c.toNat ≤ 57 := h.2
  have hall : ∀ n ∈ List.range' 48 10, Char.ofNat n ∈ ['0', '1', '2', '3', '4', '5', '6', '7', '8', '9'] := by
    decide
  rw [← Char.ofNat_toNat c]
  exact hall c.toNat (List.mem_range'_1.mpr ⟨hlo, by omega⟩)

theorem digit_properties {c : Char} (h : c ∈ ['0', '1', '2', '3', '4', '5', '6', '7', '8', '9']) :
    isDigit c = true ∧ isBlank c = false ∧ startsName c = false ∧ Mark.ofChar? c = none ∧ c ≠ '/' := by
  have hall : (['0', '1', '2', '3', '4', '5', '6', '7', '8', '9'].all fun c =>
      isDigit c && !isBlank c && !startsName c && (Mark.ofChar? c == none) && c != '/') = true := by
    decide
  simpa [and_assoc] using List.all_eq_true.mp hall c h

theorem Lexes.numeral (n : Nat) {P : List Token → Prop}
    (hP : ∀ t : Token, t.kind = .int → t.text = String.ofList (Nat.toDigits 10 n) → P [t]) :
    Lexes (Nat.toDigits 10 n) P := by
  have hdigit (c : Char) (hc : c ∈ Nat.toDigits 10 n) :=
    digit_properties (mem_digits_of_isDigit (Nat.isDigit_of_mem_toDigits (by decide) (by decide) hc))
  cases hn : Nat.toDigits 10 n with
  | nil => exact absurd hn Nat.toDigits_ne_nil
  | cons c cs =>
    rw [hn] at hdigit hP
    obtain ⟨hd, hblank, hname, hmark, hslash⟩ := hdigit c List.mem_cons_self
    have hall : ∀ d ∈ cs, isDigit d = true := fun d hd => (hdigit d (List.mem_cons_of_mem _ hd)).1
    have hl : Lexeme.first? c cs = some (.plain .int (c :: cs) []) := by
      rw [Lexeme.first?_word_or_digit (.inr hd), Lexeme.ofSymbol, hmark]
      simp only [hname, hd, if_true]
      rw [Lexeme.ofDigits, List.takeWhile_eq_self_iff.mpr hall, List.dropWhile_eq_nil_iff.mpr hall]
      rfl
    exact Lexes.single hblank hslash hl rfl hP

end Numerals

/-! String literals. -/
section Literals

/-- What is written in a literal as itself, or by an escape that source has too. -/
def isWritable (c : Char) : Bool := !isControl c || c == '\n' || c == '\r' || c == '\t'

theorem literalChar_cases {c : Char} (hc : isWritable c = true) (style : ControlEscape) :
    (literalChar style c = [c] ∧ c ≠ '"' ∧ c ≠ '\\') ∨
      ∃ d, literalChar style c = ['\\', d] ∧ Literal.escape d = [c] := by
  unfold literalChar
  by_cases hquote : c = '"'
  · exact .inr ⟨'"', by rw [if_pos hquote], by rw [hquote]; rfl⟩
  rw [if_neg hquote]
  by_cases hslash : c = '\\'
  · exact .inr ⟨'\\', by rw [if_pos hslash], by rw [hslash]; rfl⟩
  rw [if_neg hslash]
  by_cases hn : c = '\n'
  · exact .inr ⟨'n', by rw [if_pos hn], by rw [hn]; rfl⟩
  rw [if_neg hn]
  by_cases hr : c = '\r'
  · exact .inr ⟨'r', by rw [if_pos hr], by rw [hr]; rfl⟩
  rw [if_neg hr]
  by_cases ht : c = '\t'
  · exact .inr ⟨'t', by rw [if_pos ht], by rw [ht]; rfl⟩
  rw [if_neg ht]
  have hcontrol : isControl c = false := by simpa [isWritable, hn, hr, ht] using hc
  exact .inl ⟨by simp [hcontrol], hquote, hslash⟩

namespace Literal

theorem body?_plain {c : Char} (cs : List Char) (hquote : c ≠ '"') (hslash : c ≠ '\\') :
    body? (c :: cs) = (body? cs).map fun (body, rest) => (c :: body, rest) := by
  rw [body?]
  · exact hquote
  · exact fun d ds hc _ => hslash hc

theorem decode_plain {c : Char} (cs : List Char) (hslash : c ≠ '\\') : decode (c :: cs) = c :: decode cs := by
  rw [decode]
  · exact fun hc _ => hslash hc
  · exact fun d ds hc _ => hslash hc

theorem body?_written (style : ControlEscape) {text : List Char} (h : ∀ c ∈ text, isWritable c = true)
    (rest : List Char) :
    body? (text.flatMap (literalChar style) ++ '"' :: rest) = some (text.flatMap (literalChar style), rest) ∧
      decode (text.flatMap (literalChar style)) = text := by
  induction text with
  | nil => exact ⟨rfl, rfl⟩
  | cons c text ih =>
    obtain ⟨hbody, hdecode⟩ := ih fun d hd => h d (List.mem_cons_of_mem _ hd)
    rw [List.flatMap_cons]
    rcases literalChar_cases (h c List.mem_cons_self) style with ⟨hc, hquote, hslash⟩ | ⟨d, hc, hd⟩
    · rw [hc]
      constructor
      · rw [List.append_assoc, List.singleton_append, body?_plain _ hquote hslash, hbody]
        rfl
      · rw [List.singleton_append, decode_plain _ hslash, hdecode]
    · rw [hc]
      constructor
      · simp only [List.cons_append, List.nil_append, body?, hbody]
        rfl
      · simp only [List.cons_append, List.nil_append, decode, hd, hdecode]

end Literal

theorem Lexes.literal {text : String} (h : ∀ c ∈ text.toList, isWritable c = true) (style : ControlEscape)
    {P : List Token → Prop} (hP : ∀ t : Token, t.kind = .string → t.text = text → P [t]) :
    Lexes (stringLiteral style text).toList P := by
  have hwritten := Literal.body?_written style h []
  have hl : Lexeme.first? '"' (text.toList.flatMap (literalChar style) ++ ['"']) = some
      ⟨.string, '"' :: text.toList.flatMap (literalChar style) ++ ['"'], text.toList, []⟩ := by
    unfold Lexeme.first?
    rw [if_pos rfl, Lexeme.ofString?, hwritten.1, Option.map_some]
    simp only [hwritten.2]
  rw [stringLiteral, String.toList_ofList]
  apply Lexes.single (isBlank_of_visible (by decide)) (by decide) hl rfl
  intro t hk ht
  apply hP t hk
  rw [ht, String.ofList_toList]

end Literals

end Gondola
