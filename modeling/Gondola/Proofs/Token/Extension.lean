import Gondola.Proofs.Token.Words

/-! What follows a token does not change it, as long as it does not join it. -/
namespace Gondola

open Text

variable {c : Char} {cs : List Char} {d : Char} {s : Scanner}

theorem isBlank_space : isBlank ' ' = true := by decide

theorem isBlank_newline : isBlank '\n' = true := by decide

theorem isBlank_of_visible (h : '!' ≤ c ∧ c ≤ '~') : isBlank c = false := by
  have hlo : 33 ≤ c.toNat := h.1
  have hhi : c.toNat ≤ 126 := h.2
  have hall : ((List.range' 33 94).all fun n => !inRanges n blankRanges) = true := by decide
  have hc := List.all_eq_true.mp hall c.toNat (List.mem_range'_1.mpr ⟨hlo, by omega⟩)
  rwa [Bool.not_eq_true'] at hc

theorem splitTrivia_of_blank (cs : List Char) (hc : isBlank c = true) :
    splitTrivia false (c :: cs) = (c :: (splitTrivia false cs).1, (splitTrivia false cs).2) := by
  rw [splitTrivia]
  · rw [if_pos hc]
  · rintro cs' rfl -
    rw [isBlank_of_visible (by decide)] at hc
    cases hc

theorem splitTrivia_of_text (hc : isBlank c = false)
    (hslash : c = '/' → cs.head? ≠ some '/') : splitTrivia false (c :: cs) = ([], c :: cs) := by
  rw [splitTrivia]
  · rw [hc]
    rfl
  · rintro cs' rfl rfl
    exact hslash rfl rfl

theorem splitTrivia_append_of_text {inComment : Bool} {ds : List Char}
    (h : (splitTrivia inComment cs).2 ≠ []) (hd : ds.head? ≠ some '/') :
    splitTrivia inComment (cs ++ ds) = ((splitTrivia inComment cs).1, (splitTrivia inComment cs).2 ++ ds) := by
  fun_induction splitTrivia inComment cs with
  | case1 => exact absurd rfl h
  | case2 _ _ _ _ hrest ih | case3 _ _ _ hrest ih =>
    rw [hrest] at ih
    simp only [List.cons_append, splitTrivia, ih h]
  | case4 c cs hslash hblank gap text hrest ih =>
    rw [hrest] at ih
    rw [List.cons_append, splitTrivia_of_blank _ hblank, ih h]
  | case5 c cs hslash hblank =>
    apply splitTrivia_of_text (by simpa using hblank)
    rintro rfl
    cases cs with
    | nil => exact hd
    | cons e es => exact fun he => hslash es rfl (by rw [Option.some.inj he])

theorem splitTrivia_append_line {inComment : Bool} (ds : List Char) (h : (splitTrivia inComment cs).2 = []) :
    splitTrivia inComment (cs ++ '\n' :: ds) =
      (cs ++ '\n' :: (splitTrivia false ds).1, (splitTrivia false ds).2) := by
  fun_induction splitTrivia inComment cs with
  | case1 inComment =>
    cases inComment with
    | true => rfl
    | false => exact splitTrivia_of_blank ds isBlank_newline
  | case2 _ _ _ _ hrest ih | case3 _ _ _ hrest ih =>
    rw [hrest] at ih
    simp only [List.cons_append, splitTrivia, ih h]
  | case4 c cs hslash hblank gap text hrest ih =>
    rw [hrest] at ih
    rw [List.cons_append, splitTrivia_of_blank _ hblank, ih h]
    rfl
  | case5 => exact absurd h (by simp)

theorem Literal.body?_append_of_some {body rest : List Char} (ds : List Char)
    (h : body? cs = some (body, rest)) : body? (cs ++ ds) = some (body, rest ++ ds) := by
  fun_induction body? cs generalizing body with
  | case1 => cases h
  | case2 cs =>
    obtain ⟨rfl, rfl⟩ := Prod.mk.inj (Option.some.inj h)
    rfl
  | case3 c cs ih =>
    obtain ⟨⟨b, r⟩, hp, he⟩ := Option.map_eq_some_iff.mp h
    obtain ⟨rfl, rfl⟩ := Prod.mk.inj he
    simp only [List.cons_append, body?, ih hp, Option.map_some]
  | case4 c cs hquote hslash ih =>
    obtain ⟨⟨b, r⟩, hp, he⟩ := Option.map_eq_some_iff.mp h
    obtain ⟨rfl, rfl⟩ := Prod.mk.inj he
    rw [List.cons_append, body?, ih hp]
    · rfl
    · exact hquote
    · intro d ds' hc hcs
      cases cs with
      | nil => cases hp
      | cons e es => exact hslash e es hc rfl

namespace Mark

theorem ofPair?_eq_none (h : startsName c = true ∨ isDigit c = true) : ofPair? c d = none := by
  unfold ofPair?
  split
  all_goals first
    | rfl
    | exact absurd h (by decide)

theorem ofPair?_eq_none_of_ne (h : d ≠ '=') (h' : d ≠ '>') : ofPair? c d = none := by
  unfold ofPair?
  split
  all_goals first
    | rfl
    | exact absurd rfl h
    | exact absurd rfl h'

end Mark

/-- What joins no token before it, and starts no comment with it. -/
def isSeparator (d : Char) : Bool :=
  !continuesName d && !isDigit d && d != '=' && d != '>' && d != '/'

theorem isSeparator_of_mem
    (h : d ∈ [' ', '\n', '(', ')', '[', ']', '\x7b', '\x7d', ',', ':', ';', '.']) : isSeparator d = true := by
  have hall : ([' ', '\n', '(', ')', '[', ']', '\x7b', '\x7d', ',', ':', ';', '.'].all isSeparator) = true := by
    decide
  exact List.all_eq_true.mp hall d h

theorem mem_of_inRanges {n : Nat} {ranges : List (Nat × Nat)} (h : inRanges n ranges = true) :
    n ∈ ranges.flatMap fun r => List.range' r.1 (r.2 + 1 - r.1) := by
  induction ranges with
  | nil => cases h
  | cons r ranges ih =>
    rw [List.flatMap_cons, List.mem_append]
    rw [inRanges] at h
    split at h
    · cases h
    · split at h
      · exact .inl (List.mem_range'_1.mpr (by omega))
      · exact .inr (ih h)

/-- No blank is a letter or a digit, so none joins the token before it. -/
theorem isSeparator_of_isBlank {c : Char} (h : isBlank c = true) : isSeparator c = true := by
  have hall : ((blankRanges.flatMap fun r => List.range' r.1 (r.2 + 1 - r.1)).all
      fun n => isSeparator (Char.ofNat n)) = true := by decide +kernel
  have hc := List.all_eq_true.mp hall c.toNat (mem_of_inRanges h)
  rwa [Char.ofNat_toNat] at hc

namespace Lexeme

/-- Whether a lexeme that ends a text ends where it does also if `ds` follows. -/
def EndsBefore (l : Lexeme) : List Char → Prop
  | [] => True
  | d :: _ =>
    match l.kind with
    | .string => True
    | .identifier | .keyword _ => continuesName d = false
    | .int => isDigit d = false
    | _ => ∀ c, l.chars = [c] → Mark.ofPair? c d = none

theorem span_append {p : Char → Bool} {ds : List Char} (h : cs.dropWhile p = [] → ∀ d ∈ ds.head?, p d = false) :
    (cs ++ ds).takeWhile p = cs.takeWhile p ∧ (cs ++ ds).dropWhile p = cs.dropWhile p ++ ds := by
  induction cs with
  | nil =>
    cases ds with
    | nil => exact ⟨rfl, rfl⟩
    | cons d ds =>
      have hd : p d = false := h rfl d rfl
      simp [hd]
  | cons c cs ih =>
    by_cases hc : p c = true
    · have htail := ih (by simpa [hc] using h)
      simp [hc, htail.1, htail.2]
    · simp [hc]

/-- The same lexeme with more text after it. -/
def followed (l : Lexeme) (ds : List Char) : Lexeme := { l with rest := l.rest ++ ds }

theorem ofWord_followed {ds : List Char} (h : (ofWord c cs).rest = [] → (ofWord c cs).EndsBefore ds) :
    ofWord c (cs ++ ds) = (ofWord c cs).followed ds := by
  have hend : cs.dropWhile continuesName = [] → ∀ d ∈ ds.head?, continuesName d = false := by
    intro hrest d hd
    obtain ⟨ds', rfl⟩ : ∃ ds', ds = d :: ds' := List.head?_eq_some_iff.mp hd
    have hends := h hrest
    -- A keyword ends where a name does.
    unfold EndsBefore ofWord plain at hends
    cases hk : Keyword.ofWord? (String.ofList (c :: cs.takeWhile continuesName)) with
    | some k => simpa only [hk] using hends
    | none => simpa only [hk] using hends
  obtain ⟨htake, hdrop⟩ := span_append hend
  simp only [ofWord, htake, hdrop]
  rfl

theorem ofDigits_followed {ds : List Char} (h : (ofDigits c cs).rest = [] → (ofDigits c cs).EndsBefore ds) :
    ofDigits c (cs ++ ds) = (ofDigits c cs).followed ds := by
  have hend : cs.dropWhile isDigit = [] → ∀ d ∈ ds.head?, isDigit d = false := by
    intro hrest d hd
    obtain ⟨ds', rfl⟩ : ∃ ds', ds = d :: ds' := List.head?_eq_some_iff.mp hd
    exact h hrest
  obtain ⟨htake, hdrop⟩ := span_append hend
  simp only [ofDigits, htake, hdrop]
  rfl

theorem ofSymbol_followed {ds : List Char} (h : (ofSymbol c cs).rest = [] → (ofSymbol c cs).EndsBefore ds) :
    ofSymbol c (cs ++ ds) = (ofSymbol c cs).followed ds := by
  unfold ofSymbol at h ⊢
  cases hm : Mark.ofChar? c with
  | some m => rfl
  | none =>
    simp only [hm] at h
    by_cases hs : startsName c = true
    · simp only [hs, if_true] at h ⊢
      exact ofWord_followed h
    · by_cases hd : isDigit c = true
      · simp only [hs, hd, if_true] at h ⊢
        exact ofDigits_followed h
      · simp only [hs, hd]
        rfl

theorem ofSymbol_nil_rest (c : Char) : (ofSymbol c []).rest = [] := by
  unfold ofSymbol
  split
  · rfl
  · split
    · rfl
    · split <;> rfl

theorem ofPair?_of_endsBefore {ds : List Char} (h : (ofSymbol c []).EndsBefore (d :: ds)) :
    Mark.ofPair? c d = none := by
  by_cases hword : startsName c = true ∨ isDigit c = true
  · exact Mark.ofPair?_eq_none hword
  · rw [not_or] at hword
    unfold ofSymbol at h
    cases hm : Mark.ofChar? c with
    | some m =>
      simp only [hm] at h
      exact h c rfl
    | none =>
      simp only [hm, hword.1, hword.2] at h
      exact h c rfl

theorem first?_followed {ds : List Char} {l : Lexeme} (hl : first? c cs = some l)
    (h : l.rest = [] → l.EndsBefore ds) : first? c (cs ++ ds) = some (l.followed ds) := by
  unfold first? at hl ⊢
  by_cases hc : c = '"'
  · rw [if_pos hc] at hl ⊢
    obtain ⟨⟨body, rest⟩, hbody, rfl⟩ := Option.map_eq_some_iff.mp hl
    unfold ofString?
    rw [Literal.body?_append_of_some ds hbody]
    rfl
  · rw [if_neg hc] at hl ⊢
    cases cs with
    | nil =>
      obtain rfl := Option.some.inj hl
      -- A single character at the end of the text can make a pair with the first one after it.
      cases ds with
      | nil => exact congrArg some (ofSymbol_followed h)
      | cons d ds =>
        have hpair : Mark.ofPair? c d = none := ofPair?_of_endsBefore (h (ofSymbol_nil_rest c))
        simp only [List.nil_append, hpair]
        exact congrArg some (ofSymbol_followed h)
    | cons e es =>
      simp only [List.cons_append] at hl ⊢
      cases hp : Mark.ofPair? c e with
      | some m =>
        rw [hp] at hl
        obtain rfl := Option.some.inj hl
        rfl
      | none =>
        rw [hp] at hl
        obtain rfl := Option.some.inj hl
        exact congrArg some (ofSymbol_followed h)

theorem endsBefore_separator (l : Lexeme) (ds : List Char) (hd : isSeparator d = true) : l.EndsBefore (d :: ds) := by
  simp only [isSeparator, Bool.and_eq_true, Bool.not_eq_true', bne_iff_ne, ne_eq] at hd
  obtain ⟨⟨⟨⟨hname, hdigit⟩, heq⟩, hgt⟩, -⟩ := hd
  dsimp only [EndsBefore]
  split
  · exact True.intro
  · exact hname
  · exact hname
  · exact hdigit
  · exact fun c _ => Mark.ofPair?_eq_none_of_ne heq hgt

end Lexeme

theorem Position.after_append (p : Position) (cs ds : List Char) :
    p.after (cs ++ ds) = (p.after cs).after ds := List.foldl_append

namespace Scanner

theorem next_of_token {l : Lexeme} (h : s.text = c :: cs) (hl : Lexeme.first? c cs = some l) :
    s.next = (.ok ⟨l.kind, String.ofList l.text, .between s.start (s.start.after l.chars)⟩,
      ⟨l.rest, s.start.after l.chars, false⟩) := by
  rcases hnext : s.next with ⟨r, s'⟩
  cases finds_of_next hnext with
  | ending h' =>
    rw [h] at h'
    cases h'
  | token h' hl' =>
    rw [h] at h'
    cases h'
    rw [hl] at hl'
    cases hl'
    rfl
  | unclosed h' hl' =>
    rw [h] at h'
    cases h'
    rw [hl] at hl'
    cases hl'

theorem next_followed {s₁ : Scanner} {t : Token} (ds : List Char) (done : Bool)
    (h : s.next = (.ok t, s₁)) (ht : t.kind ≠ .eof) (hd : isSeparator d = true) :
    next ⟨s.rest ++ d :: ds, s.here, done⟩ = (.ok t, ⟨s₁.rest ++ d :: ds, s₁.here, false⟩) := by
  cases finds_of_next h with
  | ending => exact absurd rfl ht
  | @token c cs l htext hl =>
    have hslash : (d :: ds).head? ≠ some '/' := by
      rintro hhead
      obtain rfl : d = '/' := Option.some.inj hhead
      simp [isSeparator] at hd
    have hsplit : splitTrivia false (s.rest ++ d :: ds) = ((splitTrivia false s.rest).1, s.text ++ d :: ds) :=
      splitTrivia_append_of_text (by rw [← text, htext]; simp) hslash
    have hl' := Lexeme.first?_followed hl fun _ => l.endsBefore_separator ds hd
    have hstart : start ⟨s.rest ++ d :: ds, s.here, done⟩ = s.start := by rw [start, hsplit]; rfl
    have htext' : text ⟨s.rest ++ d :: ds, s.here, done⟩ = c :: (cs ++ d :: ds) := by
      rw [text, hsplit, htext]
      rfl
    rw [next_of_token htext' hl', hstart]
    rfl

theorem next_of_trivia (ds : List Char) (done : Bool) (h : s.text = []) :
    next ⟨s.rest ++ '\n' :: ds, s.here, done⟩ = next ⟨ds, s.here.after (s.rest ++ ['\n']), done⟩ := by
  have hsplit := splitTrivia_append_line ds h
  have hplace : s.here.after (s.rest ++ '\n' :: (splitTrivia false ds).1) =
      (s.here.after (s.rest ++ ['\n'])).after (splitTrivia false ds).1 := by
    rw [← Position.after_append, List.append_assoc]
    rfl
  simp only [next, hsplit, hplace]

theorem next_of_blank (cs : List Char) (p : Position) (done : Bool) (hc : isBlank c = true) :
    next ⟨c :: cs, p, done⟩ = next ⟨cs, p.step c, done⟩ := by
  simp only [next, splitTrivia_of_blank cs hc]
  rfl

theorem tokens_congr {s' : Scanner} (h : s.next = s'.next) : s.tokens = s'.tokens := by
  rcases hnext : s.next with ⟨e | t, s₁⟩
  · rw [tokens_of_error hnext, tokens_of_error (h.symm.trans hnext)]
  · rw [tokens_of_ok hnext, tokens_of_ok (h.symm.trans hnext)]

theorem tokens_followed {ts : List Token} {stop : Token} (done : Bool) (h : s.tokens = .ok (ts ++ [stop])) :
    ∃ p d, ∀ ds, tokens ⟨s.rest ++ '\n' :: ds, s.here, done⟩ = (ts ++ ·) <$> tokens ⟨ds, p, d⟩ := by
  induction s using words.induct generalizing ts done with
  | case1 s e s₁ hs =>
    rw [tokens_of_error hs] at h
    cases h
  | case2 s t s₁ hs ht =>
    rw [tokens_of_ok hs, if_pos ht] at h
    have hnil : ts = [] := by
      have hlen := congrArg List.length (Except.ok.inj h)
      rw [List.length_append, List.length_singleton, List.length_singleton] at hlen
      exact List.eq_nil_of_length_eq_zero (by omega)
    -- Only trivia is left, which the line break ends.
    have htext : s.text = [] := by
      cases finds_of_next hs with
      | ending htext => exact htext
      | token _ hl => exact absurd ht (Lexeme.first?_kind_ne_eof hl)
    refine ⟨s.here.after (s.rest ++ ['\n']), done, fun ds => ?_⟩
    rw [tokens_congr (next_of_trivia ds done htext), hnil]
    cases tokens ⟨ds, s.here.after (s.rest ++ ['\n']), done⟩ <;> rfl
  | case3 s t s₁ hs ht hlt ih =>
    rw [tokens_of_ok hs, if_neg ht] at h
    cases hrest : s₁.tokens with
    | error e =>
      rw [hrest] at h
      cases h
    | ok us =>
      rw [hrest] at h
      have hcons : t :: us = ts ++ [stop] := Except.ok.inj h
      cases ts with
      | nil =>
        obtain ⟨-, rfl⟩ := List.cons.inj hcons
        exact absurd hrest s₁.tokens_ne_nil
      | cons u ts =>
        obtain ⟨rfl, rfl⟩ := List.cons.inj hcons
        obtain ⟨p, d, htail⟩ := ih false hrest
        refine ⟨p, d, fun ds => ?_⟩
        rw [tokens_of_ok (next_followed ds done hs ht (isSeparator_of_mem (by decide))), if_neg ht, htail]
        cases tokens ⟨ds, p, d⟩ <;> rfl

end Scanner

end Gondola
