import Gondola.Proofs.Parser.Recognition
import Gondola.Proofs.Parser.StmtAgreement

/-! What a rejected text says about the texts that go on from it. If it ended too early, one of them is a program. Any
other failure is found in all of them, at the same place. -/
namespace Gondola

open Text

namespace Scanner

theorem streams_followed (v : Parser.Comparison) (hv : v.short) (s : Scanner) (ds : List Char) (done : Bool) :
    Parser.Streams v s ⟨s.rest ++ '\n' :: ds, s.here, done⟩ := by
  induction s using words.induct generalizing done with
  | case1 s e s₁ hs => exact .short hv (.inr ⟨e, s₁, hs⟩)
  | case2 s t s₁ hs ht => exact .short hv (.inl ⟨t, s₁, hs, ht⟩)
  | case3 s t s₁ hs ht hlt ih =>
    exact .token hs (next_followed ds done hs ht (isSeparator_of_mem (by decide))) (by rw [v.same hv]) (ih false)

end Scanner

namespace TokenKind

/-- How a token that completes a text is spelled. -/
def filler (k : TokenKind) : String := k.lexeme?.getD "x"

/-- The spelling of such a token is one lexeme, and no part of a comment. -/
structure Spells (k : TokenKind) (c : Char) (cs : List Char) (l : Lexeme) : Prop where
  filler : k.filler.toList = c :: cs
  blank : isBlank c = false
  slash : cs.head? ≠ some '/'
  lexeme : Lexeme.first? c cs = some l
  kind : l.kind = k
  rest : l.rest = []

theorem exists_spells {k : TokenKind} (hk : Parser.isFiller k = true) : ∃ c cs l, Spells k c cs l := by
  have spelled (k : TokenKind) (c : Char) (cs : List Char) (hfiller : k.filler.toList = c :: cs)
      (hblank : isBlank c = false) (hslash : cs.head? ≠ some '/')
      (h : ((Lexeme.first? c cs).map fun l => (l.kind, l.rest)) = some (k, [])) : ∃ c cs l, Spells k c cs l := by
    obtain ⟨l, hl, hkind⟩ := Option.map_eq_some_iff.mp h
    exact ⟨c, cs, l, hfiller, hblank, hslash, hl, (Prod.mk.inj hkind).1, (Prod.mk.inj hkind).2⟩
  match k, hk with
  | .identifier, _ | .keyword .inKw, _ =>
    exact spelled _ _ _ rfl (isBlank_of_visible (by decide)) (by decide) (by decide)
  | .mark m, _ => cases m <;> exact spelled _ _ _ rfl (isBlank_of_visible (by decide)) (by decide) (by decide)

end TokenKind

theorem tokens_filler {k : TokenKind} (hk : Parser.isFiller k = true) (p : Position) (done : Bool) :
    ∃ t p', t.kind = k ∧ ∀ cs,
      Scanner.tokens ⟨k.filler.toList ++ ' ' :: cs, p, done⟩ = (t :: ·) <$> Scanner.tokens ⟨cs, p', false⟩ := by
  obtain ⟨c, ds, l, h⟩ := TokenKind.exists_spells hk
  refine ⟨⟨l.kind, String.ofList l.text, .between p (p.after l.chars)⟩, (p.after l.chars).step ' ', h.kind,
    fun cs => ?_⟩
  have hslash : (ds ++ ' ' :: cs).head? ≠ some '/' := by
    cases ds with
    | nil => simp
    | cons d ds => exact h.slash
  have hsplit := splitTrivia_of_text h.blank fun _ => hslash
  have htext : Scanner.text ⟨c :: (ds ++ ' ' :: cs), p, done⟩ = c :: (ds ++ ' ' :: cs) := congrArg Prod.snd hsplit
  have hstart : Scanner.start ⟨c :: (ds ++ ' ' :: cs), p, done⟩ = p :=
    congrArg (fun r : List Char × List Char => p.after r.1) hsplit
  have hspace : isSeparator ' ' = true := isSeparator_of_mem (by decide)
  have hnext := Scanner.next_of_token htext (Lexeme.first?_followed h.lexeme fun _ => l.endsBefore_separator cs hspace)
  rw [hstart, Lexeme.followed, h.rest] at hnext
  rw [h.filler, List.cons_append, Scanner.tokens_of_ok hnext, if_neg (Lexeme.first?_kind_ne_eof h.lexeme)]
  exact congrArg _ (Scanner.tokens_congr (Scanner.next_of_blank cs _ false isBlank_space))

/-- The tokens that make up something can be written down, each with a blank after it. -/
theorem exists_filling {G : List Token → Prop} (h : Parser.Fillable G) (p : Position) (done : Bool) :
    ∃ cs us stop, stop.kind = .eof ∧ Scanner.tokens ⟨cs, p, done⟩ = .ok (us ++ [stop]) ∧ G us := by
  induction h generalizing p done with
  | done h =>
    have hnext : Scanner.next ⟨[], p, done⟩ = (.ok ⟨.eof, "", .between p p⟩, ⟨[], p, true⟩) := rfl
    exact ⟨[], [], _, rfl, Scanner.tokens_of_ok hnext, h⟩
  | token k hk _ ih =>
    obtain ⟨t, p', ht, htokens⟩ := tokens_filler hk p done
    obtain ⟨cs, us, stop, hstop, hrest, hus⟩ := ih t ht p' false
    refine ⟨k.filler.toList ++ ' ' :: cs, t :: us, stop, hstop, ?_, hus⟩
    rw [htokens, hrest]
    rfl

theorem toList_continued (source rest : String) :
    (source ++ "\n" ++ rest).toList = source.toList ++ '\n' :: rest.toList := by
  rw [String.toList_append, String.toList_append, List.append_assoc]
  rfl

theorem exists_continuation {source : String} {e : Located SyntaxError} {x : Expected}
    (h : parseProgram source = .error (.rejected e)) (he : e.value = .prematureEnd x) :
    ∃ rest p, parseProgram (source ++ "\n" ++ rest) = .ok p := by
  have hstarved : Parser.Starved (Parser.itemsWithin (Parser.ofString source).bound (Parser.ofString source).bound
      (.ofString source)) := by
    obtain ⟨s, value⟩ := e
    obtain rfl : value = .prematureEnd x := he
    rw [parseProgram_eq] at h
    split at h
    · cases h
    · rename_i f q hitems
      cases h
      exact ⟨s, x, q, hitems⟩
  obtain ⟨ts, stop, hstop, hpending, hfill⟩ := (Parser.finishes_itemsWithin _ _ _).starved hstarved
  have htokens : (Scanner.ofString source).tokens = .ok (ts ++ [stop]) :=
    (Parser.pending_ofString source).symm.trans hpending
  obtain ⟨p, done, hfollowed⟩ := Scanner.tokens_followed false htokens
  obtain ⟨cs, us, stop', hstop', hfiller, _, is, -, his, -⟩ := exists_filling hfill p done
  have hall : tokenize (source ++ "\n" ++ String.ofList cs) = .ok (ts ++ us ++ [stop']) := by
    unfold tokenize Scanner.ofString
    rw [toList_continued, String.toList_ofList]
    refine (hfollowed cs).trans ?_
    rw [hfiller, List.append_assoc]
    rfl
  obtain ⟨q, hq, -⟩ := Parser.parseProgram_of_generates hall (.mk his hstop')
  exact ⟨_, q, hq⟩

/-- Two texts are compared as they are, and the first one may be the shorter one. -/
def Parser.inPlace : Parser.Comparison where
  left := id
  right := id
  through := fun h h' => by
    obtain rfl := h
    obtain rfl := h'
    rfl
  short := True
  same := fun _ => rfl

theorem parseProgram_continued {source : String} {f : Failure SyntaxError} (h : parseProgram source = .error f)
    (hf : ¬ Parser.Cut f) (rest : String) : parseProgram (source ++ "\n" ++ rest) = .error f := by
  have hstreams : Parser.Streams Parser.inPlace (.ofString source) (.ofString (source ++ "\n" ++ rest)) := by
    unfold Scanner.ofString
    rw [toList_continued]
    exact Scanner.streams_followed _ True.intro (.ofString source) rest.toList false
  have hbound : (Parser.ofString source).bound ≤ (Parser.ofString (source ++ "\n" ++ rest)).bound := by
    show source.toList.length + 5 ≤ (source ++ "\n" ++ rest).toList.length + 5
    rw [toList_continued, List.length_append]
    omega
  rcases Parser.parseProgram_agree hstreams hbound with ⟨p, _, hp, -⟩ | ⟨e, e', he, he', hvalue, hspan⟩ | ⟨-, hcut⟩
  · cases h.symm.trans hp
  · have heq : e = e' := by
      obtain ⟨s, value⟩ := e
      obtain ⟨s', value'⟩ := e'
      obtain rfl : value = value' := hvalue
      obtain rfl : s = s' := hspan
      rfl
    rw [he', ← heq, ← he, h]
  · exact absurd (hcut f h) hf

/-- A rejected text is at fault at some place. If it ended too early, a program goes on from it on the next line.
If the failure is of any other kind and not about a literal without an end, every text that goes on from it on the
next line fails just the same. -/
theorem parseProgram_error_classified {source : String} {f : Failure SyntaxError}
    (h : parseProgram source = .error f) :
    ∃ e, f = .rejected e ∧
      ((∃ x, e.value = .prematureEnd x) → ∃ rest p, parseProgram (source ++ "\n" ++ rest) = .ok p) ∧
      ((∀ x, e.value ≠ .prematureEnd x) → (∀ x, e.value ≠ .scan x) →
        ∀ rest, parseProgram (source ++ "\n" ++ rest) = .error f) := by
  obtain ⟨e, rfl⟩ := parseProgram_rejected h
  refine ⟨e, rfl, ?_, ?_⟩
  · rintro ⟨x, hx⟩
    exact exists_continuation h hx
  · intro hearly hscan
    apply parseProgram_continued h
    rintro (_ | _)
    · exact hearly _ rfl
    · exact hscan _ rfl

theorem parseProgram_error_classified_call :
    (∃ rest p, parseProgram ("if x \x7b f(-1, [" ++ "\n" ++ rest) = .ok p) ∧
      ∃ f, parseProgram "if x \x7b f(-1 = 2" = .error f ∧
        ∀ rest, parseProgram ("if x \x7b f(-1 = 2" ++ "\n" ++ rest) = .error f := by
  have hearly : (match parseProgram "if x \x7b f(-1, [" with
      | .error (.rejected ⟨_, .prematureEnd _⟩) => true
      | _ => false) = true := by decide +kernel
  have hother : (match parseProgram "if x \x7b f(-1 = 2" with
      | .error (.rejected ⟨_, .unexpected ..⟩) => true
      | _ => false) = true := by decide +kernel
  constructor
  · split at hearly
    · rename_i h
      obtain ⟨e, he, hrest, -⟩ := parseProgram_error_classified h
      cases he
      exact hrest ⟨_, rfl⟩
    · cases hearly
  · split at hother
    · rename_i h
      obtain ⟨e, he, -, hrest⟩ := parseProgram_error_classified h
      cases he
      exact ⟨_, h, hrest (by simp) (by simp)⟩
    · cases hother

end Gondola
