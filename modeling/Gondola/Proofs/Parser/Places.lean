import Gondola.Proofs.Parser.StmtAgreement
import Gondola.Proofs.Program.Everywhere

/-! Where the places in trees come from. What holds of the places of tokens and is kept by joining holds of all places
in a tree, and of the place of an error. A run is compared with itself for that, in such a way that no other place
agrees with any. -/
namespace Gondola

/-- A property of the places of what a scanner gives, as long as it stays in the given states. -/
structure Placing where
  place : Span → Prop
  scanner : Scanner → Prop
  token : ∀ {s s' t}, scanner s → s.next = (.ok t, s') → place t.span ∧ scanner s'
  error : ∀ {s s' e}, scanner s → s.next = (.error e, s') → place e.span ∧ scanner s'
  through : ∀ {s t}, place s → place t → place (s.through t)

namespace Placing

variable (v : Placing)

open Classical in
/-- Every place is doubled, and if it does not have the property it is moved on the one side. -/
noncomputable def left (s : Span) : Span := { s with lo := if v.place s then 2 * s.lo else 2 * s.lo + 1 }

def right (s : Span) : Span := { s with lo := 2 * s.lo }

variable {v}

theorem left_eq_right {s t : Span} : v.left s = right t ↔ v.place s ∧ s = t := by
  obtain ⟨lo, len, line, column⟩ := s
  obtain ⟨lo', len', line', column'⟩ := t
  simp only [left, right, Span.mk.injEq]
  split
  · rename_i h
    simp only [h, true_and]
    omega
  · rename_i h
    simp only [h, false_and, iff_false]
    omega

variable (v) in
noncomputable def comparison : Parser.Comparison where
  left := v.left
  right := right
  through h h' := by
    obtain ⟨hs, rfl⟩ := left_eq_right.mp h
    obtain ⟨ht, rfl⟩ := left_eq_right.mp h'
    exact left_eq_right.mpr ⟨v.through hs ht, rfl⟩
  short := False
  same := False.elim

theorem streams_self (s : Scanner) (h : v.scanner s) : Parser.Streams v.comparison s s := by
  have htoken {t : Token} (ht : v.place t.span) : t.mapSpan v.left = t.mapSpan right := by
    rw [Token.mapSpan, Token.mapSpan, left_eq_right.mpr ⟨ht, rfl⟩]
  induction s using Scanner.words.induct with
  | case1 s e s' hn => exact .error hn hn rfl (left_eq_right.mpr ⟨(v.error h hn).1, rfl⟩)
  | case2 s t s' hn ht => exact .ending hn hn (htoken (v.token h hn).1) ht
  | case3 s t s' hn _ _ ih => exact .token hn hn (htoken (v.token h hn).1) (ih (v.token h hn).2)

/-- What holds of the places of a text holds of an error in it, and two changes of places tell no tree of it apart. -/
theorem parseProgram_placed {source : String} (h : v.scanner (.ofString source)) :
    (∃ p, parseProgram source = .ok p ∧ p.mapSpan v.left = p.mapSpan right) ∨
      ∃ e, parseProgram source = .error (.rejected e) ∧ v.place e.span := by
  rcases Parser.parseProgram_agree (streams_self _ h) (Nat.le_refl _) with
    ⟨p, p', hp, hp', hspans⟩ | ⟨e, e', he, he', -, hspan⟩ | ⟨hshort, -⟩
  · obtain rfl := Except.ok.inj (hp.symm.trans hp')
    exact .inl ⟨p, hp, hspans⟩
  · exact .inr ⟨e, he, (left_eq_right.mp hspan).1⟩
  · exact hshort.elim

end Placing

end Gondola
