import Gondola.Proofs.Token.Steps

/-! The words of a text: its tokens without their places. -/
namespace Gondola

namespace Scanner

/-- The kinds and texts of the tokens from here up to the end of input, which is the last of them. A literal
without an end ends them as well. -/
def words (s : Scanner) : List (TokenKind × String) × Option ScanError :=
  match h : s.next with
  | (.error e, _) => ([], some e.value)
  | (.ok t, s') =>
    if ht : t.kind = .eof then ([(t.kind, t.text)], none)
    else
      have _ := next_rest_length_lt h ht
      ((t.kind, t.text) :: (words s').1, (words s').2)
termination_by s.rest.length

section Words

variable {s s' : Scanner} {t : Token}

theorem words_of_error {e : Located ScanError} (h : s.next = (.error e, s')) :
    s.words = ([], some e.value) := by
  rw [words]
  split
  · simp_all
  · simp_all

theorem words_of_eof (h : s.next = (.ok t, s')) (ht : t.kind = .eof) :
    s.words = ([(t.kind, t.text)], none) := by
  rw [words]
  split
  · simp_all
  · simp_all

theorem words_of_token (h : s.next = (.ok t, s')) (ht : t.kind ≠ .eof) :
    s.words = ((t.kind, t.text) :: s'.words.1, s'.words.2) := by
  rw [words]
  split
  · simp_all
  · simp_all

theorem words_cases (s : Scanner) :
    (∃ e s', s.next = (.error e, s') ∧ s.words = ([], some e.value)) ∨
    (∃ t s', s.next = (.ok t, s') ∧ t.kind = .eof ∧ s.words = ([(t.kind, t.text)], none)) ∨
    ∃ t s', s.next = (.ok t, s') ∧ t.kind ≠ .eof ∧ s.words = ((t.kind, t.text) :: s'.words.1, s'.words.2) := by
  rcases h : s.next with ⟨e | t, s'⟩
  · exact .inl ⟨e, s', rfl, words_of_error h⟩
  · by_cases ht : t.kind = .eof
    · exact .inr (.inl ⟨t, s', rfl, ht, words_of_eof h ht⟩)
    · exact .inr (.inr ⟨t, s', rfl, ht, words_of_token h ht⟩)

/-- How many tokens are left before the end of input. A literal without an end counts for one. -/
def left (s : Scanner) : Nat := (s.words.1.filter fun w => w.1 ≠ .eof).length + s.words.2.toList.length

theorem left_of_token (h : s.next = (.ok t, s')) (ht : t.kind ≠ .eof) : s.left = s'.left + 1 := by
  rw [left, words_of_token h ht, left, List.filter_cons_of_pos (by simpa using ht), List.length_cons]
  exact Nat.add_right_comm _ _ _

theorem left_le (s : Scanner) : s.left ≤ s.rest.length := by
  induction hn : s.rest.length using Nat.strongRecOn generalizing s with
  | ind n ih =>
    rcases s.words_cases with ⟨e, s', h, hw⟩ | ⟨t, s', h, ht, hw⟩ | ⟨t, s', h, ht, -⟩
    · cases finds_of_next h with
      | unclosed htext =>
        have hle := s.text_length_le
        rw [htext, List.length_cons] at hle
        rw [left, hw]
        simp only [List.filter_nil, List.length_nil, Option.toList_some, List.length_singleton]
        omega
    · rw [left, hw]
      simp [ht]
    · have hlt := next_rest_length_lt h ht
      have hleft := ih _ (hn ▸ hlt) s' rfl
      rw [left_of_token h ht]
      omega

theorem left_of_eof (h : s.next = (.ok t, s')) (ht : t.kind = .eof) : s.left = 0 ∧ s'.left = 0 := by
  have hw := words_of_eof h ht
  have hw' := words_of_eof (next_of_eof h ht) ht
  constructor
  · rw [left, hw]
    simp [ht]
  · rw [left, hw']
    simp [ht]

theorem left_of_error {e : Located ScanError} (h : s.next = (.error e, s')) : s.left = 1 ∧ s'.left = 0 := by
  constructor
  · rw [left, words_of_error h]
    rfl
  · cases finds_of_next h with
    | unclosed => exact Nat.le_zero.mp (left_le _)

end Words

end Scanner

end Gondola
