import Gondola.Proofs.Token.Extension
import Mathlib.Data.List.Induction

/-! The places that scanning gives to tokens are places in the text. -/
namespace Gondola

def byteLength (cs : List Char) : Nat := (String.ofList cs).utf8ByteSize

@[simp] theorem byteLength_nil : byteLength [] = 0 := rfl

@[simp] theorem byteLength_append (cs ds : List Char) :
    byteLength (cs ++ ds) = byteLength cs + byteLength ds := by
  rw [byteLength, String.ofList_append, String.utf8ByteSize_append]
  rfl

@[simp] theorem byteLength_singleton (c : Char) : byteLength [c] = c.utf8Size := by
  simp [byteLength]

theorem byteLength_cons (c : Char) (cs : List Char) : byteLength (c :: cs) = c.utf8Size + byteLength cs := by
  rw [← List.singleton_append, byteLength_append, byteLength_singleton]

/-- The characters of a text that end within its first `n` bytes. -/
def charsBefore : Nat → List Char → List Char
  | _, [] => []
  | n, c :: cs => if c.utf8Size ≤ n then c :: charsBefore (n - c.utf8Size) cs else []

theorem charsBefore_byteLength (cs ds : List Char) : charsBefore (byteLength cs) (cs ++ ds) = cs := by
  induction cs with
  | nil =>
    cases ds with
    | nil => rfl
    | cons d ds =>
      -- Every character takes a byte, so none ends within no bytes.
      have hd := d.utf8Size_pos
      rw [List.nil_append, charsBefore, byteLength_nil, if_neg (by omega)]
  | cons c cs ih =>
    rw [List.cons_append, charsBefore, byteLength_cons, if_pos (Nat.le_add_right _ _),
      Nat.add_sub_cancel_left, ih]

/-- The characters after the last line feed. -/
def lastLine (cs : List Char) : List Char := (cs.reverse.takeWhile (· ≠ '\n')).reverse

theorem lastLine_concat (cs : List Char) (c : Char) :
    lastLine (cs ++ [c]) = if c = '\n' then [] else lastLine cs ++ [c] := by
  rw [lastLine, List.reverse_append, List.reverse_singleton, List.singleton_append, List.takeWhile_cons]
  by_cases hc : c = '\n'
  · simp [hc]
  · simp [hc, lastLine]

theorem Position.after_eq (cs : List Char) :
    Position.after {} cs = ⟨byteLength cs, 1 + cs.count '\n', 1 + (lastLine cs).length⟩ := by
  induction cs using List.reverseRecOn with
  | nil => rfl
  | append_singleton cs c ih =>
    rw [Position.after_append, ih, lastLine_concat]
    by_cases hc : c = '\n'
    · simp [Position.after, Position.step, hc, Nat.add_assoc]
    · simp [Position.after, Position.step, hc, Nat.add_assoc]

namespace Span

/-- A place in a text. -/
structure PlacedIn (source : String) (s : Span) : Prop where
  ordered : s.lo ≤ s.hi
  within : s.hi ≤ source.utf8ByteSize
  startsAtChar : String.Pos.Raw.IsValid source ⟨s.lo⟩
  endsAtChar : String.Pos.Raw.IsValid source ⟨s.hi⟩
  line : s.line = 1 + (charsBefore s.lo source.toList).count '\n'
  column : s.column = 1 + (lastLine (charsBefore s.lo source.toList)).length

theorem isValid_byteLength {source : String} {cs ds : List Char} (h : source.toList = cs ++ ds) :
    String.Pos.Raw.IsValid source ⟨byteLength cs⟩ := by
  refine String.Pos.Raw.isValid_iff_exists_append.mpr ⟨.ofList cs, .ofList ds, ?_, rfl⟩
  rw [← String.ofList_append, ← h, String.ofList_toList]

variable {source : String}

theorem hi_ofBounds {lo hi : Nat} (line column : Nat) (hle : lo ≤ hi) (hhi : hi ≤ source.utf8ByteSize)
    (hsize : source.utf8ByteSize < UInt32.size) : (ofBounds lo hi line column).hi = hi := by
  have hmax : hi - lo ≤ maxLen := by
    rw [maxLen]
    rw [UInt32.size] at hsize
    omega
  rw [Span.hi, ofBounds, Nat.min_eq_left hmax]
  exact Nat.add_sub_cancel' hle

theorem placedIn_between (hsize : source.utf8ByteSize < UInt32.size) {before inside after : List Char}
    (h : source.toList = before ++ inside ++ after) :
    PlacedIn source (between (Position.after {} before) (Position.after {} (before ++ inside))) := by
  have htotal : byteLength (before ++ inside) + byteLength after = source.utf8ByteSize := by
    rw [← byteLength_append, ← h, byteLength, String.ofList_toList]
  have hle : byteLength before ≤ byteLength (before ++ inside) := by
    rw [byteLength_append]
    exact Nat.le_add_right _ _
  rw [between, Position.after_eq, Position.after_eq]
  -- A length that does not fit into 32 bits would be cut off. In a text of this size all lengths fit.
  have hhi := hi_ofBounds (1 + before.count '\n') (1 + (lastLine before).length) hle
    (Nat.le.intro htotal) hsize
  have hbefore : charsBefore (byteLength before) source.toList = before := by
    rw [h, List.append_assoc, charsBefore_byteLength]
  refine ⟨?_, ?_, ?_, ?_, ?_, ?_⟩
  · rw [hhi]
    exact hle
  · rw [hhi]
    omega
  · exact isValid_byteLength (h.trans (List.append_assoc ..))
  · rw [hhi]
    exact isValid_byteLength h
  · show _ = 1 + (charsBefore (byteLength before) source.toList).count '\n'
    rw [hbefore]
    rfl
  · show _ = 1 + (lastLine (charsBefore (byteLength before) source.toList)).length
    rw [hbefore]
    rfl

theorem PlacedIn.through {s t : Span} (hsize : source.utf8ByteSize < UInt32.size) (hs : PlacedIn source s)
    (ht : PlacedIn source t) : PlacedIn source (s.through t) := by
  have hle : s.lo ≤ max t.hi s.hi := Nat.le_trans hs.ordered (Nat.le_max_right _ _)
  have hwithin : max t.hi s.hi ≤ source.utf8ByteSize := Nat.max_le.mpr ⟨ht.within, hs.within⟩
  have hhi : (s.through t).hi = max t.hi s.hi := hi_ofBounds _ _ hle hwithin hsize
  refine ⟨?_, ?_, hs.startsAtChar, ?_, hs.line, hs.column⟩
  · rw [hhi]
    exact hle
  · rw [hhi]
    exact hwithin
  · -- The two may overlap, so the joined place ends with either of them.
    rw [hhi]
    rcases Nat.le_total t.hi s.hi with h | h
    · rw [Nat.max_eq_right h]
      exact hs.endsAtChar
    · rw [Nat.max_eq_left h]
      exact ht.endsAtChar

theorem placedIn_default (hsize : source.utf8ByteSize < UInt32.size) : PlacedIn source {} := by
  have hsplit : source.toList = [] ++ [] ++ source.toList := rfl
  exact placedIn_between hsize hsplit

end Span

namespace Scanner

/-- The scanner stands somewhere in the text, and knows its place. -/
def StandsIn (source : String) (s : Scanner) : Prop :=
  ∃ read, source.toList = read ++ s.rest ∧ s.here = Position.after {} read

theorem standsIn_ofString (source : String) : StandsIn source (ofString source) := ⟨[], rfl, rfl⟩

variable {source : String} {s s' : Scanner}

theorem StandsIn.start (h : StandsIn source s) :
    ∃ read, source.toList = read ++ s.text ∧ s.start = Position.after {} read := by
  obtain ⟨read, hsource, hhere⟩ := h
  refine ⟨read ++ (splitTrivia false s.rest).1, ?_, ?_⟩
  · rw [List.append_assoc, hsource, Scanner.text, splitTrivia_append]
  · rw [Scanner.start, hhere, Position.after_append]

/-- The place of what a step finds, be it a token or an error. -/
def spanOf : Except (Located ScanError) Token → Span
  | .ok t => t.span
  | .error e => e.span

theorem StandsIn.step (h : StandsIn source s) : StandsIn source s.next.2 := by
  obtain ⟨read, hsource, hstart⟩ := h.start
  have hfinds := s.finds_next
  generalize s.next.1 = r at hfinds
  generalize s.next.2 = s' at hfinds ⊢
  cases hfinds with
  | ending htext => exact ⟨read, htext ▸ hsource, hstart⟩
  | @token c cs l htext hl =>
    refine ⟨read ++ l.chars, ?_, ?_⟩
    · rw [hsource, htext, List.append_assoc, Lexeme.first?_append hl]
    · rw [Position.after_append, hstart]
  | unclosed htext hl =>
    refine ⟨read ++ s.text, ?_, ?_⟩
    · rw [hsource, List.append_nil]
    · rw [Position.after_append, hstart]

theorem StandsIn.next (hsize : source.utf8ByteSize < UInt32.size) (h : StandsIn source s) :
    (spanOf s.next.1).PlacedIn source ∧ StandsIn source s.next.2 := by
  refine ⟨?_, h.step⟩
  obtain ⟨read, hsource, hstart⟩ := h.start
  have hfinds := s.finds_next
  -- In each case the place goes from the end of the gap to the end of what was found.
  generalize s.next.1 = r at hfinds ⊢
  generalize s.next.2 = s' at hfinds
  cases hfinds with
  | ending htext =>
    have hsplit : source.toList = read ++ [] ++ [] := by
      rw [hsource, htext, List.append_nil, List.append_nil]
    have hplace := Span.placedIn_between hsize hsplit
    rw [List.append_nil, ← hstart] at hplace
    exact hplace
  | @token c cs l htext hl =>
    rw [htext, ← Lexeme.first?_append hl, ← List.append_assoc] at hsource
    have hplace := Span.placedIn_between hsize hsource
    rw [Position.after_append, ← hstart] at hplace
    exact hplace
  | unclosed htext hl =>
    rw [← List.append_nil (read ++ s.text)] at hsource
    have hplace := Span.placedIn_between hsize hsource
    rw [Position.after_append, ← hstart] at hplace
    exact hplace

theorem StandsIn.token (hsize : source.utf8ByteSize < UInt32.size) (h : StandsIn source s) {t : Token}
    (hn : s.next = (.ok t, s')) : t.span.PlacedIn source ∧ StandsIn source s' := by
  have hnext := h.next hsize
  rw [hn] at hnext
  exact hnext

theorem StandsIn.error (hsize : source.utf8ByteSize < UInt32.size) (h : StandsIn source s)
    {e : Located ScanError} (hn : s.next = (.error e, s')) :
    e.span.PlacedIn source ∧ StandsIn source s' := by
  have hnext := h.next hsize
  rw [hn] at hnext
  exact hnext

def afterSteps (s : Scanner) : Nat → Scanner
  | 0 => s
  | n + 1 => (s.afterSteps n).next.2

theorem standsIn_afterSteps (source : String) (n : Nat) :
    StandsIn source ((ofString source).afterSteps n) := by
  induction n with
  | zero => exact standsIn_ofString source
  | succ n ih => exact ih.step

end Scanner

end Gondola
