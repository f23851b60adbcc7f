import Gondola.Proofs.Names.Spelling
import Gondola.Proofs.Token.Lexing
import Mathlib.Data.List.Basic
import Mathlib.Tactic.SplitIfs

/-! Code on one line. No part of the output ends a line but the layout: the texts of strings are escaped, and names and
numbers have no line breaks. -/
namespace Gondola

open Text

def OneLine (s : String) : Prop := ∀ c ∈ s.toList, c ≠ '\n' ∧ c ≠ '\r'

theorem oneLine_iff {s : String} : (s.toList.all fun c => c != '\n' && c != '\r') = true ↔ OneLine s := by
  simp [OneLine]

instance (s : String) : Decidable (OneLine s) :=
  decidable_of_bool (s.toList.all fun c => c != '\n' && c != '\r') oneLine_iff

/-- A long literal is the text of its characters, which are not worked out from its bytes here. -/
theorem oneLine_ofList {cs : List Char} (h : (cs.all fun c => c != '\n' && c != '\r') = true) :
    OneLine (String.ofList cs) := by
  rw [← oneLine_iff, String.toList_ofList]
  exact h

/-- The text starts with a character that is neither blank nor the mark of a directive or of a block's end. -/
def startsCode (s : String) : Bool := s.toList.head?.any fun c => !isBlank c && c != '#' && c != '\x7d'

/-- Code on one line, which neither a directive nor the end of a block is. -/
def IsCode (s : String) : Prop := OneLine s ∧ startsCode s = true

instance (s : String) : Decidable (IsCode s) :=
  inferInstanceAs (Decidable (OneLine s ∧ startsCode s = true))

def endsIn (c : Char) (s : String) : Bool := s.toList.getLast? == some c

/-- Code that is a line by itself and opens no block in braces. -/
def IsStatement (s : String) : Prop := IsCode s ∧ endsIn '\x7b' s = false

instance (s : String) : Decidable (IsStatement s) :=
  inferInstanceAs (Decidable (IsCode s ∧ endsIn '\x7b' s = false))

section Append

variable {s t : String}

@[simp] theorem oneLine_append : OneLine (s ++ t) ↔ OneLine s ∧ OneLine t := by
  simp only [OneLine, String.toList_append, List.forall_mem_append]

theorem IsCode.append (hs : IsCode s) (ht : OneLine t) : IsCode (s ++ t) := by
  refine ⟨oneLine_append.mpr ⟨hs.1, ht⟩, ?_⟩
  have hstart := hs.2
  rw [startsCode] at hstart ⊢
  rw [String.toList_append]
  cases hl : s.toList with
  | nil =>
    rw [hl] at hstart
    cases hstart
  | cons c cs =>
    rw [hl] at hstart
    exact hstart

theorem endsIn_append (c : Char) (ht : t ≠ "") : endsIn c (s ++ t) = endsIn c t := by
  have hne : t.toList ≠ [] := fun h => ht (String.toList_eq_nil_iff.mp h)
  rw [endsIn, endsIn, String.toList_append, List.getLast?_append_of_ne_nil _ hne]

theorem IsCode.ne_empty (hs : IsCode s) : s ≠ "" := by
  rintro rfl
  exact absurd hs (by decide)

theorem IsCode.statementBy (hs : IsCode s) (ht : OneLine t ∧ t ≠ "" ∧ endsIn '\x7b' t = false) : IsStatement (s ++ t) :=
  ⟨hs.append ht.1, by rw [endsIn_append _ ht.2.1, ht.2.2]⟩

end Append

/-- A text that can be a name or a part of one. -/
def IsWord (s : String) : Prop := s.toList ≠ [] ∧ ∀ c ∈ s.toList, continuesName c = true

section Leaves

theorem IsWord.ne {s : String} (h : IsWord s) {c d : Char} (hc : c ∈ s.toList) (hd : continuesName d = false) : c ≠ d := by
  rintro rfl
  rw [h.2 _ hc] at hd
  cases hd

theorem IsWord.isCode {s : String} (h : IsWord s) : IsCode s := by
  refine ⟨fun c hc => ⟨h.ne hc (by decide), h.ne hc (by decide)⟩, ?_⟩
  rw [startsCode]
  cases hl : s.toList with
  | nil => exact absurd hl h.1
  | cons c cs =>
    have hc : c ∈ s.toList := hl ▸ List.mem_cons_self
    have hblank : isBlank c = false := Bool.eq_false_iff.mpr fun hblank => by
      have hsep := isSeparator_of_isBlank hblank
      rw [isSeparator, h.2 c hc] at hsep
      cases hsep
    simp [hblank, h.ne hc (d := '#') (by decide), h.ne hc (d := '\x7d') (by decide)]

theorem IsWord.endsIn_eq_false {s : String} (h : IsWord s) {c : Char} (hc : continuesName c = false) :
    endsIn c s = false := by
  rw [endsIn, beq_eq_false_iff_ne]
  exact fun hlast => h.ne (List.mem_of_getLast? hlast) hc rfl

theorem IsIdentifier.isWord {name : String} (h : IsIdentifier name) : IsWord name := by
  refine ⟨?_, h.continuesName⟩
  obtain ⟨c, cs, hname, -⟩ := h
  rw [hname]
  exact List.cons_ne_nil c cs

theorem isWord_toString (n : Nat) : IsWord (toString n) := by
  rw [IsWord, toList_toString]
  refine ⟨Nat.toDigits_ne_nil, fun c hc => ?_⟩
  have hdigit := mem_digits_of_isDigit (Nat.isDigit_of_mem_toDigits (by decide) (by decide) hc)
  exact List.all_eq_true.mp (by decide) c hdigit

theorem Form.isWord_text {ns : Namespace} (hl : ∀ start ∈ ns.library, ∀ c ∈ start.toList, continuesName c = true)
    {f : Form} (h : IsWord f.stem) : IsWord (f.text ns) := by
  have happend {s t : String} (hs : IsWord s) (ht : ∀ c ∈ t.toList, continuesName c = true) : IsWord (s ++ t) := by
    rw [IsWord, String.toList_append]
    exact ⟨List.append_ne_nil_of_left_ne_nil hs.1 _, List.forall_mem_append.mpr ⟨hs.2, ht⟩⟩
  have hunderscore : ∀ c ∈ "_".toList, continuesName c = true := List.all_eq_true.mp (by decide)
  cases f with
  | plain name =>
    rw [text, Namespace.ident]
    split
    · exact happend h hunderscore
    · exact h
  | fresh stem n =>
    rw [text, Namespace.fresh]
    split
    · rename_i start hstart
      rw [IsWord, String.append_assoc, String.toList_append]
      have hrest := happend h (isWord_toString n).2
      exact ⟨List.append_ne_nil_of_right_ne_nil _ hrest.1, List.forall_mem_append.mpr ⟨hl start hstart, hrest.2⟩⟩
    · exact happend (happend (happend h hunderscore) (isWord_toString n).2) hunderscore

theorem isCode_toString (n : Nat) : IsCode (toString n) := (isWord_toString n).isCode

theorem digitChar_ne : ∀ n < 16, Nat.digitChar n ≠ '\n' ∧ Nat.digitChar n ≠ '\r' := by decide

theorem Text.ControlEscape.chars_ne (style : ControlEscape) {c : Char} (hc : isControl c = true) :
    ∀ d ∈ style.chars c, d ≠ '\n' ∧ d ≠ '\r' := by
  have hle : c.toNat ≤ 127 := by
    simp only [isControl, Bool.or_eq_true, decide_eq_true_eq, beq_iff_eq] at hc
    omega
  cases style with
  | hex =>
    simp only [ControlEscape.chars, List.forall_mem_cons]
    exact ⟨by decide, by decide, digitChar_ne _ (by omega), digitChar_ne _ (by omega), List.forall_mem_nil _⟩
  | octal =>
    simp only [ControlEscape.chars, List.forall_mem_cons]
    exact ⟨by decide, digitChar_ne _ (by omega), digitChar_ne _ (by omega), digitChar_ne _ (by omega),
      List.forall_mem_nil _⟩

theorem literalChar_ne (style : ControlEscape) (c : Char) :
    ∀ d ∈ literalChar style c, d ≠ '\n' ∧ d ≠ '\r' := by
  unfold literalChar
  split_ifs with hquote hslash hn hr ht hcontrol
  · simp
  · simp
  · simp
  · simp
  · simp
  · exact style.chars_ne hcontrol
  · intro d hd
    rw [List.mem_singleton.mp hd]
    exact ⟨hn, hr⟩

/-- The text of a literal may hold line breaks, but the literal does not. -/
theorem oneLine_stringLiteral (style : ControlEscape) (text : String) : OneLine (stringLiteral style text) := by
  intro c hc
  rw [stringLiteral, String.toList_ofList] at hc
  rcases List.mem_cons.mp hc with rfl | hc
  · decide
  · rcases List.mem_append.mp hc with hc | hc
    · obtain ⟨d, -, hd⟩ := List.mem_flatMap.mp hc
      exact literalChar_ne style d c hd
    · rw [List.mem_singleton.mp hc]
      decide

end Leaves

end Gondola
