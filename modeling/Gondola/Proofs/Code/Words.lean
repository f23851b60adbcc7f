import Gondola.Proofs.Code.Reader

/-! The words of C code. -/
namespace Gondola.Native

open Text (continuesName)

/-- Where reading has come to: outside of literals, in one, or behind a backslash in one. -/
inductive Mode where
  | code
  | literal (quote : Char)
  | escape (quote : Char)
  deriving DecidableEq, Repr

namespace Mode

def next (m : Mode) (c : Char) : Mode :=
  match m with
  | code => if c = '"' || c = '\x27' then literal c else code
  | literal quote => if c = quote then code else if c = '\\' then escape quote else literal quote
  | escape quote => literal quote

def after (m : Mode) (cs : List Char) : Mode := cs.foldl next m

end Mode

def blanked : Mode → List Char → List Char
  | _, [] => []
  | m, c :: cs => (if m = .code ∧ m.next c = .code then c else ' ') :: blanked (m.next c) cs

def pieces (cs : List Char) : List (List Char) :=
  (cs.splitOnP fun c => !continuesName c).filter fun w => !w.isEmpty

def words (cs : List Char) : List (List Char) := pieces (blanked .code cs)

def reader : Reader Mode where
  start := .code
  next := Mode.next
  isCode m := m = .code
  inWord := continuesName
  inWord_space := by decide

section Reader

variable {m : Mode} {cs ds : List Char}

theorem blanked_eq (m : Mode) (cs : List Char) : blanked m cs = reader.blanked m cs := by
  induction cs generalizing m with
  | nil => rfl
  | cons c cs ih =>
    rw [blanked, Reader.blanked, ih]
    simp [reader]

theorem words_eq (cs : List Char) : words cs = reader.words cs := by
  rw [words, blanked_eq]
  rfl

theorem words_append (hclosed : Mode.code.after cs = .code)
    (h : (cs.getLast?.all fun c => !continuesName c) = true ∨ (ds.head?.all fun c => !continuesName c) = true) :
    words (cs ++ ds) = words cs ++ words ds := by
  have hafter : reader.after reader.start cs = .code := hclosed
  rw [words_eq, words_eq, words_eq]
  exact Reader.words_append (by rw [hafter]; rfl) h

theorem next_code {c : Char} (h : continuesName c = true) : Mode.code.next c = .code := by
  have hquote : ¬(decide (c = '"') || decide (c = '\x27')) = true := by
    rw [Bool.or_eq_true, decide_eq_true_eq, decide_eq_true_eq]
    rintro (rfl | rfl)
    · exact absurd h (by decide)
    · exact absurd h (by decide)
  exact if_neg hquote

theorem words_name (hne : cs ≠ []) (h : ∀ c ∈ cs, continuesName c = true) :
    words cs = [cs] ∧ Mode.code.after cs = .code := by
  obtain ⟨hblanked, hafter⟩ := reader.read_code (P := (· = .code)) (m := reader.start)
    (fun _ hm => decide_eq_true hm) (fun _ hm c hc => hm ▸ next_code (h c hc)) rfl
  rw [words_eq, Reader.words, hblanked]
  exact ⟨Reader.pieces_eq_singleton hne h, hafter⟩

theorem quotes_literal : reader.Quotes (.literal '"') where
  opens := rfl
  isCode := rfl
  stays _ hquote hslash := (if_neg hquote).trans (if_neg hslash)
  returns _ := rfl
  hidden := rfl

end Reader

end Gondola.Native
