import Gondola.Text.Classes
import Gondola.Text.StringLiteral
import Mathlib.Data.List.Basic
import Mathlib.Tactic.SplitIfs

/-! The words of code: names, keywords and numbers, but nothing that stands in a literal. -/
namespace Gondola

open Text

/-- Decided along the list, and not over all the characters that there are. -/
theorem forall_mem_of_all {P : Char → Prop} [DecidablePred P] {cs : List Char} (h : (cs.all fun c => P c) = true) :
    ∀ c ∈ cs, P c :=
  fun c hc => of_decide_eq_true (List.all_eq_true.mp h c hc)

/-- A way to read code character by character. Where reading has come to tells what is code and what is in a literal. -/
structure Reader (M : Type) where
  start : M
  next : M → Char → M
  isCode : M → Bool
  inWord : Char → Bool
  inWord_space : inWord ' ' = false

namespace Reader

variable {M : Type} (r : Reader M)

def after (m : M) (cs : List Char) : M := cs.foldl r.next m

/-- Code with blanks in the place of its literals. -/
def blanked : M → List Char → List Char
  | _, [] => []
  | m, c :: cs => (if r.isCode m && r.isCode (r.next m c) then c else ' ') :: blanked (r.next m c) cs

/-- What stands between characters that are in no word. -/
def pieces (cs : List Char) : List (List Char) := (cs.splitOnP fun c => !r.inWord c).filter fun w => !w.isEmpty

def words (cs : List Char) : List (List Char) := r.pieces (r.blanked r.start cs)

variable {r} {m : M} {xs ys cs ds : List Char}

theorem after_append (m : M) (cs ds : List Char) : r.after m (cs ++ ds) = r.after (r.after m cs) ds := List.foldl_append

section Pieces

theorem pieces_append_cons {c : Char} (hc : r.inWord c = false) (xs ys : List Char) :
    r.pieces (xs ++ c :: ys) = r.pieces xs ++ r.pieces ys := by
  rw [pieces, List.splitOnP_append_cons xs ys (by rw [hc]; rfl), List.filter_append]
  rfl

theorem pieces_cons {c : Char} (hc : r.inWord c = false) (ys : List Char) : r.pieces (c :: ys) = r.pieces ys :=
  pieces_append_cons hc [] ys

theorem pieces_append (h : (xs.getLast?.all fun c => !r.inWord c) = true ∨ (ys.head?.all fun c => !r.inWord c) = true) :
    r.pieces (xs ++ ys) = r.pieces xs ++ r.pieces ys := by
  -- Either way one of the two texts has a character in no word where they meet, and the pieces are cut there.
  rcases h with h | h
  · rcases List.eq_nil_or_concat' xs with rfl | ⟨xs, c, rfl⟩
    · rfl
    · have hc : r.inWord c = false := by simpa using h
      rw [List.append_assoc, List.singleton_append, pieces_append_cons hc, pieces_append_cons hc]
      exact congrArg (· ++ r.pieces ys) (List.append_nil _).symm
  · cases ys with
    | nil => rw [List.append_nil]; exact (List.append_nil _).symm
    | cons c ys =>
      have hc : r.inWord c = false := by simpa using h
      rw [pieces_append_cons hc, pieces_cons hc]

theorem pieces_eq_singleton (hne : xs ≠ []) (h : ∀ c ∈ xs, r.inWord c = true) : r.pieces xs = [xs] := by
  rw [pieces, List.splitOnP_eq_singleton fun c hc => by rw [h c hc]; rfl]
  simp [hne]

end Pieces

section Blanked

theorem blanked_append (m : M) (cs ds : List Char) :
    r.blanked m (cs ++ ds) = r.blanked m cs ++ r.blanked (r.after m cs) ds := by
  induction cs generalizing m with
  | nil => rfl
  | cons c cs ih => exact congrArg (_ :: ·) (ih (r.next m c))

theorem apart_blank {c : Char} {p : Prop} [Decidable p] (h : (!r.inWord c) = true) :
    (!r.inWord (if p then c else ' ')) = true := by
  split
  · exact h
  · rw [r.inWord_space]
    rfl

theorem head?_blanked (h : (cs.head?.all fun c => !r.inWord c) = true) :
    ((r.blanked m cs).head?.all fun c => !r.inWord c) = true := by
  cases cs with
  | nil => rfl
  | cons c cs => exact apart_blank h

theorem getLast?_blanked (h : (cs.getLast?.all fun c => !r.inWord c) = true) :
    ((r.blanked m cs).getLast?.all fun c => !r.inWord c) = true := by
  rcases List.eq_nil_or_concat' cs with rfl | ⟨cs, c, rfl⟩
  · rfl
  · rw [List.getLast?_concat] at h
    rw [blanked_append, blanked, blanked, List.getLast?_concat]
    exact apart_blank h

/-- The second text has to be read as if it stood alone. -/
theorem words_append (hread : r.blanked (r.after r.start cs) ds = r.blanked r.start ds)
    (h : (cs.getLast?.all fun c => !r.inWord c) = true ∨ (ds.head?.all fun c => !r.inWord c) = true) :
    r.words (cs ++ ds) = r.words cs ++ r.words ds := by
  rw [words, blanked_append, hread]
  exact pieces_append (h.imp getLast?_blanked head?_blanked)

theorem read_code {P : M → Prop} (hcode : ∀ m, P m → r.isCode m = true)
    (hnext : ∀ m, P m → ∀ c ∈ cs, P (r.next m c)) (hm : P m) : r.blanked m cs = cs ∧ P (r.after m cs) := by
  induction cs generalizing m with
  | nil => exact ⟨rfl, hm⟩
  | cons c cs ih =>
    have hc := hnext m hm c List.mem_cons_self
    obtain ⟨hblanked, hafter⟩ := ih (fun m hm d hd => hnext m hm d (List.mem_cons_of_mem _ hd)) hc
    rw [blanked, hcode _ hm, hcode _ hc, hblanked]
    exact ⟨rfl, hafter⟩

theorem head?_hidden (hm : r.isCode m = false) (cs : List Char) :
    ((r.blanked m cs).head?.all fun c => !r.inWord c) = true := by
  cases cs with
  | nil => rfl
  | cons c cs =>
    rw [blanked, hm]
    simp [r.inWord_space]

theorem pieces_append_hidden {ds : List Char} (hm : r.isCode m = false) (hcs : r.after m cs = m) :
    r.pieces (r.blanked m (cs ++ ds)) = r.pieces (r.blanked m cs) ++ r.pieces (r.blanked m ds) := by
  rw [blanked_append, hcs]
  exact pieces_append (.inr (head?_hidden hm ds))

/-- A text that starts with code, goes on in a literal and ends with the quote of it. -/
theorem words_literal (hopen : r.after r.start cs = m) (hm : r.isCode m = false) (hds : r.after m ds = m) (c : Char) :
    r.words (cs ++ (ds ++ [c])) = r.words cs ++ r.pieces (r.blanked m ds) ∧
      r.after r.start (cs ++ (ds ++ [c])) = r.next m c := by
  have hquote : r.pieces (r.blanked m [c]) = [] := by
    rw [blanked, hm]
    exact (pieces_cons r.inWord_space []).trans rfl
  constructor
  · rw [words, blanked_append, hopen, pieces_append (.inr (head?_hidden hm _)), pieces_append_hidden hm hds, hquote,
      List.append_nil]
    rfl
  · rw [after_append, hopen, after_append, hds]
    rfl

end Blanked

end Reader

/-- Text that can stand between quotes: each quote and each backslash is behind a backslash. -/
inductive Escaped : List Char → Prop
  | nil : Escaped []
  | char {c cs} (hquote : c ≠ '"') (hslash : c ≠ '\\') (h : Escaped cs) : Escaped (c :: cs)
  | escape (c) {cs} (h : Escaped cs) : Escaped ('\\' :: c :: cs)

section Escaped

variable {cs ds : List Char}

theorem Escaped.append (h : Escaped cs) (h' : Escaped ds) : Escaped (cs ++ ds) := by
  induction h with
  | nil => exact h'
  | char hquote hslash _ ih => exact .char hquote hslash ih
  | escape c _ ih => exact .escape c ih

theorem escaped_of_ne (h : ∀ c ∈ cs, c ≠ '"' ∧ c ≠ '\\') : Escaped cs := by
  induction cs with
  | nil => exact .nil
  | cons c cs ih =>
    obtain ⟨hc, hcs⟩ := List.forall_mem_cons.mp h
    exact .char hc.1 hc.2 (ih hcs)

theorem digitChar_ne_quote : ∀ n < 16, Nat.digitChar n ≠ '"' ∧ Nat.digitChar n ≠ '\\' := by decide

theorem escaped_chars (style : ControlEscape) {c : Char} (hc : isControl c = true) : Escaped (style.chars c) := by
  have hle : c.toNat ≤ 127 := by
    simp only [isControl, Bool.or_eq_true, decide_eq_true_eq, beq_iff_eq] at hc
    omega
  cases style with
  | hex =>
    refine .escape 'x' (escaped_of_ne ?_)
    simp only [List.forall_mem_cons]
    exact ⟨digitChar_ne_quote _ (by omega), digitChar_ne_quote _ (by omega), List.forall_mem_nil _⟩
  | octal =>
    refine .escape _ (escaped_of_ne ?_)
    simp only [List.forall_mem_cons]
    exact ⟨digitChar_ne_quote _ (by omega), digitChar_ne_quote _ (by omega), List.forall_mem_nil _⟩

theorem escaped_literalChar (style : ControlEscape) (c : Char) : Escaped (literalChar style c) := by
  unfold literalChar
  -- Five characters have an escape of their own, and other control characters are written by their number.
  split_ifs with hquote hslash hn hr ht hcontrol
  · exact .escape _ .nil
  · exact .escape _ .nil
  · exact .escape _ .nil
  · exact .escape _ .nil
  · exact .escape _ .nil
  · exact escaped_chars style hcontrol
  · exact .char hquote hslash .nil

theorem escaped_flatMap (style : ControlEscape) (cs : List Char) : Escaped (cs.flatMap (literalChar style)) := by
  induction cs with
  | nil => exact .nil
  | cons c cs ih => exact (escaped_literalChar style c).append ih

namespace Reader

variable {M : Type} {r : Reader M} {m : M}

/-- A place between quotes, where only a quote that has no backslash before it ends the literal. -/
structure Quotes (r : Reader M) (m : M) : Prop where
  opens : r.next r.start '"' = m
  isCode : r.isCode m = false
  stays : ∀ c, c ≠ '"' → c ≠ '\\' → r.next m c = m
  returns : ∀ c, r.next (r.next m '\\') c = m
  hidden : r.isCode (r.next m '\\') = false

theorem Quotes.read (hm : r.Quotes m) (h : Escaped cs) : r.after m cs = m ∧ r.pieces (r.blanked m cs) = [] := by
  induction h with
  | nil => exact ⟨rfl, rfl⟩
  | char hquote hslash _ ih =>
    have hnext := hm.stays _ hquote hslash
    rw [after, List.foldl_cons, ← after, blanked, hnext, hm.isCode, if_neg (by simp), pieces_cons r.inWord_space]
    exact ih
  | escape c _ ih =>
    rw [after, List.foldl_cons, List.foldl_cons, ← after, blanked, blanked, hm.returns c, hm.hidden, hm.isCode,
      if_neg (by simp), if_neg (by simp), pieces_cons r.inWord_space, pieces_cons r.inWord_space]
    exact ih

theorem Quotes.words (hm : r.Quotes m) (h : Escaped cs) :
    r.words ('"' :: (cs ++ ['"'])) = [] ∧ r.after r.start ('"' :: (cs ++ ['"'])) = r.next m '"' := by
  obtain ⟨hafter, hpieces⟩ := hm.read h
  have hfirst : r.words ['"'] = [] := by
    rw [Reader.words, blanked, hm.opens, hm.isCode, Bool.and_false, if_neg (by simp), pieces_cons r.inWord_space]
    rfl
  have hopen : r.after r.start ['"'] = m := hm.opens
  obtain ⟨hwords, hend⟩ := words_literal hopen hm.isCode hafter '"'
  rw [hfirst, hpieces] at hwords
  exact ⟨hwords, hend⟩

end Reader

end Escaped

end Gondola
