import Gondola.Proofs.Compile.Blocks
import Gondola.Proofs.Typing.Soundness

/-! The helpers of generated programs. A helper that is named anywhere in a program is defined in front of it, and so
are those that the helper calls. -/
namespace Gondola

namespace Script

theorem words_blank {c : Char} (hc : c ∈ [' ', '\n']) (cs : List Char) : reader.words (c :: cs) = reader.words cs := by
  have hread : ∀ c ∈ [' ', '\n'], (reader.after .code [c]).isOutside = true ∧ isApart c = true ∧
      reader.words [c] = [] := forall_mem_of_all (by decide)
  obtain ⟨hclosed, hapart, hwords⟩ := hread c hc
  have happend : reader.words ([c] ++ cs) = reader.words [c] ++ reader.words cs :=
    (read_append hclosed (.inl hapart)).1
  rwa [hwords] at happend

/-- A text has the words of its lines if no literal goes on over the end of one. -/
theorem words_renderLines {ls : List Line} (h : ∀ l ∈ ls, (reader.after .code l.text.toList).isOutside = true)
    (width : Nat) : reader.words (renderLines width ls).toList = ls.flatMap fun l => reader.words l.text.toList := by
  induction ls with
  | nil => rfl
  | cons l ls ih =>
    obtain ⟨hl, hls⟩ := List.forall_mem_cons.mp h
    have hline (rest : List Char) : reader.words (l.text.toList ++ '\n' :: rest) =
        reader.words l.text.toList ++ reader.words rest := by
      have hnewline : ('\n' :: rest).head?.all isApart = true := (by decide : isApart '\n' = true)
      rw [(read_append hl (.inr hnewline)).1, words_blank (by decide)]
    rw [toList_renderLines_cons, List.flatMap_cons, ← ih hls, ← hline]
    unfold Line.chars
    split
    · rename_i hempty
      rw [hempty]
      rfl
    · rw [List.append_assoc]
      -- The indentation goes blank by blank.
      induction width * l.depth with
      | zero => rfl
      | succ n ihn => exact (words_blank (by decide) _).trans ihn

end Script

/-- A text that consists of helpers and what is behind them. Each of the given names that is a word of it is defined by
one of the helpers. -/
structure Helped (keyword : String) (names : List String) (width : Nat) (helpers own : List Line) (text : String) :
    Prop where
  order : text = renderLines width helpers ++ renderLines width own
  defined : ∀ name ∈ names, name.toList ∈ Script.reader.words text.toList → name ∈ defined keyword helpers

theorem helped_of_says {ν : Type} {space : Namespace} {hlibrary : space.library = none} {nameOf : ν → String}
    {hspecial : ∀ h, Script.isSpecial (nameOf h).toList = true}
    {htext : ∀ (f : Form) h, IsWord f.stem → f.text space ≠ nameOf h} {keyword : String} {helpers own : List Line}
    (h : ∀ l ∈ helpers ++ own, Says (Script.dialect space hlibrary nameOf hspecial htext)
      (nameOf · ∈ defined keyword helpers) l.text) (hs : List ν) (width : Nat) :
    Helped keyword (hs.map nameOf) width helpers own (renderLines width (helpers ++ own)) := by
  constructor
  · rw [renderLines, List.map_append, String.join_append]
    rfl
  · refine List.forall_mem_map.mpr fun helper _ hname => ?_
    rw [Script.words_renderLines fun l hl => (h l hl).closed] at hname
    obtain ⟨l, hl, hin⟩ := List.mem_flatMap.mp hname
    exact (h l hl).words _ hin helper rfl

/-- Whatever a program that was read is generated to, it names no helper that is not defined in front of it. -/
theorem helped_of_parseProgram {source : String} {p : Program} (h : parseProgram source = .ok p) (T : TypeTable) :
    Helped "def " ["venice_show_", "venice_print_", "venice_div_", "venice_mod_"] Target.python.unit
        (p.helperLines T .python) (p.ownLines T .python) (p.generate T .python) ∧
      Helped "function " ["$show", "$print"] Target.javascript.unit
        (p.helperLines T .javascript) (p.ownLines T .javascript) (p.generate T .javascript) := by
  have hspell := Parser.spellable_of_parseProgram h
  rw [p.generate_eq_renderLines T .python, p.generate_eq_renderLines T .javascript]
  constructor
  · obtain ⟨hhelpers, hown⟩ := Python.says_lines (T := T) hspell
    exact helped_of_says (List.forall_mem_append.mpr ⟨hhelpers, fun l hl => (hown.lines l hl).2⟩)
      [.showValue, .printValue, .divide, .remainder] _
  · obtain ⟨hhelpers, hown⟩ := JavaScript.says_lines (T := T) hspell
    exact helped_of_says (List.forall_mem_append.mpr ⟨hhelpers, fun l hl => (hown.lines l hl).2⟩)
      [.showValue, .printValue] _

/-- A struct that is named like a helper, whose values are shown, and a remainder, which calls a helper that the
program itself does not name. -/
theorem helped_remainder :
    ∃ p T, parseProgram ("struct venice_div_ \x7b x: int \x7d fn f(n: int) \x7b " ++
        "let b = n % 2 < 1; print(b); print(\"$print\") \x7d") = .ok p ∧ p.check = .ok T ∧
      (["venice_show_", "venice_print_", "venice_div_", "venice_mod_"].map fun name => (p.ownLines T .python).any
        fun l => name.toList ∈ Script.reader.words l.text.toList) = [true, true, false, true] ∧
      Helped "def " ["venice_show_", "venice_print_", "venice_div_", "venice_mod_"] Target.python.unit
          (p.helperLines T .python) (p.ownLines T .python) (p.generate T .python) ∧
        Helped "function " ["$show", "$print"] Target.javascript.unit
          (p.helperLines T .javascript) (p.ownLines T .javascript) (p.generate T .javascript) :=
  exists_accepted (fun p T => (["venice_show_", "venice_print_", "venice_div_", "venice_mod_"].map fun name =>
      (p.ownLines T .python).any fun l => name.toList ∈ Script.reader.words l.text.toList) = [true, true, false, true])
    (by decide +kernel) fun _ T hp _ hnamed => ⟨hnamed, helped_of_parseProgram hp T⟩

end Gondola
