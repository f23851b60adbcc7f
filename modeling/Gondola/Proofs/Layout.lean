import Gondola.Proofs.Code.OneLine

/-! The lines of a text that was laid out. If no line has a break in it, the text has these lines and no others. -/
namespace Gondola

open Text

/-- The lines of a text without the blanks in front of them. -/
def textLines (s : String) : List (List Char) := (s.toList.splitOn '\n').map (List.dropWhile isBlank)

namespace Line

/-- The line has no break in it, and no indentation but by its depth. -/
structure Tidy (l : Line) : Prop where
  oneLine : OneLine l.text
  flush : ∀ c ∈ l.text.toList.head?, isBlank c = false

def chars (width : Nat) (l : Line) : List Char :=
  if l.text = "" then [] else List.replicate (width * l.depth) ' ' ++ l.text.toList

theorem toList_render (width : Nat) (l : Line) : (l.render width).toList = l.chars width ++ ['\n'] := by
  unfold render chars
  split
  · rfl
  · rw [String.toList_append, String.toList_append, String.toList_ofList]
    rfl

variable {l : Line}

theorem newline_not_mem_chars (h : OneLine l.text) (width : Nat) : '\n' ∉ l.chars width := by
  unfold chars
  split
  · exact List.not_mem_nil
  · intro hc
    rcases List.mem_append.mp hc with hc | hc
    · exact absurd (List.eq_of_mem_replicate hc) (by decide)
    · exact (h _ hc).1 rfl

theorem Tidy.dropWhile_chars (h : l.Tidy) (width : Nat) :
    (l.chars width).dropWhile isBlank = l.text.toList := by
  unfold chars
  split
  · rename_i htext
    rw [htext]
    rfl
  · have hspaces : ∀ c ∈ List.replicate (width * l.depth) ' ', isBlank c = true := by
      intro c hc
      rw [List.eq_of_mem_replicate hc]
      exact isBlank_space
    rw [List.dropWhile_append_of_pos hspaces]
    cases hl : l.text.toList with
    | nil => rfl
    | cons c cs =>
      have hc := h.flush c (by rw [hl]; rfl)
      exact List.dropWhile_cons_of_neg (by rw [hc]; decide)

end Line

theorem toList_renderLines_cons (width : Nat) (l : Line) (ls : List Line) :
    (renderLines width (l :: ls)).toList = l.chars width ++ '\n' :: (renderLines width ls).toList := by
  rw [renderLines, List.map_cons, String.join_cons, String.toList_append, Line.toList_render, List.append_assoc]
  rfl

theorem splitOn_renderLines {ls : List Line} (h : ∀ l ∈ ls, OneLine l.text) (width : Nat) :
    (renderLines width ls).toList.splitOn '\n' = ls.map (Line.chars width) ++ [[]] := by
  induction ls with
  | nil => rfl
  | cons l ls ih =>
    have hfirst := Line.newline_not_mem_chars (h l List.mem_cons_self) width
    have hrest := ih fun m hm => h m (List.mem_cons_of_mem _ hm)
    rw [toList_renderLines_cons, List.splitOn_append_cons_self_of_not_mem hfirst, hrest, List.map_cons, List.cons_append]

theorem textLines_renderLines {ls : List Line} (h : ∀ l ∈ ls, l.Tidy) (width : Nat) :
    textLines (renderLines width ls) = ls.map (fun l => l.text.toList) ++ [[]] := by
  rw [textLines, splitOn_renderLines (fun l hl => (h l hl).oneLine), List.map_append, List.map_map]
  congr 1
  exact List.map_congr_left fun l hl => (h l hl).dropWhile_chars width

end Gondola
