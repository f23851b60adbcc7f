/-! Places in a source text, and values that carry one. -/
namespace Gondola

/-- A place before a character of the source: the bytes, lines and characters passed so far. Lines and
columns count from one, and only a line feed ends a line. -/
structure Position where
  offset : Nat := 0
  line : Nat := 1
  column : Nat := 1
  deriving DecidableEq, Repr, Inhabited

def Position.step (p : Position) (c : Char) : Position :=
  if c = '\n' then ⟨p.offset + c.utf8Size, p.line + 1, 1⟩
  else ⟨p.offset + c.utf8Size, p.line, p.column + 1⟩

def Position.after (p : Position) (cs : List Char) : Position := cs.foldl Position.step p

/-- A byte range with the line and column of its first character. -/
structure Span where
  lo : Nat := 0
  len : Nat := 0
  line : Nat := 1
  column : Nat := 1
  deriving DecidableEq, Repr, Inhabited

namespace Span

/-- Lengths are kept in 32 bits and stop at the largest of them. -/
def maxLen : Nat := 4294967295

def ofBounds (lo hi line column : Nat) : Span := ⟨lo, min (hi - lo) maxLen, line, column⟩

def between (start stop : Position) : Span :=
  ofBounds start.offset stop.offset start.line start.column

def hi (s : Span) : Nat := s.lo + s.len

/-- The span from the start of `s` to the end of `t`, or to its own end if that is further. -/
def through (s t : Span) : Span := ofBounds s.lo (max t.hi s.hi) s.line s.column

/-- Both ends, as `lo..hi`. -/
def range (s : Span) : String := toString s.lo ++ ".." ++ toString s.hi

/-- The start, as `line:column`. -/
def location (s : Span) : String := toString s.line ++ ":" ++ toString s.column

def describe (s : Span) : String := "Span(" ++ s.range ++ ", at " ++ s.location ++ ")"

end Span

structure Located (α : Type) where
  span : Span
  value : α
  deriving DecidableEq, Repr

end Gondola
