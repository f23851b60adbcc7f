import Gondola.Layout

/-! Blocks in braces. -/
namespace Gondola

def openLine (head : String) : Line := .at0 (head ++ " \x7b")

def closeLine : Line := .at0 "\x7d"

def blockLines (head : String) (body : List Line) : List Line :=
  openLine head :: (indented body ++ [closeLine])

/-- The head of a link in a chain of conditions. All but the first close the block before them. -/
def chainHead (first : Bool) (cond : String) : String :=
  if first then "if (" ++ cond ++ ")" else "\x7d else if (" ++ cond ++ ")"

end Gondola
