/-! Text laid out in lines, each with its own depth. -/
namespace Gondola

/-- One line of output. The depth counts units of indentation. -/
structure Line where
  depth : Nat
  text : String
  deriving DecidableEq, Repr

namespace Line

def at0 (text : String) : Line := ⟨0, text⟩

def deepen (l : Line) : Line := ⟨l.depth + 1, l.text⟩

/-- An empty line carries no indentation. -/
def render (width : Nat) (l : Line) : String :=
  if l.text = "" then "\n" else String.ofList (List.replicate (width * l.depth) ' ') ++ l.text ++ "\n"

end Line

def commaSeparated (texts : List String) : String := ", ".intercalate texts

def indented (ls : List Line) : List Line := ls.map Line.deepen

def renderLines (width : Nat) (ls : List Line) : String := String.join (ls.map (Line.render width))

end Gondola
