/-! The languages that programs are written in. -/
namespace Gondola

inductive Target where
  | python
  | javascript
  /-- C, with a library of its own for strings and containers. -/
  | native
  deriving DecidableEq, Repr

namespace Target

def all : List Target := [python, javascript, native]

def name : Target → String
  | python => "python"
  | javascript => "javascript"
  | native => "native"

def extension : Target → String
  | python => "py"
  | javascript => "js"
  | native => "c"

def builtin? (t : Target) (name : String) : Option String :=
  if name = "print" then
    match t with
    | python => some "print"
    | javascript => some "console.log"
    | native => some "venice_print"
  else none

end Target

end Gondola
