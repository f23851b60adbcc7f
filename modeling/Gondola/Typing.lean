import Gondola.Typing.Stmt

/-! Checking a program. -/
namespace Gondola

def Program.check (p : Program) : Except (Failure TypeError) TypeTable :=
  match Checker.checkProgram p Checker.new with
  | .ok (_, c) => .ok c.table
  | .error e => .error e

def TypeTable.texts (t : TypeTable) (id : Nat) : Option String := (t.typeAt? id).map Ty.text

end Gondola
