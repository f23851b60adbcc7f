import Gondola.Parser.Stmt

/-! Reading a text as an expression or as a program. -/
namespace Gondola

namespace Parser

/-- A bound on the steps of any read from here: no read takes more steps than there are tokens left,
and a few for the end of input. -/
def bound (p : Parser) : Nat := p.scanner.rest.length + 5

/-- An expression. What follows it stays unread. -/
def expr : Parse Expr := fun p => exprWithin p.bound p

def program : Parse Program := fun p => (Program.mk <$> itemsWithin p.bound p.bound) p

end Parser

def Parse.outcome {α : Type} (read : Parse α) (source : String) :
    Except (Failure SyntaxError) α :=
  match read (.ofString source) with
  | .ok a _ => .ok a
  | .error e _ => .error e

def parseProgram (source : String) : Except (Failure SyntaxError) Program :=
  Parse.outcome Parser.program source

def parseExpr (source : String) : Except (Failure SyntaxError) Expr :=
  Parse.outcome (do
    let e ← Parser.expr
    let _ ← Parser.consume .eof
    return e) source

end Gondola
