import Gondola.Code.JavaScript
import Gondola.Code.Native
import Gondola.Code.Python
import Gondola.Parser
import Gondola.Typing

/-! From source text to the text of a target language. -/
namespace Gondola

def Program.generate (p : Program) (types : TypeTable) : Target → String
  | .python => Python.generate types p
  | .javascript => JavaScript.generate types p
  | .native => Native.generate types p

def Program.compile (p : Program) (target : Target) : Except (Failure TypeError) String :=
  match p.check with
  | .error f => .error f
  | .ok types => .ok (p.generate types target)

/-- Checks a program and writes it for each of some targets. Without a target nothing is checked. -/
def Program.compileAll (p : Program) (targets : List Target) :
    Except (Failure TypeError) (List String) :=
  targets.mapM p.compile

inductive CompileError where
  | syntaxError (failure : Failure SyntaxError)
  | typeError (failure : Failure TypeError)
  deriving Repr

def CompileError.message : CompileError → String
  | syntaxError f => f.message "syntax" SyntaxError.message
  | typeError f => f.message "type" TypeError.message

def analyze (source : String) : Except CompileError (Program × TypeTable) :=
  match parseProgram source with
  | .error f => .error (.syntaxError f)
  | .ok p =>
    match p.check with
    | .error f => .error (.typeError f)
    | .ok types => .ok (p, types)

def compile (source : String) (target : Target) : Except CompileError String :=
  match parseProgram source with
  | .error f => .error (.syntaxError f)
  | .ok p =>
    match p.compile target with
    | .error f => .error (.typeError f)
    | .ok code => .ok code

end Gondola
