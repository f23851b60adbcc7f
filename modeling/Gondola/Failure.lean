import Gondola.Span

/-! Why a stage gives no result: the source is at fault at some place, or the stage itself is. -/
namespace Gondola

/-- States that no source leads to. -/
inductive Fault where
  /-- A token was put back while another one waited. -/
  | pendingToken
  /-- A token that is no operator was asked to extend an expression. -/
  | notAnOperator
  /-- Reading went on for longer than the text is. -/
  | endless
  /-- A scope was used after it was left. -/
  | missingScope
  /-- A parameter was addressed past the last one. -/
  | missingParameter
  deriving DecidableEq, Repr

def Fault.message : Fault → String
  | pendingToken => "pushed back a token while another one was pending"
  | notAnOperator => "led called for a non-infix token"
  | endless => "reading did not end"
  | missingScope => "scope is no longer open"
  | missingParameter => "parameter out of range"

inductive Failure (ε : Type) where
  | rejected (error : Located ε)
  | internal (fault : Fault)
  deriving DecidableEq, Repr

/-- The text of a failure. `stage` names what went wrong, `describe` says how. -/
def Failure.message {ε : Type} (stage : String) (describe : ε → String) : Failure ε → String
  | rejected e => stage ++ " error at " ++ e.span.location ++ ": " ++ describe e.value
  | internal f => "internal error: " ++ f.message

end Gondola
