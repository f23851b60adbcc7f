import Gondola.Failure
import Gondola.Program
import Gondola.Token.Scanner

/-! The state of a parser, and its steps: taking a token, putting one back, and failing at one. A
failed step leaves the parser where it stands, so that reading can go on from there. -/
namespace Gondola

inductive Expected where
  | token (kind : TokenKind)
  | expression
  | matchArm
  deriving DecidableEq, Repr

def Expected.describe : Expected → String
  | token k => k.describe
  | expression => "expression"
  | matchArm => "`case`, `default` or `\x7d`"

inductive SyntaxError where
  | unexpected (expected : Expected) (actual : TokenKind) (text : String)
  | prematureEnd (expected : Expected)
  | invalidTarget
  | intOutOfRange (text : String)
  | nestedFunction
  | scan (error : ScanError)
  deriving DecidableEq, Repr

namespace SyntaxError

/-- A token in a message. Open classes show the text too. -/
def describeToken (kind : TokenKind) (text : String) : String :=
  match kind with
  | .identifier | .int | .unknown => kind.describe ++ " `" ++ text ++ "`"
  | _ => kind.describe

def message : SyntaxError → String
  | unexpected e k t => "expected " ++ e.describe ++ ", but got " ++ describeToken k t
  | prematureEnd e => "premature end of input, expected " ++ e.describe
  | invalidTarget => "invalid assignment target"
  | intOutOfRange t => "integer literal " ++ t ++ " is out of range"
  | nestedFunction => "functions may only be declared at the top level"
  | scan e => e.message

end SyntaxError

/-- A scanner, a token put back before its text, and the number of the next expression. -/
structure Parser where
  scanner : Scanner
  held : Option Token := none
  nextId : Nat := 0
  deriving DecidableEq, Repr

/-- A step of reading. It changes the parser whether it succeeds or fails. -/
abbrev Parse := EStateM (Failure SyntaxError) Parser

namespace Parser

def ofString (source : String) : Parser := { scanner := .ofString source }

def fail {α : Type} (span : Span) (e : SyntaxError) : Parse α := throw (.rejected ⟨span, e⟩)

/-- Gives up on a read that took more steps than the text allows. -/
def endless {α : Type} : Parse α := throw (.internal .endless)

/-- The token put back, if there is one, or else the next one of the text. -/
def advance : Parse Token := fun p =>
  match p.held with
  | some t => .ok t { p with held := none }
  | none =>
    match p.scanner.next with
    | (.ok t, s) => .ok t { p with scanner := s }
    | (.error e, s) => .error (.rejected ⟨e.span, .scan e.value⟩) { p with scanner := s }

def pushBack (t : Token) : Parse Unit := fun p =>
  match p.held with
  | some _ => .error (.internal .pendingToken) p
  | none => .ok () { p with held := some t }

def unexpected {α : Type} (t : Token) (e : Expected) : Parse α :=
  if t.kind = .eof then fail t.span (.prematureEnd e)
  else fail t.span (.unexpected e t.kind t.text)

def takeAny (kinds : List TokenKind) : Parse (Option Token) := do
  let t ← advance
  if t.kind ∈ kinds then
    return some t
  else
    pushBack t
    return none

def take (kind : TokenKind) : Parse (Option Token) := takeAny [kind]

def consume (kind : TokenKind) : Parse Token := do
  let t ← advance
  if t.kind = kind then return t else unexpected t (.token kind)

def ident : Parse Ident := do
  let t ← consume .identifier
  return ⟨t.text, t.span⟩

def node (span : Span) : Parse Node := fun p =>
  .ok ⟨p.nextId, span⟩ { p with nextId := p.nextId + 1 }

/-- Items between commas up to a closing token. The last item may have a comma too. -/
def listOf {α : Type} (close : TokenKind) (item : Parse α) : Nat → Parse (List α × Token)
  | 0 => endless
  | n + 1 => do
    match ← take close with
    | some t => return ([], t)
    | none =>
      let a ← item
      match ← take close with
      | some t => return ([a], t)
      | none =>
        let _ ← consume (.mark .comma)
        let (as, t) ← listOf close item n
        return (a :: as, t)

end Parser

end Gondola
