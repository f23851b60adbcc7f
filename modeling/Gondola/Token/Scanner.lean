import Gondola.Token
import Gondola.Token.Literal

/-! Scanning: one token at a time from the front of a text, with its place. A scanner can be asked
again after a failure and after the end; from then on it answers with the end of input. -/
namespace Gondola

open Text

/-- Splits off the blanks and comments at the front. The flag tells that the text starts inside a
comment, which lasts until the end of its line. -/
def splitTrivia : Bool → List Char → List Char × List Char
  | _, [] => ([], [])
  | true, c :: cs =>
    let (gap, text) := splitTrivia (c != '\n') cs
    (c :: gap, text)
  | false, '/' :: '/' :: cs =>
    let (gap, text) := splitTrivia true cs
    ('/' :: '/' :: gap, text)
  | false, c :: cs =>
    if isBlank c then
      let (gap, text) := splitTrivia false cs
      (c :: gap, text)
    else ([], c :: cs)

/-- The front of a text that holds no trivia: the characters of one token, the text it stands for,
and the characters after it. -/
structure Lexeme where
  kind : TokenKind
  chars : List Char
  text : List Char
  rest : List Char

namespace Lexeme

def plain (kind : TokenKind) (chars rest : List Char) : Lexeme := ⟨kind, chars, chars, rest⟩

def ofString? (cs : List Char) : Option Lexeme :=
  (Literal.body? cs).map fun (body, rest) =>
    ⟨.string, '"' :: body ++ ['"'], Literal.decode body, rest⟩

def ofWord (c : Char) (cs : List Char) : Lexeme :=
  let word := c :: cs.takeWhile continuesName
  let kind := match Keyword.ofWord? (String.ofList word) with
    | some k => .keyword k
    | none => .identifier
  plain kind word (cs.dropWhile continuesName)

def ofDigits (c : Char) (cs : List Char) : Lexeme :=
  plain .int (c :: cs.takeWhile isDigit) (cs.dropWhile isDigit)

def ofSymbol (c : Char) (cs : List Char) : Lexeme :=
  match Mark.ofChar? c with
  | some m => plain (.mark m) [c] cs
  | none =>
    if startsName c then ofWord c cs
    else if isDigit c then ofDigits c cs
    else plain .unknown [c] cs

/-- The longest token at the front of `c :: cs`. Fails on a string literal without an end. -/
def first? (c : Char) (cs : List Char) : Option Lexeme :=
  if c = '"' then ofString? cs
  else match cs with
    | [] => some (ofSymbol c [])
    | d :: ds =>
      match Mark.ofPair? c d with
      | some m => some (plain (.mark m) [c, d] ds)
      | none => some (ofSymbol c (d :: ds))

end Lexeme

inductive ScanError where
  | unterminatedString
  deriving DecidableEq, Repr

def ScanError.message : ScanError → String
  | unterminatedString => "unterminated string literal"

/-- A place in a text and the text after it. `done` tells that the last token was the end of input. -/
structure Scanner where
  rest : List Char
  here : Position := {}
  done : Bool := false
  deriving DecidableEq, Repr

namespace Scanner

def ofString (source : String) : Scanner := { rest := source.toList }

/-- The next token. A string literal without an end takes the rest of the text. -/
def next (s : Scanner) : Except (Located ScanError) Token × Scanner :=
  let (gap, text) := splitTrivia false s.rest
  let start := s.here.after gap
  match text with
  | [] => (.ok ⟨.eof, "", .between start start⟩, ⟨[], start, true⟩)
  | c :: cs =>
    match Lexeme.first? c cs with
    | some l =>
      let stop := start.after l.chars
      (.ok ⟨l.kind, String.ofList l.text, .between start stop⟩, ⟨l.rest, stop, false⟩)
    | none =>
      let stop := start.after (c :: cs)
      (.error ⟨.between start stop, .unterminatedString⟩, ⟨[], stop, s.done⟩)

end Scanner

end Gondola
