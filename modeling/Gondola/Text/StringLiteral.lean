/-! String literals of the target languages. -/
namespace Gondola.Text

/-- How a control character without an escape of its own is written. Both ways have a fixed number of
digits, so that a digit after them does not join. -/
inductive ControlEscape where
  /-- A backslash, `x` and two hexadecimal digits. -/
  | hex
  /-- A backslash and three octal digits. -/
  | octal
  deriving DecidableEq, Repr

def ControlEscape.chars (style : ControlEscape) (c : Char) : List Char :=
  match style with
  | hex => ['\\', 'x', Nat.digitChar (c.toNat / 16), Nat.digitChar (c.toNat % 16)]
  | octal =>
    ['\\', Nat.digitChar (c.toNat / 64), Nat.digitChar (c.toNat / 8 % 8),
      Nat.digitChar (c.toNat % 8)]

def isControl (c : Char) : Bool := c.toNat < 32 || c.toNat == 127

def literalChar (style : ControlEscape) (c : Char) : List Char :=
  if c = '"' then ['\\', '"']
  else if c = '\\' then ['\\', '\\']
  else if c = '\n' then ['\\', 'n']
  else if c = '\r' then ['\\', 'r']
  else if c = '\t' then ['\\', 't']
  else if isControl c then style.chars c
  else [c]

def stringLiteral (style : ControlEscape) (s : String) : String :=
  String.ofList ('"' :: s.toList.flatMap (literalChar style) ++ ['"'])

end Gondola.Text
