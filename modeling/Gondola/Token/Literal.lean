/-! String literals in source: where one ends, and what it stands for. -/
namespace Gondola.Literal

/-- Splits the text after an opening quote at the closing quote, the first one that no backslash
takes. Fails if there is none. -/
def body? : List Char → Option (List Char × List Char)
  | [] => none
  | '"' :: cs => some ([], cs)
  | '\\' :: c :: cs => (body? cs).map fun (body, rest) => ('\\' :: c :: body, rest)
  | c :: cs => (body? cs).map fun (body, rest) => (c :: body, rest)

/-- What a backslash and a character stand for. An unknown pair stands for itself. -/
def escape : Char → List Char
  | '"' => ['"']
  | '\'' => ['\'']
  | '\\' => ['\\']
  | 'n' => ['\n']
  | 'r' => ['\r']
  | 't' => ['\t']
  | 'b' => ['\x08']
  | 'f' => ['\x0c']
  | 'v' => ['\x0b']
  | '0' => ['\x00']
  | c => ['\\', c]

def decode : List Char → List Char
  | [] => []
  | ['\\'] => []
  | '\\' :: c :: cs => escape c ++ decode cs
  | c :: cs => c :: decode cs

end Gondola.Literal
