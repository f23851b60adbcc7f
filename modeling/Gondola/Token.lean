import Gondola.Span
import Gondola.Text.Quoted

/-! Tokens: the words and marks of the language, the open classes of names and literals, and what a
scanner makes of a character that starts none of them. -/
namespace Gondola

inductive Keyword where
  | fnKw | structKw | enumKw | letKw | returnKw | ifKw | elifKw | elseKw | whileKw | forKw | inKw
  | matchKw | caseKw | defaultKw | trueKw | falseKw | notKw | andKw | orKw
  deriving DecidableEq, Repr

namespace Keyword

def spelling : Keyword → String
  | fnKw => "fn" | structKw => "struct" | enumKw => "enum" | letKw => "let"
  | returnKw => "return" | ifKw => "if" | elifKw => "elif" | elseKw => "else"
  | whileKw => "while" | forKw => "for" | inKw => "in" | matchKw => "match"
  | caseKw => "case" | defaultKw => "default" | trueKw => "true" | falseKw => "false"
  | notKw => "not" | andKw => "and" | orKw => "or"

def name : Keyword → String
  | fnKw => "Fn" | structKw => "Struct" | enumKw => "Enum" | letKw => "Let"
  | returnKw => "Return" | ifKw => "If" | elifKw => "Elif" | elseKw => "Else"
  | whileKw => "While" | forKw => "For" | inKw => "In" | matchKw => "Match"
  | caseKw => "Case" | defaultKw => "Default" | trueKw => "True" | falseKw => "False"
  | notKw => "Not" | andKw => "And" | orKw => "Or"

def all : List Keyword :=
  [fnKw, structKw, enumKw, letKw, returnKw, ifKw, elifKw, elseKw, whileKw, forKw, inKw,
    matchKw, caseKw, defaultKw, trueKw, falseKw, notKw, andKw, orKw]

/-- The words that are not identifiers. Functions have a second, longer word. -/
def words : List (String × Keyword) := all.map (fun k => (k.spelling, k)) ++ [("func", fnKw)]

def ofWord? (s : String) : Option Keyword := words.lookup s

end Keyword

inductive Mark where
  | lparen | rparen | lbrace | rbrace | lbracket | rbracket
  | comma | colon | semicolon | dot
  | plus | minus | star | slash | percent
  | assign | eqEq | notEq | less | lessEq | greater | greaterEq | arrow
  deriving DecidableEq, Repr

namespace Mark

def spelling : Mark → String
  | lparen => "(" | rparen => ")" | lbrace => "\x7b" | rbrace => "\x7d"
  | lbracket => "[" | rbracket => "]" | comma => "," | colon => ":" | semicolon => ";"
  | dot => "." | plus => "+" | minus => "-" | star => "*" | slash => "/" | percent => "%"
  | assign => "=" | eqEq => "==" | notEq => "!=" | less => "<" | lessEq => "<="
  | greater => ">" | greaterEq => ">=" | arrow => "->"

def name : Mark → String
  | lparen => "LParen" | rparen => "RParen" | lbrace => "LBrace" | rbrace => "RBrace"
  | lbracket => "LBracket" | rbracket => "RBracket" | comma => "Comma" | colon => "Colon"
  | semicolon => "Semicolon" | dot => "Dot" | plus => "Plus" | minus => "Minus" | star => "Star"
  | slash => "Slash" | percent => "Percent" | assign => "Assign" | eqEq => "EqEq"
  | notEq => "NotEq" | less => "Less" | lessEq => "LessEq" | greater => "Greater"
  | greaterEq => "GreaterEq" | arrow => "Arrow"

def all : List Mark :=
  [lparen, rparen, lbrace, rbrace, lbracket, rbracket, comma, colon, semicolon, dot, plus, minus,
    star, slash, percent, assign, eqEq, notEq, less, lessEq, greater, greaterEq, arrow]

def ofChar? : Char → Option Mark
  | '(' => some lparen | ')' => some rparen | '\x7b' => some lbrace | '\x7d' => some rbrace
  | '[' => some lbracket | ']' => some rbracket | ',' => some comma | ':' => some colon
  | ';' => some semicolon | '.' => some dot | '+' => some plus | '-' => some minus
  | '*' => some star | '/' => some slash | '%' => some percent | '=' => some assign
  | '<' => some less | '>' => some greater | _ => none

def ofPair? : Char → Char → Option Mark
  | '=', '=' => some eqEq | '!', '=' => some notEq | '<', '=' => some lessEq
  | '>', '=' => some greaterEq | '-', '>' => some arrow | _, _ => none

end Mark

inductive TokenKind where
  | keyword (word : Keyword)
  | mark (mark : Mark)
  | identifier
  | int
  | string
  /-- A character that starts no token. Scanning goes on past it; reading a program does not. -/
  | unknown
  | eof
  deriving DecidableEq, Repr

namespace TokenKind

def isKeyword : TokenKind → Bool
  | keyword _ => true
  | _ => false

def lexeme? : TokenKind → Option String
  | keyword w => some w.spelling
  | mark m => some m.spelling
  | _ => none

def name : TokenKind → String
  | keyword w => w.name
  | mark m => m.name
  | identifier => "Identifier"
  | int => "Int"
  | string => "String"
  | unknown => "Unknown"
  | eof => "Eof"

def all : List TokenKind :=
  Keyword.all.map keyword ++ Mark.all.map mark ++ [identifier, int, string, unknown, eof]

def describe : TokenKind → String
  | keyword w => "keyword `" ++ w.spelling ++ "`"
  | mark m => "`" ++ m.spelling ++ "`"
  | identifier => "identifier"
  | int => "integer literal"
  | string => "string literal"
  | unknown => "unknown character"
  | eof => "end of input"

end TokenKind

/-- For string literals the text is what the literal stands for; for all else it is the source. -/
structure Token where
  kind : TokenKind
  text : String
  span : Span
  deriving DecidableEq, Repr

def Token.describe (t : Token) : String :=
  "Token(" ++ t.kind.name ++ ", " ++ Text.quoted t.text ++ ", " ++ t.span.range ++ ")"

end Gondola
