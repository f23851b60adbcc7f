/-! Operators and how strongly they bind. -/
namespace Gondola

/-- Binding strength, loosest first. -/
inductive Precedence where
  | lowest | or | and | comparison | sum | product | unary | call | atom
  deriving DecidableEq, Repr

namespace Precedence

def rank : Precedence → Nat
  | lowest => 0 | or => 1 | and => 2 | comparison => 3 | sum => 4 | product => 5 | unary => 6
  | call => 7 | atom => 8

instance : LT Precedence := ⟨fun a b => a.rank < b.rank⟩

instance (a b : Precedence) : Decidable (a < b) := inferInstanceAs (Decidable (a.rank < b.rank))

/-- The next tighter level. Nothing binds tighter than an atom. -/
def next : Precedence → Precedence
  | lowest => or | or => and | and => comparison | comparison => sum | sum => product
  | product => unary | unary => call | call => atom | atom => atom

def name : Precedence → String
  | lowest => "Lowest" | or => "Or" | and => "And" | comparison => "Comparison" | sum => "Sum"
  | product => "Product" | unary => "Prefix" | call => "Call" | atom => "Atom"

def all : List Precedence := [lowest, or, and, comparison, sum, product, unary, call, atom]

end Precedence

inductive BinaryOp where
  | or | and | eq | ne | lt | le | gt | ge | add | sub | mul | div | rem
  deriving DecidableEq, Repr

namespace BinaryOp

def precedence : BinaryOp → Precedence
  | or => .or
  | and => .and
  | eq | ne | lt | le | gt | ge => .comparison
  | add | sub => .sum
  | mul | div | rem => .product

def isComparison (op : BinaryOp) : Bool := op.precedence == .comparison

def isLogical : BinaryOp → Bool
  | or | and => true
  | _ => false

def symbol : BinaryOp → String
  | or => "or" | and => "and" | eq => "==" | ne => "!=" | lt => "<" | le => "<=" | gt => ">"
  | ge => ">=" | add => "+" | sub => "-" | mul => "*" | div => "/" | rem => "%"

def name : BinaryOp → String
  | or => "Or" | and => "And" | eq => "Eq" | ne => "Ne" | lt => "Lt" | le => "Le" | gt => "Gt"
  | ge => "Ge" | add => "Add" | sub => "Sub" | mul => "Mul" | div => "Div" | rem => "Rem"

def all : List BinaryOp := [or, and, eq, ne, lt, le, gt, ge, add, sub, mul, div, rem]

end BinaryOp

inductive UnaryOp where
  | neg | not
  deriving DecidableEq, Repr

def UnaryOp.name : UnaryOp → String
  | neg => "Neg"
  | not => "Not"

end Gondola
