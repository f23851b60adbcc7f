import Gondola.Code.Emit
import Gondola.Target
import Gondola.Text.StringLiteral

/-! Programs in Python. -/
namespace Gondola.Python

open Text (stringLiteral)

/-- Definitions that go before a program that needs them. -/
inductive Helper where
  | showValue | printValue | divide | remainder
  deriving DecidableEq, Repr

def reserved : List String :=
  ["False", "None", "True", "as", "assert", "async", "await", "break", "class", "continue", "def",
    "del", "except", "finally", "from", "global", "import", "is", "lambda", "nonlocal", "pass",
    "raise", "try", "with", "yield", "enumerate", "isinstance", "print", "repr", "self", "str",
    "int", "bool", "list", "dict", "len", "json"]

def space : Namespace := { reserved := reserved }

abbrev Code := Fragment Helper String

/-- A built-in. Only integers and strings look the same printed by the language itself. -/
def builtin (cx : Context) (n : Node) (x : Ident) (plain : Bool) : Code := do
  cx.use n x
  match Target.python.builtin? x.name with
  | none => return cx.names.space.ident x.name
  | some own =>
    if plain then return own
    else do
      Fragment.need .showValue
      Fragment.need .printValue
      return "venice_print_"

def symbol (cx : Context) (n : Node) (x : Ident) : Code :=
  if cx.types.builtins.contains n.id then builtin cx n x false
  else cx.spelled n x

/-- Division rounds towards zero, so it is a helper's work. -/
def helper? : BinaryOp → Option (Helper × String)
  | .div => some (.divide, "venice_div_")
  | .rem => some (.remainder, "venice_mod_")
  | _ => none

/-- How tightly the code of an expression binds. -/
def level : Expr → Precedence
  | .binary _ op _ _ => if (helper? op).isSome then .call else op.precedence
  | e => e.precedence

def unaryCode (op : UnaryOp) (operand : String) : String :=
  match op with
  | .neg => "-" ++ operand
  | .not => "not " ++ operand

/-- An argument of a call, by keyword if it has a label. -/
def argumentCode (cx : Context) : Option String × Code → Code
  | (none, code) => code
  | (some label, code) => do
    let value ← code
    return cx.names.space.ident label ++ "=" ++ value

def builtinCallee? (cx : Context) (callee : Expr) : Option ((Node × Ident) × Signature) :=
  match cx.types.builtinSymbol? callee, cx.types.signatureOf? callee with
  | some symbol, some sig => some (symbol, sig)
  | _, _ => none

mutual
def expr (cx : Context) : Expr → Code
  | .int _ v => return toString v
  | .string _ t => return stringLiteral .hex t
  | .bool _ b => return if b then "True" else "False"
  | .symbol n x => symbol cx n x
  | .binary _ op l r =>
    match helper? op with
    | some (helper, name) => do
      Fragment.need helper
      let lhs ← expr cx l
      let rhs ← expr cx r
      return callCode name [lhs, rhs]
    | none => do
      let lhs ← expr cx l
      let rhs ← expr cx r
      return operandCode (level l) op.precedence lhs ++ " " ++ op.symbol ++ " " ++
        operandCode (level r) op.precedence.next rhs
  | .unary _ op e => do
    let operand ← expr cx e
    return unaryCode op (operandCode (level e) .call operand)
  | .call _ c as =>
    match builtinCallee? cx c with
    | some ((n, x), sig) => do
      let plain := (sig.order (as.map Argument.labelled)).all cx.types.printsPlainly
      let callee ← builtin cx n x plain
      let args ← Fragment.sequence (sig.order (arguments cx as))
      return callCode callee args
    | none => do
      let args ← Fragment.sequence ((arguments cx as).map (argumentCode cx))
      let callee ← expr cx c
      return callCode (operandCode (level c) .call callee) args
  | .list _ es => do
    let codes ← items cx es
    return "[" ++ commaSeparated codes ++ "]"
  | .map _ es => do
    let codes ← entries cx es
    return braced (commaSeparated codes)
  | .index _ b i => do
    let base ← expr cx b
    let place ← expr cx i
    return operandCode (level b) .call base ++ "[" ++ place ++ "]"
  | .field _ b x => do
    let base ← expr cx b
    return operandCode (level b) .call base ++ "." ++ cx.names.space.ident x.name
def arguments (cx : Context) : List Argument → List (Option String × Code)
  | [] => []
  | ⟨label, value⟩ :: as => (label.map Ident.name, expr cx value) :: arguments cx as
def items (cx : Context) : List Expr → Fragment Helper (List String)
  | [] => return []
  | e :: es => do
    let code ← expr cx e
    let codes ← items cx es
    return code :: codes
def entries (cx : Context) : List (Expr × Expr) → Fragment Helper (List String)
  | [] => return []
  | (k, v) :: es => do
    let key ← expr cx k
    let value ← expr cx v
    let codes ← entries cx es
    return (key ++ ": " ++ value) :: codes
end

/-- Beside the names, the globals that the function being written assigns to, sorted. -/
abbrev Emit := Gondola.Emit (List String) Helper

def exprCode (types : TypeTable) (e : Expr) : Emit String :=
  Emit.render fun names => expr ⟨types, names⟩ e

def insertSorted (s : String) : List String → List String
  | [] => [s]
  | t :: ts => if s = t then t :: ts else if s < t then s :: t :: ts else t :: insertSorted s ts

/-- Notes an assignment to a global from inside of a function. -/
def noteGlobal (target : Expr) : Emit Unit :=
  match target with
  | .symbol _ x => modify fun w =>
    if w.names.isGlobalFromFunction x.name then
      { w with extra := insertSorted (w.names.spell x.name) w.extra }
    else w
  | _ => return ()

/-- The globals noted so far, which are forgotten. -/
def takeGlobals : Emit (List String) := fun w => return (w.extra, { w with extra := [] })

def pass : Line := .at0 "pass"

def loopHead (vars : List String) (iterable : String) : Line :=
  match vars with
  | [index, item] =>
    .at0 ("for " ++ index ++ ", " ++ item ++ " in enumerate(" ++ iterable ++ "):")
  | _ => .at0 ("for " ++ commaSeparated vars ++ " in " ++ iterable ++ ":")

def bindingLines (temp : String) : Nat → List String → List Line
  | _, [] => []
  | n, x :: xs =>
    .at0 (x ++ " = " ++ temp ++ ".values[" ++ toString n ++ "]") :: bindingLines temp (n + 1) xs

/-- A class built from keyword arguments, shown with its fields in the order of declaration. -/
def structLines (name display : String) (fields : List (String × String)) : List Line :=
  let spelled := fields.map Prod.snd
  let init := match spelled with
    | [] => [.at0 "def __init__(self):", ⟨1, "pass"⟩]
    | _ => .at0 ("def __init__(self, *, " ++ commaSeparated spelled ++ "):") ::
        indented (spelled.map fun f => .at0 ("self." ++ f ++ " = " ++ f))
  let shown := fields.map fun (field, text) =>
    field ++ ": " ++ braced ("venice_show_(self." ++ text ++ ")")
  .at0 ("class " ++ name ++ ":") ::
    (indented (init ++
      [.at0 "", .at0 "def __str__(self):",
        ⟨1, "return f\"" ++ display ++ "(" ++ commaSeparated shown ++ ")\""⟩]) ++ [.at0 ""])

/-- A class that holds a tag and values, with an attribute for each case: a value if the case holds
nothing, or else a function. The cases are given with their spelling and whether they hold values. -/
def enumLines (name display : String) (cases : List (String × String × Bool)) : List Line :=
  [.at0 ("class " ++ name ++ ":"),
    ⟨1, "def __init__(self, tag, *values):"⟩,
    ⟨2, "self.tag = tag"⟩,
    ⟨2, "self.values = values"⟩,
    .at0 "",
    ⟨1, "def __str__(self):"⟩,
    ⟨2, "if not self.values:"⟩,
    ⟨3, "return \"" ++ display ++ ".\" + self.tag"⟩,
    ⟨2, "values = \", \".join(venice_show_(value) for value in self.values)"⟩,
    ⟨2, "return f\"" ++ display ++ "." ++ braced "self.tag" ++ "(" ++ braced "values" ++ ")\""⟩,
    .at0 ""] ++
  cases.map (fun (case, text, holds) =>
    let tag := stringLiteral .hex case
    if holds then
      .at0 (name ++ "." ++ text ++ " = lambda *values: " ++ name ++ "(" ++ tag ++ ", *values)")
    else .at0 (name ++ "." ++ text ++ " = " ++ name ++ "(" ++ tag ++ ")")) ++
  [.at0 ""]

def structDecl (d : StructDecl) : Emit (List Line) := do
  Emit.need .showValue
  let name ← Emit.declare d.name
  let space ← Emit.space
  return structLines name d.name.name
    (d.fields.map fun f => (f.name.name, space.ident f.name.name))

def enumDecl (d : EnumDecl) : Emit (List Line) := do
  Emit.need .showValue
  let name ← Emit.declare d.name
  let space ← Emit.space
  return enumLines name d.name.name
    (d.cases.map fun c => (c.name.name, space.ident c.name.name, !c.params.isEmpty))

mutual
def stmt (types : TypeTable) : Stmt → Emit (List Line)
  | .letVar _ x _ e => do
    let value ← exprCode types e
    let name ← Emit.declare x
    return [.at0 (name ++ " = " ++ value)]
  | .assign _ t e => do
    noteGlobal t
    let target ← exprCode types t
    let value ← exprCode types e
    return [.at0 (target ++ " = " ++ value)]
  | .ret _ none => return [.at0 "return"]
  | .ret _ (some e) => do
    let value ← exprCode types e
    return [.at0 ("return " ++ value)]
  | .expr _ e => do
    let code ← exprCode types e
    return [.at0 code]
  | .ifElse _ cs o => do
    let chain ← clauses types "if" cs
    let last ← otherwise types o
    return chain ++ last
  | .whileLoop _ c b => do
    let cond ← exprCode types c
    let body ← Emit.inScope (block types b)
    return .at0 ("while " ++ cond ++ ":") :: indented body
  | .forEach _ vs e b => do
    let iterable ← exprCode types e
    Emit.inScope do
      let vars ← Emit.declareAll vs.names
      let body ← block types b
      return loopHead vars iterable :: indented body
  | .matchOn _ e as o => do
    let scrutinee ← exprCode types e
    let temp ← Emit.temp "match"
    let chain ← arms types temp "if" as
    let last ← match as with
      | [] => withoutArms types o
      | _ => otherwise types o
    return .at0 (temp ++ " = " ++ scrutinee) :: (chain ++ last)
  | .struct _ d => structDecl d
  | .enum _ d => enumDecl d
def clauses (types : TypeTable) (keyword : String) : List Clause → Emit (List Line)
  | [] => return []
  | ⟨c, b⟩ :: cs => do
    let cond ← exprCode types c
    let body ← Emit.inScope (block types b)
    let rest ← clauses types "elif" cs
    return .at0 (keyword ++ " " ++ cond ++ ":") :: (indented body ++ rest)
def arms (types : TypeTable) (temp keyword : String) : List Arm → Emit (List Line)
  | [] => return []
  | ⟨p, b⟩ :: as => do
    let inner ← Emit.inScope do
      let names ← Emit.declareAll p.bindings
      let body ← block types b
      return bindingLines temp 0 names ++ body
    let rest ← arms types temp "elif" as
    let head := keyword ++ " " ++ temp ++ ".tag == " ++ stringLiteral .hex p.name.name ++ ":"
    return .at0 head :: (indented inner ++ rest)
def otherwise (types : TypeTable) : Option (List Stmt) → Emit (List Line)
  | none => return []
  | some b => do
    let body ← Emit.inScope (block types b)
    return .at0 "else:" :: indented body
/-- A default that follows no arm is not the end of a chain. -/
def withoutArms (types : TypeTable) : Option (List Stmt) → Emit (List Line)
  | none => return []
  | some b => Emit.inScope (block types b)
/-- A block is never empty. -/
def block (types : TypeTable) : List Stmt → Emit (List Line)
  | [] => return [pass]
  | s :: ss => do
    let first ← stmt types s
    let rest ← stmts types ss
    return first ++ rest
def stmts (types : TypeTable) : List Stmt → Emit (List Line)
  | [] => return []
  | s :: ss => do
    let first ← stmt types s
    let rest ← stmts types ss
    return first ++ rest
end

/-- A function. The globals that it assigns to are declared first. -/
def function (types : TypeTable) (f : FunctionDecl) : Emit (List Line) := do
  let name ← Emit.declare f.name
  let (head, body) ← Emit.inFunction do
    let params ← Emit.params (f.params.map Binding.name)
    let body ← block types f.body
    return (Line.at0 ("def " ++ callCode name params ++ ":"), body)
  let globals ← takeGlobals
  let declared := match globals with
    | [] => []
    | _ => [Line.at0 ("global " ++ commaSeparated globals)]
  return head :: (indented (declared ++ body) ++ [.at0 ""])

def item (types : TypeTable) : Item → Emit (List Line)
  | .function _ f => function types f
  | .stmt s => stmt types s

def itemLines (types : TypeTable) : List Item → Emit (List Line)
  | [] => return []
  | i :: is => do
    let first ← item types i
    let rest ← itemLines types is
    return first ++ rest

/-- Like a block, a program is never empty. -/
def program (types : TypeTable) (p : Program) : Emit (List Line) :=
  match p.items with
  | [] => return [pass]
  | is => itemLines types is

def showLines : List Line :=
  [.at0 "import json",
    .at0 "",
    .at0 "def venice_show_(value):",
    ⟨1, "if isinstance(value, bool):"⟩,
    ⟨2, "return \"true\" if value else \"false\""⟩,
    ⟨1, "if isinstance(value, str):"⟩,
    ⟨2, "return json.dumps(value, ensure_ascii=False)"⟩,
    ⟨1, "if isinstance(value, list):"⟩,
    ⟨2, "return \"[\" + \", \".join(venice_show_(item) for item in value) + \"]\""⟩,
    ⟨1, "if isinstance(value, dict):"⟩,
    ⟨2, "entries = (venice_show_(key) + \": \" + venice_show_(item) for key, item in value.items())"⟩,
    ⟨2, "return \"\x7b\" + \", \".join(entries) + \"\x7d\""⟩,
    ⟨1, "return str(value)"⟩,
    .at0 ""]

def printLines : List Line :=
  [.at0 "def venice_print_(value):",
    ⟨1, "print(value if isinstance(value, str) else venice_show_(value))"⟩,
    .at0 ""]

def divideLines : List Line :=
  [.at0 "def venice_div_(a, b):",
    ⟨1, "q = a // b"⟩,
    ⟨1, "if q < 0 and q * b != a:"⟩,
    ⟨2, "q += 1"⟩,
    ⟨1, "return q"⟩,
    .at0 ""]

def remainderLines : List Line :=
  [.at0 "def venice_mod_(a, b):",
    ⟨1, "return a - b * venice_div_(a, b)"⟩,
    .at0 ""]

/-- The helpers that are needed, each after those that it calls. -/
def helperLines (needs : List Helper) : List Line :=
  (if needs.contains .showValue then showLines else []) ++
  (if needs.contains .printValue then printLines else []) ++
  (if needs.contains .divide || needs.contains .remainder then divideLines else []) ++
  (if needs.contains .remainder then remainderLines else [])

def lines (types : TypeTable) (p : Program) : List Line :=
  let body := Emit.run space [] (program types p)
  helperLines body.needs ++ body.value

def generate (types : TypeTable) (p : Program) : String := renderLines 4 (lines types p)

end Gondola.Python
