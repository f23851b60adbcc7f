import Gondola.Code.Braces
import Gondola.Code.Emit
import Gondola.Target
import Gondola.Text.StringLiteral

/-! Programs in JavaScript. -/
namespace Gondola.JavaScript

open Text (stringLiteral)

/-- Definitions that go before a program that needs them. -/
inductive Helper where
  | showValue | printValue
  deriving DecidableEq, Repr

def reserved : List String :=
  ["break", "case", "catch", "class", "const", "continue", "debugger", "default", "delete", "do",
    "export", "extends", "false", "finally", "function", "import", "instanceof", "new", "null",
    "super", "switch", "this", "throw", "true", "try", "typeof", "var", "void", "with", "yield",
    "let", "static", "await", "implements", "package", "protected", "interface", "private",
    "public", "arguments", "eval", "undefined", "NaN", "Infinity", "Array", "Map", "Math",
    "String", "JSON", "Symbol", "console"]

def space : Namespace := { reserved := reserved }

abbrev Code := Fragment Helper String

/-- A built-in. Only integers and strings look the same printed by the language itself. -/
def builtin (cx : Context) (n : Node) (x : Ident) (plain : Bool) : Code := do
  cx.use n x
  match Target.javascript.builtin? x.name with
  | none => return cx.names.space.ident x.name
  | some own =>
    if plain then return own
    else do
      Fragment.need .showValue
      Fragment.need .printValue
      return "$print"

def symbol (cx : Context) (n : Node) (x : Ident) : Code :=
  if cx.types.builtins.contains n.id then builtin cx n x false
  else cx.spelled n x

def operator : BinaryOp → String
  | .or => "||"
  | .and => "&&"
  | .eq => "==="
  | .ne => "!=="
  | op => op.symbol

/-- How tightly the code of an expression binds. A quotient is cut by a call. -/
def level : Expr → Precedence
  | .binary _ .div _ _ => .call
  | e => e.precedence

def binaryCode (op : BinaryOp) (lhs rhs : String) : String :=
  let code := lhs ++ " " ++ operator op ++ " " ++ rhs
  if op = .div then "Math.trunc(" ++ code ++ ")" else code

def unaryCode (op : UnaryOp) (operand : String) : String :=
  match op with
  | .neg => "-" ++ operand
  | .not => "!" ++ operand

/-- A struct is built from an object of its fields. -/
def constructCode (callee : String) (fields : List String) : String :=
  match fields with
  | [] => "new " ++ callee ++ "(" ++ braced "" ++ ")"
  | _ => "new " ++ callee ++ "(" ++ braced (" " ++ commaSeparated fields ++ " ") ++ ")"

def fieldCode (cx : Context) : Option String × Code → Code
  | (none, code) => code
  | (some label, code) => do
    let value ← code
    return cx.names.space.ident label ++ ": " ++ value

def mapCode (entries : List String) : String :=
  match entries with
  | [] => "new Map()"
  | _ => "new Map([" ++ commaSeparated entries ++ "])"

mutual
def expr (cx : Context) : Expr → Code
  | .int _ v => return toString v
  | .string _ t => return stringLiteral .hex t
  | .bool _ b => return if b then "true" else "false"
  | .symbol n x => symbol cx n x
  | .binary _ op l r => do
    let lhs ← expr cx l
    let rhs ← expr cx r
    return binaryCode op (operandCode (level l) op.precedence lhs)
      (operandCode (level r) op.precedence.next rhs)
  | .unary _ op e => do
    let operand ← expr cx e
    return unaryCode op (operandCode (level e) .call operand)
  | .call _ c as =>
    match cx.types.signatureOf? c with
    | some sig => do
      let callee ← match cx.types.builtinSymbol? c with
        | some (n, x) =>
          builtin cx n x ((sig.order (as.map Argument.labelled)).all cx.types.printsPlainly)
        | none => operandCode (level c) .call <$> expr cx c
      let args ← Fragment.sequence (sig.order (arguments cx as))
      return callCode callee args
    | none => do
      let fields ← Fragment.sequence ((arguments cx as).map (fieldCode cx))
      let callee ← expr cx c
      return constructCode (operandCode (level c) .call callee) fields
  | .list _ es => do
    let codes ← items cx es
    return "[" ++ commaSeparated codes ++ "]"
  | .map _ es => do
    let codes ← entries cx es
    return mapCode codes
  | .index _ b i => do
    let base ← expr cx b
    let place ← expr cx i
    let target := operandCode (level b) .call base
    return if cx.types.isMap b then target ++ ".get(" ++ place ++ ")"
      else target ++ "[" ++ place ++ "]"
  | .field _ b x => do
    let base ← expr cx b
    return operandCode (level b) .call base ++ "." ++ cx.names.space.ident x.name
def arguments (cx : Context) : List Argument → List (Option String × Code)
  | [] => []
  | ⟨label, value⟩ :: as => (label.map Ident.name, expr cx value) :: arguments cx as
def items (cx : Context) : List Expr → Fragment Helper (List String)
  | [] => return []
  | e :: es => do
    let code ← expr cx e
    let codes ← items cx es
    return code :: codes
def entries (cx : Context) : List (Expr × Expr) → Fragment Helper (List String)
  | [] => return []
  | (k, v) :: es => do
    let key ← expr cx k
    let value ← expr cx v
    let codes ← entries cx es
    return ("[" ++ key ++ ", " ++ value ++ "]") :: codes
end

/-- Beside the names, the number of matches written so far. -/
abbrev Emit := Gondola.Emit Nat Helper

def exprCode (types : TypeTable) (e : Expr) : Emit String :=
  Emit.render fun names => expr ⟨types, names⟩ e

def operandOf (types : TypeTable) (e : Expr) : Emit String := do
  let code ← exprCode types e
  return operandCode (level e) .call code

def matchTemp : Emit String := fun w =>
  return ("$match" ++ toString w.extra, { w with extra := w.extra + 1 })

def loopHead (vars : List String) (iterable : String) : String :=
  match vars with
  | [index, item] =>
    "for (let [" ++ index ++ ", " ++ item ++ "] of " ++ iterable ++ ".entries())"
  | _ => "for (let " ++ commaSeparated vars ++ " of " ++ iterable ++ ")"

def bindingLines (temp : String) (names : List String) : List Line :=
  match names with
  | [] => []
  | _ => [.at0 ("let [" ++ commaSeparated names ++ "] = " ++ temp ++ ".values;")]

def structLines (name display : String) (fields : List (String × String)) : List Line :=
  let spelled := fields.map Prod.snd
  let init := match spelled with
    | [] => [.at0 "constructor() \x7b\x7d"]
    | _ => blockLines ("constructor(" ++ braced (" " ++ commaSeparated spelled ++ " ") ++ ")")
        (spelled.map fun f => .at0 ("this." ++ f ++ " = " ++ f ++ ";"))
  let shown := fields.map fun (field, text) =>
    field ++ ": $" ++ braced ("$show(this." ++ text ++ ")")
  blockLines ("class " ++ name)
    (init ++ (.at0 "" ::
      blockLines "toString()"
        [.at0 ("return `" ++ display ++ "(" ++ commaSeparated shown ++ ")`;")])) ++ [.at0 ""]

/-- A class that holds a tag and values, with a static member for each case: a value if the case holds
nothing, or else a function. The cases are given with their spelling and whether they hold values. -/
def enumLines (name display : String) (cases : List (String × String × Bool)) : List Line :=
  blockLines ("class " ++ name)
    (blockLines "constructor(tag, values)" [.at0 "this.tag = tag;", .at0 "this.values = values;"] ++
      (.at0 "" ::
        blockLines "toString()"
          (blockLines "if (this.values.length === 0)"
            [.at0 ("return `" ++ display ++ ".$" ++ braced "this.tag" ++ "`;")] ++
            [.at0 ("return `" ++ display ++ ".$" ++ braced "this.tag" ++ "($" ++
              braced "this.values.map($show).join(\", \")" ++ ")`;")]))) ++
  (.at0 "" ::
    cases.map (fun (case, text, holds) =>
      let tag := stringLiteral .hex case
      if holds then
        .at0 (name ++ "." ++ text ++ " = (...values) => new " ++ name ++ "(" ++ tag ++ ", values);")
      else .at0 (name ++ "." ++ text ++ " = new " ++ name ++ "(" ++ tag ++ ", []);"))) ++
  [.at0 ""]

def structDecl (d : StructDecl) : Emit (List Line) := do
  Emit.need .showValue
  let name ← Emit.declare d.name
  let space ← Emit.space
  return structLines name d.name.name
    (d.fields.map fun f => (f.name.name, space.ident f.name.name))

def enumDecl (d : EnumDecl) : Emit (List Line) := do
  Emit.need .showValue
  let name ← Emit.declare d.name
  let space ← Emit.space
  return enumLines name d.name.name
    (d.cases.map fun c => (c.name.name, space.ident c.name.name, !c.params.isEmpty))

/-- An assignment. Entries of maps are set by a method. -/
def assignment (types : TypeTable) (target value : Expr) : Emit (List Line) := do
  let code ← exprCode types value
  match target with
  | .index _ b i =>
    if types.isMap b then
      let base ← operandOf types b
      let place ← exprCode types i
      return [.at0 (base ++ ".set(" ++ place ++ ", " ++ code ++ ");")]
    else
      let place ← exprCode types target
      return [.at0 (place ++ " = " ++ code ++ ";")]
  | _ =>
    let place ← exprCode types target
    return [.at0 (place ++ " = " ++ code ++ ";")]

mutual
def stmt (types : TypeTable) : Stmt → Emit (List Line)
  | .letVar _ x _ e => do
    let value ← exprCode types e
    let name ← Emit.declare x
    return [.at0 ("let " ++ name ++ " = " ++ value ++ ";")]
  | .assign _ t e => assignment types t e
  | .ret _ none => return [.at0 "return;"]
  | .ret _ (some e) => do
    let value ← exprCode types e
    return [.at0 ("return " ++ value ++ ";")]
  | .expr _ e => do
    let code ← exprCode types e
    return [.at0 (code ++ ";")]
  | .ifElse _ cs o => do
    let chain ← clauses types true cs
    let last ← otherwise types o
    return chain ++ last ++ [closeLine]
  | .whileLoop _ c b => do
    let cond ← exprCode types c
    let body ← Emit.inScope (block types b)
    return blockLines ("while (" ++ cond ++ ")") body
  | .forEach _ vs e b => do
    let iterable ← operandOf types e
    Emit.inScope do
      let vars ← Emit.declareAll vs.names
      let body ← block types b
      return blockLines (loopHead vars iterable) body
  | .matchOn _ e as o => do
    let temp ← matchTemp
    let scrutinee ← exprCode types e
    let chain ← arms types temp true as
    let last ← match as with
      | [] => withoutArms types o
      | _ => (· ++ [closeLine]) <$> otherwise types o
    return .at0 ("const " ++ temp ++ " = " ++ scrutinee ++ ";") :: (chain ++ last)
  | .struct _ d => structDecl d
  | .enum _ d => enumDecl d
def clauses (types : TypeTable) (first : Bool) : List Clause → Emit (List Line)
  | [] => return []
  | ⟨c, b⟩ :: cs => do
    let cond ← exprCode types c
    let body ← Emit.inScope (block types b)
    let rest ← clauses types false cs
    return openLine (chainHead first cond) :: (indented body ++ rest)
def arms (types : TypeTable) (temp : String) (first : Bool) : List Arm → Emit (List Line)
  | [] => return []
  | ⟨p, b⟩ :: as => do
    let inner ← Emit.inScope do
      let names ← Emit.declareAll p.bindings
      let body ← block types b
      return bindingLines temp names ++ body
    let rest ← arms types temp false as
    let cond := temp ++ ".tag === " ++ stringLiteral .hex p.name.name
    return openLine (chainHead first cond) :: (indented inner ++ rest)
def otherwise (types : TypeTable) : Option (List Stmt) → Emit (List Line)
  | none => return []
  | some b => do
    let body ← Emit.inScope (block types b)
    return openLine "\x7d else" :: indented body
/-- A default that follows no arm is a block of its own. -/
def withoutArms (types : TypeTable) : Option (List Stmt) → Emit (List Line)
  | none => return []
  | some b => do
    let body ← Emit.inScope (block types b)
    return .at0 "\x7b" :: (indented body ++ [closeLine])
def block (types : TypeTable) : List Stmt → Emit (List Line)
  | [] => return []
  | s :: ss => do
    let first ← stmt types s
    let rest ← block types ss
    return first ++ rest
end

def function (types : TypeTable) (f : FunctionDecl) : Emit (List Line) := do
  let name ← Emit.declare f.name
  let body ← Emit.inFunction do
    let params ← Emit.params (f.params.map Binding.name)
    let body ← block types f.body
    return blockLines ("function " ++ callCode name params) body
  return body ++ [.at0 ""]

def item (types : TypeTable) : Item → Emit (List Line)
  | .function _ f => function types f
  | .stmt s => stmt types s

def itemLines (types : TypeTable) : List Item → Emit (List Line)
  | [] => return []
  | i :: is => do
    let first ← item types i
    let rest ← itemLines types is
    return first ++ rest

def showLines : List Line :=
  blockLines "function $show(value)"
    (blockLines "if (typeof value === \"string\")" [.at0 "return JSON.stringify(value);"] ++
      blockLines "if (Array.isArray(value))"
        [.at0 ("return `[$" ++ braced "value.map($show).join(\", \")" ++ "]`;")] ++
      blockLines "if (value instanceof Map)"
        [.at0 ("const entries = Array.from(value, ([key, item]) => `$" ++ braced "$show(key)" ++
            ": $" ++ braced "$show(item)" ++ "`);"),
          .at0 ("return `" ++ braced ("$" ++ braced "entries.join(\", \")") ++ "`;")] ++
      [.at0 "return String(value);"]) ++ [.at0 ""]

def printLines : List Line :=
  blockLines "function $print(value)"
    [.at0 "console.log(typeof value === \"string\" ? value : $show(value));"] ++ [.at0 ""]

/-- The helpers that are needed, each after those that it calls. -/
def helperLines (needs : List Helper) : List Line :=
  (if needs.contains .showValue then showLines else []) ++
  (if needs.contains .printValue then printLines else [])

def lines (types : TypeTable) (p : Program) : List Line :=
  let body := Emit.run space 0 (itemLines types p.items)
  helperLines body.needs ++ body.value

def generate (types : TypeTable) (p : Program) : String := renderLines 2 (lines types p)

end Gondola.JavaScript
