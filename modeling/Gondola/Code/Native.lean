import Gondola.Code.Braces
import Gondola.Code.Emit
import Gondola.Descriptor
import Gondola.Target
import Gondola.Text.StringLiteral
import Gondola.Typing.Annotation

/-! Programs in C. Strings, lists and maps come from a library, in which containers hold words: a
value is put into a word on its way in, and read from it at its static type on its way out. Structs and
enums have no form there. What declares one stops the C compiler, and what uses one stops the
program. -/
namespace Gondola.Native

open Text (stringLiteral)

def reserved : List String :=
  ["auto", "break", "case", "char", "const", "continue", "default", "do", "double", "else", "enum",
    "extern", "float", "for", "goto", "if", "inline", "int", "long", "register", "restrict",
    "return", "short", "signed", "sizeof", "static", "struct", "switch", "typedef", "union",
    "unsigned", "void", "volatile", "while", "asm", "alignas", "alignof", "noreturn",
    "static_assert", "thread_local", "bool", "true", "false", "main", "NULL", "offsetof", "int8_t",
    "int16_t", "int32_t", "int64_t", "uint8_t", "uint16_t", "uint32_t", "uint64_t", "intptr_t",
    "uintptr_t", "intmax_t", "uintmax_t", "size_t", "ptrdiff_t", "wchar_t", "max_align_t",
    "INT64_MIN", "INT64_MAX", "UINT64_MAX", "SIZE_MAX"]

def space : Namespace := { reserved := reserved, library := some "venice_" }

/-- A name for a type of pointers to functions. -/
structure Typedef where
  name : String
  params : List String
  result : String
  deriving DecidableEq, Repr

def paramList (params : List String) : String :=
  match params with
  | [] => "void"
  | _ => commaSeparated params

def Typedef.text (t : Typedef) : String :=
  "typedef " ++ t.result ++ " (*" ++ t.name ++ ")(" ++ paramList t.params ++ ");"

def firstByName (seen : List String) : List Typedef → List Typedef
  | [] => []
  | t :: ts =>
    if seen.contains t.name then firstByName seen ts else t :: firstByName (t.name :: seen) ts

mutual
/-- What a type adds to the name of a function type. -/
def shape : Ty → String
  | .bool => "bool"
  | .int => "int"
  | .string => "string"
  | .void => "void"
  | .any => "any"
  | .list _ => "list"
  | .map .. => "map"
  | .function ps _ r => "fn_" ++ shapes ps ++ "to_" ++ shape r
  | .struct .. | .enum .. | .metatype _ => "word"
def shapes : List Ty → String
  | [] => ""
  | t :: ts => shape t ++ "_" ++ shapes ts
end

mutual
/-- The type of the values of a type. Function types need a name. -/
def cType : Ty → Fragment Typedef String
  | .bool => return "venice_bool_t"
  | .int => return "venice_int_t"
  | .string => return "venice_string_t*"
  | .void => return "void"
  | .any => return "venice_any_t"
  | .list _ => return "venice_list_t*"
  | .map .. => return "venice_map_t*"
  | .function ps ls r => do
    let params ← cTypes ps
    let result ← cType r
    let name := "venice_" ++ shape (.function ps ls r)
    Fragment.need ⟨name, params, result⟩
    return name
  | .struct .. | .enum .. | .metatype _ => return "venice_word_t"
def cTypes : List Ty → Fragment Typedef (List String)
  | [] => return []
  | t :: ts => do
    let first ← cType t
    let rest ← cTypes ts
    return first :: rest
end

abbrev Code := Fragment Typedef String

/-- The type of an expression. What was never checked could be anything. -/
def typeOf (types : TypeTable) (e : Expr) : Ty := (types.typeOf? e).getD .any

def word (code : String) : String := "VENICE_WORD(" ++ code ++ ")"

def unsupported (what : String) : String :=
  "venice_unsupported(" ++ stringLiteral .octal what ++ ")"

/-- The value of type `t` that a word holds. -/
def readWord (t : Ty) (code : String) : Code := do
  let type ← cType t
  if type = "venice_word_t" || type = "void" then return code
  else return "VENICE_FROM_WORD(" ++ type ++ ", " ++ code ++ ")"

def hasNoForm : Ty → Bool
  | .struct .. | .enum .. | .metatype _ => true
  | _ => false

/-- An expression with the given code where a value of type `wanted` has to stand, if that is known.
If nothing is known of its own type it is only a word, which is read at the type that is wanted. -/
def valueCode (types : TypeTable) (n : Node) (wanted : Option Ty) (code : Code) : Code :=
  let own := (types.typeAt? n.id).getD .any
  let plain := if hasNoForm own then return unsupported ("value of type " ++ own.text) else code
  match own, wanted with
  | .any, some t => do
    let text ← plain
    readWord t text
  | _, _ => plain

def operator : BinaryOp → String
  | .or => "||"
  | .and => "&&"
  | op => op.symbol

def unaryCode (op : UnaryOp) (operand : String) : String :=
  match op with
  | .neg => "-" ++ operand
  | .not => "!" ++ operand

def stringCode (text : String) : String :=
  callCode "venice_string_new" [stringLiteral .octal text, toString text.utf8ByteSize]

def listCode (items : List String) : String :=
  callCode "venice_list_from_varargs" (toString items.length :: items.map word)

/-- A map is told the type of its keys, since strings compare by content. The entries are words. -/
def mapCode (key : Ty) (entries : List (String × String)) : String :=
  callCode "venice_map_from_varargs"
    (("'" ++ key.keyKind.letter.toString ++ "'") :: toString entries.length ::
      entries.flatMap fun (k, v) => [word k, word v])

def ownKey (types : TypeTable) (n : Node) : Ty :=
  match types.typeAt? n.id with
  | some (.map k _) => k
  | _ => .any

def elementCode (map : Bool) (base place : String) : String :=
  if map then callCode "venice_map_get" [base, word place]
  else callCode "venice_list_index" [base, place]

/-- A call of the built-in `print`, which is told the type of its argument. -/
def printCode (name : String) (t : Ty) (arg : String) : String :=
  let value := match t with
    | .void => "(" ++ arg ++ ", " ++ unsupported "printing a void value" ++ ")"
    | _ => word arg
  callCode name [value, "\"" ++ Descriptor.text t.descriptor ++ "\""]

/-- An argument: its own type, and its code for the type that is wanted. -/
structure Operand where
  type : Ty
  code : Option Ty → Code

/-- A built-in function that is called with one argument: its symbol, what stands for it, and the
argument. -/
def printer? (types : TypeTable) (callee : Expr) (args : List Operand) :
    Option ((Node × Ident) × String × Operand) :=
  match args, types.builtinSymbol? callee with
  | [arg], some (n, x) => (Target.native.builtin? x.name).map fun name => ((n, x), name, arg)
  | _, _ => none

def coerced (args : List Operand) (params : List Ty) : List Code :=
  (args.zip params).map fun (arg, t) => arg.code (some t)

mutual
/-- The code of an expression. A map literal takes the type of its keys from the type that is
wanted. -/
def expr (cx : Context) : Expr → Option Ty → Code
  | .int n v, wanted => valueCode cx.types n wanted (return toString v)
  | .string n t, wanted => valueCode cx.types n wanted (return stringCode t)
  | .bool n b, wanted => valueCode cx.types n wanted (return if b then "true" else "false")
  | .symbol n x, wanted => valueCode cx.types n wanted <|
    if cx.types.builtins.contains n.id then
      readWord ((cx.types.typeAt? n.id).getD .any) (unsupported "print as a value")
    else cx.spelled n x
  | .binary n op l r, wanted => valueCode cx.types n wanted do
    let lhs ← expr cx l none
    let rhs ← expr cx r none
    return operandCode l.precedence op.precedence lhs ++ " " ++ operator op ++ " " ++
      operandCode r.precedence op.precedence.next rhs
  | .unary n op e, wanted => valueCode cx.types n wanted do
    let operand ← expr cx e none
    return unaryCode op (operandCode e.precedence .call operand)
  | .call n c as, wanted => valueCode cx.types n wanted <|
    match cx.types.signatureOf? c with
    | none => return unsupported "struct construction"
    | some sig =>
      let args := sig.order (arguments cx as)
      match printer? cx.types c args with
      | some ((n, x), name, arg) => do
        cx.use n x
        let value ← arg.code none
        return printCode name arg.type value
      | none => do
        let values ← Fragment.sequence (coerced args sig.params)
        let callee ← expr cx c none
        return callCode (operandCode c.precedence .call callee) values
  | .list n es, wanted => valueCode cx.types n wanted do
    let codes ← items cx es
    return listCode codes
  | .map n es, wanted =>
    match wanted with
    | some (.map k _) => mapCode k <$> entries cx es
    | _ => valueCode cx.types n wanted (mapCode (ownKey cx.types n) <$> entries cx es)
  | .index n b i, wanted => valueCode cx.types n wanted do
    let base ← expr cx b none
    let place ← expr cx i none
    readWord ((cx.types.typeAt? n.id).getD .any) (elementCode (cx.types.isMap b) base place)
  | .field n _ x, wanted => valueCode cx.types n wanted <|
    readWord ((cx.types.typeAt? n.id).getD .any) (unsupported ("field " ++ x.name))
def arguments (cx : Context) : List Argument → List (Option String × Operand)
  | [] => []
  | ⟨label, value⟩ :: as =>
    (label.map Ident.name, ⟨typeOf cx.types value, fun wanted => expr cx value wanted⟩) ::
      arguments cx as
def items (cx : Context) : List Expr → Fragment Typedef (List String)
  | [] => return []
  | e :: es => do
    let code ← expr cx e none
    let codes ← items cx es
    return code :: codes
def entries (cx : Context) : List (Expr × Expr) → Fragment Typedef (List (String × String))
  | [] => return []
  | (k, v) :: es => do
    let key ← expr cx k none
    let value ← expr cx v none
    let codes ← entries cx es
    return (key, value) :: codes
end

abbrev Emit := Gondola.Emit Unit Typedef

def exprCode (types : TypeTable) (e : Expr) : Emit String :=
  Emit.render fun names => expr ⟨types, names⟩ e none

def exprAt (types : TypeTable) (e : Expr) (t : Ty) : Emit String :=
  Emit.render fun names => expr ⟨types, names⟩ e (some t)

def typeCode (t : Ty) : Emit String := Emit.render fun _ => cType t

/-- The type of a variable: the one that is written, if it is made of known names only, or else that of
its value. -/
def variableType (types : TypeTable) (written : Option TypeExpr) (value : Expr) : Ty :=
  match written.map (TypeExpr.resolve noNames) with
  | some (.ok t) => t
  | _ => typeOf types value

def variableParts (types : TypeTable) (x : Ident) (written : Option TypeExpr) (value : Expr) :
    Emit (String × String × String) := do
  let t := variableType types written value
  let code ← exprAt types value t
  let type ← typeCode t
  let name ← Emit.declare x
  return (type, name, code)

/-- A directive that stops the C compiler. -/
def errorLine (what : String) : Line := .at0 ("#error \"" ++ what ++ "\"")

def assignment (types : TypeTable) (target value : Expr) : Emit (List Line) :=
  match target with
  | .index _ b i => do
    let base ← exprCode types b
    let place ← exprCode types i
    let code ← exprCode types value
    if types.isMap b then
      return [.at0 (callCode "venice_map_set" [base, word place, word code] ++ ";")]
    else return [.at0 (callCode "venice_list_set" [base, place, word code] ++ ";")]
  | .field _ _ x => return [.at0 (unsupported ("assignment to field " ++ x.name) ++ ";")]
  | _ => do
    let place ← exprCode types target
    let code ← exprAt types value (typeOf types target)
    return [.at0 (place ++ " = " ++ code ++ ";")]

def itemType : Ty → Ty
  | .list t => t
  | _ => .any

def loopHead (list counter : String) : String :=
  "for (venice_int_t " ++ counter ++ " = 0; " ++ counter ++ " < venice_list_length(" ++ list ++
    "); " ++ counter ++ "++)"

/-- The names that a loop binds on each round. The index is a copy of the counter, so that an
assignment to it skips no item. -/
def loopVars (vars : LoopVars) (type list counter : String) : Emit (List Line) := do
  let index ← Emit.declareAll vars.index.toList
  let item ← Emit.declare vars.item
  return index.map (fun x => .at0 ("venice_int_t " ++ x ++ " = " ++ counter ++ ";")) ++
    [.at0 (type ++ " " ++ item ++ " = VENICE_FROM_WORD(" ++ type ++ ", venice_list_index(" ++ list ++
      ", " ++ counter ++ "));")]

mutual
def stmt (types : TypeTable) (result : Ty) : Stmt → Emit (List Line)
  | .letVar _ x t e => do
    let (type, name, value) ← variableParts types x t e
    return [.at0 (type ++ " " ++ name ++ " = " ++ value ++ ";")]
  | .assign _ t e => assignment types t e
  | .ret _ none => return [.at0 "return;"]
  | .ret _ (some e) => do
    let value ← exprAt types e result
    return [.at0 ("return " ++ value ++ ";")]
  | .expr _ e => do
    let code ← exprCode types e
    return [.at0 (code ++ ";")]
  | .ifElse _ cs o => do
    let chain ← clauses types result true cs
    let last ← otherwise types result o
    return chain ++ last ++ [closeLine]
  | .whileLoop _ c b => do
    let cond ← exprCode types c
    let body ← Emit.inScope (block types result b)
    return blockLines ("while (" ++ cond ++ ")") body
  | .forEach _ vs e b => do
    let type ← typeCode (itemType (typeOf types e))
    let iterable ← exprCode types e
    let list ← Emit.temp "iter"
    let counter ← Emit.temp "index"
    let body ← Emit.inScope do
      let vars ← loopVars vs type list counter
      let rest ← block types result b
      return vars ++ rest
    return .at0 ("venice_list_t* " ++ list ++ " = " ++ iterable ++ ";") ::
      blockLines (loopHead list counter) body
  | .matchOn .. => return [.at0 (unsupported "match on enum" ++ ";")]
  | .struct _ d =>
    return [errorLine ("struct " ++ d.name.name ++ " is not supported by the native backend")]
  | .enum _ d =>
    return [errorLine ("enum " ++ d.name.name ++ " is not supported by the native backend")]
def clauses (types : TypeTable) (result : Ty) (first : Bool) : List Clause → Emit (List Line)
  | [] => return []
  | ⟨c, b⟩ :: cs => do
    let cond ← exprCode types c
    let body ← Emit.inScope (block types result b)
    let rest ← clauses types result false cs
    return openLine (chainHead first cond) :: (indented body ++ rest)
def otherwise (types : TypeTable) (result : Ty) : Option (List Stmt) → Emit (List Line)
  | none => return []
  | some b => do
    let body ← Emit.inScope (block types result b)
    return openLine "\x7d else" :: indented body
def block (types : TypeTable) (result : Ty) : List Stmt → Emit (List Line)
  | [] => return []
  | s :: ss => do
    let first ← stmt types result s
    let rest ← block types result ss
    return first ++ rest
end

structure Sections where
  prototypes : List String := []
  globals : List String := []
  functions : List Line := []
  main : List Line := []
  deriving Repr

def Sections.append (a b : Sections) : Sections where
  prototypes := a.prototypes ++ b.prototypes
  globals := a.globals ++ b.globals
  functions := a.functions ++ b.functions
  main := a.main ++ b.main

def parameters : List (Binding × Ty) → Emit (List String)
  | [] => return []
  | (p, t) :: ps => do
    let type ← typeCode t
    let name ← Emit.param p.name
    let rest ← parameters ps
    return (type ++ " " ++ name) :: rest

/-- A function. Its type gets a name even if nothing refers to it. -/
def function (types : TypeTable) (f : FunctionDecl) : Emit Sections := do
  let name ← Emit.declare f.name
  match types.function? f.name.name with
  | none => return { functions := [errorLine ("function " ++ name ++ " was not type checked")] }
  | some sig =>
    let _ ← typeCode sig.type
    Emit.inFunction do
      let result ← typeCode sig.result
      let params ← parameters (f.params.zip sig.params)
      let head := result ++ " " ++ name ++ "(" ++ paramList params ++ ")"
      let body ← block types sig.result f.body
      return { prototypes := [head ++ ";"], functions := blockLines head body ++ [.at0 ""] }

/-- An item of a program. Its variables are visible to all functions, so they are declared apart from
their first assignment. -/
def item (types : TypeTable) : Item → Emit Sections
  | .function _ f => function types f
  | .stmt (.letVar _ x t e) => do
    let (type, name, value) ← variableParts types x t e
    return { globals := ["static " ++ type ++ " " ++ name ++ ";"]
             main := [.at0 (name ++ " = " ++ value ++ ";")] }
  | .stmt s => do
    let lines ← stmt types .any s
    return { main := lines }

def sections (types : TypeTable) : List Item → Emit Sections
  | [] => return {}
  | i :: is => do
    let first ← item types i
    let rest ← sections types is
    return first.append rest

def declarations (texts : List String) : List Line :=
  match texts with
  | [] => []
  | _ => texts.map Line.at0 ++ [.at0 ""]

def lines (types : TypeTable) (p : Program) : List Line :=
  let out := Emit.run space () (sections types p.items)
  [.at0 "#include <venice.h>", .at0 ""] ++
    declarations ((firstByName [] out.needs).map Typedef.text) ++
    declarations out.value.prototypes ++
    declarations out.value.globals ++
    out.value.functions ++
    blockLines "int main(void)" (out.value.main ++ [.at0 "return 0;"])

def generate (types : TypeTable) (p : Program) : String := renderLines 4 (lines types p)

end Gondola.Native
