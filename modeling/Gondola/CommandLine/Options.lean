import Gondola.Target

/-! What the arguments of the command line ask for. -/
namespace Gondola.CommandLine

inductive Action where
  | tokenize | parse | check | compile
  deriving DecidableEq, Repr

def Action.all : List Action := [.tokenize, .parse, .check, .compile]

def Action.name : Action → String
  | tokenize => "tokenize"
  | parse => "parse"
  | check => "check"
  | compile => "compile"

inductive Setting where
  | backend | output
  deriving DecidableEq, Repr

def Setting.name : Setting → String
  | backend => "backend"
  | output => "output"

def Setting.letter : Setting → Char
  | backend => 'b'
  | output => 'o'

def Action.settings : Action → List Setting
  | compile => [.backend, .output]
  | _ => []

inductive UsageError where
  | missingCommand
  | unknownCommand (name : String)
  | unexpected (arg : String)
  | missingValue (option : String)
  | invalidValue (option value : String)
  | repeated (option : String)
  deriving DecidableEq, Repr

def UsageError.message (e : UsageError) : String :=
  "error: " ++ (match e with
    | missingCommand => "a subcommand is required"
    | unknownCommand name => "unrecognized subcommand '" ++ name ++ "'"
    | unexpected arg => "unexpected argument '" ++ arg ++ "' found"
    | missingValue option => "a value is required for '" ++ option ++ "' but none was supplied"
    | invalidValue option value => "invalid value '" ++ value ++ "' for '" ++ option ++ "'"
    | repeated option => "the argument '" ++ option ++ "' cannot be used multiple times") ++
    "\n\nFor more information, try '--help'.\n"

inductive Stop where
  /-- A request for the help of an action, or of the whole program. -/
  | help (action : Option Action)
  | usage (error : UsageError)
  deriving DecidableEq, Repr

def targetNames : List (String × Target) :=
  Target.all.map (fun t => (t.name, t)) ++ [("js", .javascript), ("c", .native)]

/-- What an action works on. Without a source it reads standard input, and without an output it writes
to standard output. -/
structure Settings where
  source : Option String := none
  target : Option Target := none
  output : Option String := none
  deriving DecidableEq, Repr

namespace Settings

def setSource (s : Settings) (path : String) : Except UsageError Settings :=
  if s.source.isSome then .error (.unexpected path)
  else if path = "" then .error (.invalidValue "source" path)
  else .ok { s with source := some path }

def set (s : Settings) (o : Setting) (value : String) : Except UsageError Settings :=
  match o with
  | .backend =>
    if s.target.isSome then .error (.repeated o.name)
    else
      match targetNames.lookup value with
      | some t => .ok { s with target := some t }
      | none => .error (.invalidValue o.name value)
  | .output =>
    if s.output.isSome then .error (.repeated o.name)
    else if value = "" then .error (.invalidValue o.name value)
    else .ok { s with output := some value }

end Settings

inductive Argument where
  /-- Everything after this is plain. -/
  | escape
  | plain (text : String)
  /-- A value may be attached to an option. -/
  | setting (option : Setting) (attached : Option String)
  deriving DecidableEq, Repr

def splitValue (cs : List Char) : String × Option String :=
  let name := String.ofList (cs.takeWhile (· ≠ '='))
  match cs.dropWhile (· ≠ '=') with
  | [] => (name, none)
  | _ :: value => (name, some (String.ofList value))

/-- The value that follows the letter of an option, with or without `=`. -/
def attachedValue : List Char → Option String
  | [] => none
  | '=' :: cs => some (String.ofList cs)
  | cs => some (String.ofList cs)

/-- Two dashes start a name, one starts a letter, and a dash alone is plain. -/
def Argument.ofString (action : Action) (arg : String) : Except Stop Argument :=
  match arg.toList with
  | ['-', '-'] => .ok .escape
  | '-' :: '-' :: cs =>
    let (name, value) := splitValue cs
    if name = "help" ∧ value = none then .error (.help action)
    else
      match action.settings.find? (·.name == name) with
      | some o => .ok (.setting o value)
      | none => .error (.usage (.unexpected arg))
  | '-' :: c :: cs =>
    if c = 'h' then .error (.help action)
    else
      match action.settings.find? (·.letter == c) with
      | some o => .ok (.setting o (attachedValue cs))
      | none => .error (.usage (.unexpected arg))
  | _ => .ok (.plain arg)

/-- Whether an argument cannot be the value of the option before it. -/
def startsOption (arg : String) : Bool :=
  match arg.toList with
  | '-' :: _ :: _ => true
  | _ => false

def usage {α : Type} (r : Except UsageError α) : Except Stop α :=
  match r with
  | .ok a => .ok a
  | .error e => .error (.usage e)

def readPlain (s : Settings) : List String → Except Stop Settings
  | [] => .ok s
  | arg :: rest => do
    let s' ← usage (s.setSource arg)
    readPlain s' rest

def readSettings (action : Action) (s : Settings) : List String → Except Stop Settings
  | [] => .ok s
  | arg :: rest =>
    match Argument.ofString action arg with
    | .error stop => .error stop
    | .ok .escape => readPlain s rest
    | .ok (.plain text) => do
      let s' ← usage (s.setSource text)
      readSettings action s' rest
    | .ok (.setting o (some value)) => do
      let s' ← usage (s.set o value)
      readSettings action s' rest
    | .ok (.setting o none) =>
      match rest with
      | [] => .error (.usage (.missingValue o.name))
      | value :: rest' =>
        if startsOption value then .error (.usage (.missingValue o.name))
        else do
          let s' ← usage (s.set o value)
          readSettings action s' rest'

def action? (name : String) : Option Action := Action.all.find? (·.name == name)

def readTopic : List String → Stop
  | [] => .help none
  | [name] =>
    match action? name with
    | some a => .help (some a)
    | none => .usage (.unknownCommand name)
  | name :: _ => .usage (.unknownCommand name)

def asksForHelp (arg : String) : Bool :=
  arg == "--help" || arg.toList.take 2 == ['-', 'h']

def readArguments : List String → Except Stop (Action × Settings)
  | [] => .error (.usage .missingCommand)
  | name :: rest =>
    match action? name with
    | some a => do
      let s ← readSettings a {} rest
      return (a, s)
    | none =>
      if name = "help" then .error (readTopic rest)
      else if asksForHelp name then .error (.help none)
      else .error (.usage (.unknownCommand name))

def Action.about : Action → String
  | tokenize => "Prints the tokens of the program"
  | parse => "Prints the syntax tree of the program"
  | check => "Type checks the program, printing its typed syntax tree"
  | compile => "Compiles the program to the selected backend"

def helpText : Option Action → String
  | none =>
    "Compiles Venice programs to Python, JavaScript or C.\n\nUsage: venice <COMMAND>\n\nCommands:\n" ++
    String.join (Action.all.map fun a =>
      "  " ++ a.name ++ String.ofList (List.replicate (10 - a.name.length) ' ') ++ a.about ++ "\n") ++
    "  help      Print this message or the help of the given subcommand(s)\n\n" ++
    "Options:\n  -h, --help  Print help\n"
  | some .compile =>
    Action.compile.about ++ "\n\nUsage: venice compile [OPTIONS] [SOURCE]\n\n" ++
    "Arguments:\n  [SOURCE]  Source file, or standard input if not provided\n\nOptions:\n" ++
    "  -b, --backend <BACKEND>  [default: python] [possible values: python, javascript, native]\n" ++
    "  -o, --output <OUTPUT>    Output file path (optional, prints to stdout if not provided)\n" ++
    "  -h, --help               Print help\n"
  | some a =>
    a.about ++ "\n\nUsage: venice " ++ a.name ++ " [SOURCE]\n\n" ++
    "Arguments:\n  [SOURCE]  Source file, or standard input if not provided\n\n" ++
    "Options:\n  -h, --help  Print help\n"

end Gondola.CommandLine
