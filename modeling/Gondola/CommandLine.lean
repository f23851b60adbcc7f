import Gondola.CommandLine.Options
import Gondola.Compile
import Gondola.Files
import Gondola.Program.Outline
import Gondola.Token.Stream

/-! The command line as a function of its arguments and of the files that it may read and write. -/
namespace Gondola.CommandLine

/-- The surroundings of a run. Files are named by their paths, and an error is a text of the
system's. -/
structure Host (m : Type → Type) where
  standardInput : m ByteArray
  readFile : String → m (Except String ByteArray)
  writeFile : String → String → m (Except String Unit)

structure Outcome where
  exit : Nat
  stdout : String := ""
  stderr : String := ""
  deriving DecidableEq, Repr

def Outcome.success (stdout : String) : Outcome := { exit := 0, stdout := stdout }

def Outcome.failure (message : String) : Outcome :=
  { exit := 1, stderr := "Error: " ++ message ++ "\n" }

def causedBy (message cause : String) : String := message ++ "\n\nCaused by:\n    " ++ cause

def notText : String := "stream did not contain valid UTF-8"

def readSource {m : Type → Type} [Monad m] (host : Host m) (path : Option String) :
    m (Except String String) := do
  match path with
  | none =>
    let bytes ← host.standardInput
    match String.fromUTF8? bytes with
    | some text => return .ok text
    | none => return .error notText
  | some path =>
    let failed := causedBy ("reading " ++ path)
    match ← host.readFile path with
    | .error cause => return .error (failed cause)
    | .ok bytes =>
      match String.fromUTF8? bytes with
      | some text => return .ok text
      | none => return .error (failed notText)

def Action.result (a : Action) (target : Target) (source : String) : Except String String :=
  match a with
  | tokenize =>
    match Gondola.tokenize source with
    | .error e => .error (Failure.message "syntax" ScanError.message (.rejected e))
    | .ok tokens => .ok (String.join (tokens.map fun t => t.describe ++ "\n"))
  | parse =>
    match parseProgram source with
    | .error f => .error (CompileError.message (.syntaxError f))
    | .ok p => .ok (p.outline noTypes)
  | check =>
    match analyze source with
    | .error e => .error e.message
    | .ok (p, types) => .ok (p.outline types.texts)
  | compile =>
    match Gondola.compile source target with
    | .error e => .error e.message
    | .ok code => .ok code

def deliver {m : Type → Type} [Monad m] (host : Host m) (output : Option String) (text : String) :
    m Outcome := do
  match output with
  | none => return .success text
  | some path =>
    match ← host.writeFile path text with
    | .ok () => return .success ""
    | .error cause => return .failure (causedBy ("writing " ++ path) cause)

def perform {m : Type → Type} [Monad m] (host : Host m) (a : Action) (s : Settings) : m Outcome := do
  match ← readSource host s.source with
  | .error message => return .failure message
  | .ok source =>
    match a.result (s.target.getD .python) source with
    | .error message => return .failure message
    | .ok text => deliver host s.output text

/-- Runs the program. Nothing is read before all arguments are understood. -/
def run {m : Type → Type} [Monad m] (host : Host m) (args : List String) : m Outcome :=
  match readArguments args with
  | .error (.help topic) => return .success (helpText topic)
  | .error (.usage e) => return { exit := 2, stderr := e.message }
  | .ok (a, s) => perform host a s

/-- A machine that is held in memory. Texts that are written to the standard streams are kept apart
from those that a run prints. -/
structure Machine where
  files : Files := {}
  stdin : ByteArray := ByteArray.empty
  stdout : String := ""
  stderr : String := ""

namespace Machine

def read (s : Machine) (path : String) : Except SystemError ByteArray := do
  match ← s.files.openToRead path with
  | .file text => return text.toUTF8
  | .device .input => return s.stdin
  | _ => return ByteArray.empty

def write (s : Machine) (path text : String) : Except SystemError Machine := do
  match ← s.files.openToWrite path with
  | .file place => return { s with files := s.files.insert place text }
  | .device .output => return { s with stdout := s.stdout ++ text }
  | .device .errors => return { s with stderr := s.stderr ++ text }
  | .device _ => return s

def host : Host (StateM Machine) where
  standardInput := do
    let s ← get
    return s.stdin
  readFile path := do
    match (← get).read path with
    | .ok bytes => return .ok bytes
    | .error e => return .error e.message
  writeFile path text := do
    match (← get).write path text with
    | .ok s =>
      set s
      return .ok ()
    | .error e => return .error e.message

end Machine

def runOn (s : Machine) (args : List String) : Outcome × Files :=
  let (outcome, s') := run Machine.host args s
  ({ outcome with
      stdout := s'.stdout ++ outcome.stdout
      stderr := s'.stderr ++ outcome.stderr }, s'.files)

end Gondola.CommandLine
