/-! Files by path. A path is walked part by part, from the root or from the working directory, and
what is wrong with it shows at the first part that does not lead on. -/
namespace Gondola

inductive SystemError where
  | noSuchFile
  | notDirectory
  | isDirectory
  | nameTooLong
  deriving DecidableEq, Repr

def SystemError.message : SystemError → String
  | noSuchFile => "No such file or directory (os error 2)"
  | notDirectory => "Not a directory (os error 20)"
  | isDirectory => "Is a directory (os error 21)"
  | nameTooLong => "File name too long (os error 36)"

/-- The parts of a path between its slashes. A slash at the end asks for a directory. -/
structure Path where
  absolute : Bool
  parts : List String
  slash : Bool
  deriving DecidableEq, Repr

namespace Path

def split : List Char → List (List Char)
  | [] => [[]]
  | c :: cs =>
    if c = '/' then [] :: split cs
    else
      match split cs with
      | [] => [[c]]
      | part :: parts => (c :: part) :: parts

def ofString (s : String) : Path where
  absolute := s.toList.head? == some '/'
  parts := ((split s.toList).map String.ofList).filter (· != "")
  slash := s.toList.getLast? == some '/'

def maxBytes : Nat := 4095

def maxPartBytes : Nat := 255

end Path

/-- Files that keep nothing: the one that is always empty, and the standard streams. -/
inductive Device where
  | null | input | output | errors
  deriving DecidableEq, Repr

/-- What stands at a position, which is given by the names that lead to it from the root. -/
inductive Entry where
  | directory
  | file (text : String)
  | device (device : Device)
  deriving DecidableEq, Repr

/-- The texts of the files that a run knows of, by position. -/
structure Files where
  texts : List (List String × String) := []
  deriving Repr

namespace Files

/-- Where relative paths start. A run does not know the name of its working directory, so that is a
name that no path can spell. -/
def workDir : List String := ["tmp", ""]

def rootNames : List String :=
  ["bin", "boot", "dev", "etc", "home", "lib", "media", "mnt", "opt", "proc", "root", "run",
    "sbin", "srv", "sys", "tmp", "usr", "var"]

def devices : List (List String × Device) :=
  [(["dev", "null"], .null), (["dev", "stdin"], .input), (["dev", "stdout"], .output),
    (["dev", "stderr"], .errors)]

/-- The directories are those under the root, and those that lead to the working directory or to a
file. -/
def isDirectory (f : Files) (place : List String) : Bool :=
  place.isPrefixOf workDir || rootNames.any (fun n => place == [n]) ||
    f.texts.any (fun e => place.isPrefixOf e.1)

def entry? (f : Files) (place : List String) : Option Entry :=
  match f.texts.lookup place with
  | some text => some (.file text)
  | none =>
    match devices.lookup place with
    | some d => some (.device d)
    | none => if f.isDirectory place then some .directory else none

/-- The position that a part leads to from a directory. The root is its own parent. -/
def follow (f : Files) (dir : List String) (part : String) : Except SystemError (List String) :=
  if part = "." then .ok dir
  else if part = ".." then .ok dir.dropLast
  else if Path.maxPartBytes < part.utf8ByteSize then .error .nameTooLong
  else if (f.entry? (dir ++ [part])).isSome then .ok (dir ++ [part])
  else .error .noSuchFile

def walk (f : Files) (dir : List String) : List String → Except SystemError (List String)
  | [] => .ok dir
  | part :: rest =>
    match f.follow dir part with
    | .error e => .error e
    | .ok place =>
      if f.entry? place = some .directory then f.walk place rest else .error .notDirectory

/-- The directory of a path's last part, and that part. The root has none. -/
def locate (f : Files) (path : String) : Except SystemError (List String × Option String) :=
  if Path.maxBytes < path.utf8ByteSize then .error .nameTooLong
  else
    let p := Path.ofString path
    match f.walk (if p.absolute then [] else workDir) p.parts.dropLast with
    | .error e => .error e
    | .ok dir => .ok (dir, p.parts.getLast?)

def openToRead (f : Files) (path : String) : Except SystemError Entry := do
  match ← f.locate path with
  | (_, none) => throw .isDirectory
  | (dir, some part) =>
    match f.entry? (← f.follow dir part) with
    | none => throw .noSuchFile
    | some .directory => throw .isDirectory
    | some e => if (Path.ofString path).slash then throw .notDirectory else return e

def text? (f : Files) (path : String) : Option String :=
  match f.openToRead path with
  | .ok (.file text) => some text
  | _ => none

/-- Where a text goes: to a position, where there may be a file already, or to a device. -/
inductive Sink where
  | file (place : List String)
  | device (device : Device)
  deriving DecidableEq, Repr

/-- Where a text goes that is written to a path. A file can be new, but not its directory, and nothing
new can be a directory. -/
def openToWrite (f : Files) (path : String) : Except SystemError Sink := do
  match ← f.locate path with
  | (_, none) => throw .isDirectory
  | (dir, some part) =>
    if part = "." || part = ".." || (Path.ofString path).slash then throw .isDirectory
    else
      match f.follow dir part with
      | .error .noSuchFile => return .file (dir ++ [part])
      | .error e => throw e
      | .ok place =>
        match f.entry? place with
        | some .directory => throw .isDirectory
        | some (.device d) => return .device d
        | _ => return .file place

def insert (f : Files) (place : List String) (text : String) : Files :=
  ⟨(place, text) :: f.texts.filter (·.1 != place)⟩

def ofList (named : List (String × String)) : Files :=
  named.foldl (fun f e => f.insert (workDir ++ (Path.ofString e.1).parts) e.2) {}

end Files

end Gondola
