import Gondola.CommandLine

/-! The program itself: arguments, standard streams and files of the system. -/
namespace Gondola.CommandLine

def systemText (e : IO.Error) : String :=
  let numbered (code : UInt32) (details : String) : String :=
    details ++ " (os error " ++ toString code ++ ")"
  match e with
  | .noFileOrDirectory _ code details => numbered code details
  | .inappropriateType _ code details => numbered code details
  | .permissionDenied _ code details => numbered code details
  | .alreadyExists _ code details => numbered code details
  | .invalidArgument _ code details => numbered code details
  | .noSuchThing _ code details => numbered code details
  | .resourceExhausted _ code details => numbered code details
  | .resourceBusy code details => numbered code details
  | .otherError code details => numbered code details
  | _ => toString e

def attempt {α : Type} (action : IO α) : IO (Except String α) :=
  try
    let a ← action
    return .ok a
  catch e => return .error (systemText e)

partial def readAll (input : IO.FS.Stream) (read : ByteArray) : IO ByteArray := do
  let more ← input.read 65536
  if more.isEmpty then return read else readAll input (read ++ more)

def systemHost : Host IO where
  standardInput := do
    let input ← IO.getStdin
    readAll input ByteArray.empty
  readFile path := attempt do
    let file ← IO.FS.Handle.mk path .read
    file.readBinToEnd
  writeFile path text := attempt (IO.FS.writeFile path text)

end Gondola.CommandLine

def main (args : List String) : IO UInt32 := do
  let outcome ← Gondola.CommandLine.run Gondola.CommandLine.systemHost args
  IO.print outcome.stdout
  IO.eprint outcome.stderr
  return outcome.exit.toUInt32
