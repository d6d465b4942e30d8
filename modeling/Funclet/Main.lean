import Funclet.Cli.Run

/-!
# The program

Reads what the command line asks for and writes what comes of it.
-/

namespace Funclet.Cli

/-- Reads standard input up to its end. -/
partial def readAll (input : IO.FS.Stream) (bytes : ByteArray) : IO ByteArray := do
  let more ← input.read 65536
  if more.isEmpty then return bytes
  readAll input (bytes ++ more)

/-- Why the system did not read a file. Its number of an error may come negated. -/
def reasonOf : IO.Error → FileError
  | .noFileOrDirectory .. => .missing
  | .inappropriateType _ code _ => if code = 20 ∨ code = -20 then .notFolder else .isFolder
  | .invalidArgument _ code details =>
    if code = 36 ∨ code = -36 then .nameTooLong else .other details
  | e => .other (toString e)

def fetch : Source → IO (Except FileError ByteArray)
  | .input => return .ok (← readAll (← IO.getStdin) .empty)
  | .file path => do
    try
      return .ok (← IO.FS.readBinFile path)
    catch e =>
      return .error (reasonOf e)

def Write.perform (w : Write) : IO Unit := do
  let stream ← match w.channel with
    | .out => IO.getStdout
    | .err => IO.getStderr
  stream.putStr w.text
  stream.flush

end Funclet.Cli

def main (args : List String) : IO UInt32 := do
  let outcome ← Funclet.Cli.invoke args Funclet.Cli.fetch
  outcome.writes.forM Funclet.Cli.Write.perform
  return outcome.exit.toUInt32
