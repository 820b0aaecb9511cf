import BCompiler.Command.Run

/-! The command itself, on the files of the system. -/
namespace BCompiler

/-- The reason that the system gives for a failure, with its number. -/
def systemReason : IO.Error → String
  | .noFileOrDirectory .. => DiskError.notFound.reason
  | .noSuchThing .. => DiskError.notFound.reason
  | .inappropriateType _ 21 _ => DiskError.isDirectory.reason
  | .inappropriateType .. => DiskError.notDirectory.reason
  | e => toString e

/-- The outcome of a call of the system. -/
def attempt {α : Type} (call : IO α) : IO (Except String α) := do
  try return .ok (← call)
  catch e => return .error (systemReason e)

def systemHost : Host IO where
  read path := attempt do return (← IO.FS.readBinFile path).toList
  write path text := attempt (IO.FS.writeFile path text)
  print text := attempt do
    let stdout ← IO.getStdout
    stdout.putStr text
    stdout.flush
  report := IO.eprint

end BCompiler

def main (arguments : List String) : IO UInt32 :=
  BCompiler.runCommand BCompiler.systemHost arguments
