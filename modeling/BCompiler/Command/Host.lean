import BCompiler.Command.Arguments
import BCompiler.Command.Path
import BCompiler.Session.Basic

/-!
Running the command.

All sources are compiled before anything is written. The first failure ends the run, with its
message on the error stream and nothing written. The system that the command runs on is a parameter:
all that is asked of it is to read and write files and to print.
-/
namespace BCompiler

/-- What the command asks of the system it runs on. A call that fails gives the reason. -/
structure Host (m : Type → Type) where
  /-- The bytes of the file at a path. -/
  read : String → m (Except String (List UInt8))
  /-- Write the file at a path. -/
  write : String → String → m (Except String Unit)
  /-- Write to the standard output. -/
  print : String → m (Except String Unit)
  /-- Write to the error stream. -/
  report : String → m Unit

/-- Why a file that is not a text cannot be read. -/
def notText : String := "stream did not contain valid UTF-8"

section Host

variable {m : Type → Type} [Monad m]

/-- The text of the file at a path. -/
def Host.readText (host : Host m) (path : String) : ExceptT Error m String := do
  match ← host.read path with
  | .error reason => throw (.io path reason)
  | .ok bytes =>
    match String.fromUTF8? ⟨bytes.toArray⟩ with
    | some text => return text
    | none => throw (.io path notText)

/-- Write a text to a file, or to the standard output if the path is the one that stands for it. -/
def Host.put (host : Host m) (path text : String) : m (Except String Unit) :=
  if Path.isDash path then host.print text else host.write path text

def Host.deliver (host : Host m) (path text : String) : ExceptT Error m Unit := do
  match ← host.put path text with
  | .error reason => throw (.io path reason)
  | .ok _ => return

namespace Session

/-- Read a source and compile it. -/
def compileFile (host : Host m) (path : String) (s : Session) : ExceptT Error m Session := do
  match s.compile path (← host.readText path) with
  | .error e _ => throw e
  | .ok _ s => return s

def compileFiles (host : Host m) : List String → Session → ExceptT Error m Session
  | [], s => return s
  | path :: paths, s => do compileFiles host paths (← compileFile host path s)

end Session

/-- The line that tells of a failure. -/
def failureText (e : Error) : String := "blang: " ++ e.message ++ "\n"

namespace Invocation

def inputs (i : Invocation) : List String := i.input :: i.others

/-- The first source that does not have the extension of sources. -/
def misnamed? (i : Invocation) : Option String :=
  i.inputs.find? fun path => Path.extension? path != some "b"

/-- Where the text of the module goes. -/
def destination (i : Invocation) : String := i.output.getD (Path.moduleFile i.input)

/-- What is told of a session besides its module. -/
def report (i : Invocation) (s : Session) : String := if i.stats then s.statistics.report else ""

/-- Compile all sources into one module and deliver its text. -/
def compile (host : Host m) (i : Invocation) : ExceptT Error m Unit := do
  match i.misnamed? with
  | some path => throw (.io path "expected a .b source file")
  | none =>
    let s ← Session.compileFiles host i.inputs (.new i.input i.wordSize)
    host.report (i.report s)
    match s.module.assembly with
    | .error e => throw e
    | .ok text => host.deliver i.destination text

/-- Compile, tell of a failure, and give the exit code. -/
def run (host : Host m) (i : Invocation) : m UInt32 := do
  match ← (i.compile host).run with
  | .ok _ => return 0
  | .error e =>
    host.report (failureText e)
    return 1

end Invocation

def usageText : String := "Usage: blang [OPTIONS] <INPUTS>...\n"

def versionText : String := "blang 0.1.0\n"

def helpText : String :=
  "Compile B programs to LLVM IR\n\n" ++ usageText ++
  "\nArguments:\n" ++
  "  <INPUTS>...  B source files, compiled in order into one module\n" ++
  "\nOptions:\n" ++
  "  -o, --output <OUTPUT>        Output file; `-` writes to stdout. " ++
  "Defaults to the first input with `.ll`\n" ++
  "      --word-size <WORD_SIZE>  Bytes per machine word [default: 8]\n" ++
  "      --stats                  Print session statistics to stderr\n" ++
  "  -v, --verbose                Enable debug logging (RUST_LOG overrides)\n" ++
  "  -h, --help                   Print help\n" ++
  "  -V, --version                Print version\n"

/-- Run the command with the given arguments. -/
def runCommand (host : Host m) (arguments : List String) : m UInt32 := do
  match Request.ofArguments arguments with
  | .refused =>
    host.report usageText
    return 2
  | .help =>
    let _ ← host.print helpText
    return 0
  | .version =>
    let _ ← host.print versionText
    return 0
  | .compile i => i.run host

end Host
end BCompiler
