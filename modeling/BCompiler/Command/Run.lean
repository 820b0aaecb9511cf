import BCompiler.Command.Disk
import BCompiler.Command.Host

/-!
The command on a file system.

Nothing is fixed of a file system but that files can be read and written: there may be links,
devices and permissions, and any call may fail. Files in memory are one of them.
-/
namespace BCompiler

/-- A file system with states `Φ`, and a standard output, told by what was printed to it so far.
Reading changes nothing. A write that fails may still leave another state. -/
structure System (Φ : Type) where
  read : String → Φ → Except String (List UInt8)
  write : String → String → EStateM String Φ Unit
  print : String → EStateM String String Unit

/-- What the command can change. -/
structure World (Φ : Type) where
  files : Φ
  stdout : String
  stderr : String

/-- The system as the command sees it. -/
def System.host {Φ : Type} (sys : System Φ) : Host (StateM (World Φ)) where
  read path := fun w => (sys.read path w.files, w)
  write path text := fun w =>
    match sys.write path text w.files with
    | .ok _ files => (.ok (), { w with files })
    | .error reason files => (.error reason, { w with files })
  print text := fun w =>
    match sys.print text w.stdout with
    | .ok _ stdout => (.ok (), { w with stdout })
    | .error reason stdout => (.error reason, { w with stdout })
  report text := fun w => ((), { w with stderr := w.stderr ++ text })

namespace Disk

/-- A disk as a system. The standard output takes everything. -/
def system : System Disk where
  read path d := (d.read path).mapError DiskError.reason
  write path text := fun d =>
    match d.write path text with
    | .ok d' => .ok () d'
    | .error e => .error e.reason d
  print text := fun stdout => .ok () (stdout ++ text)

/-- What a run leaves behind. -/
structure Outcome where
  code : UInt32
  stdout : String
  stderr : String
  disk : Disk

/-- Run the command with the given arguments. -/
def run (d : Disk) (arguments : List String) : Outcome :=
  let (code, w) := runCommand system.host arguments ⟨d, "", ""⟩
  ⟨code, w.stdout, w.stderr, w.files⟩

end Disk
end BCompiler
