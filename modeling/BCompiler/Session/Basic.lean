import BCompiler.Grammar.Declaration
import BCompiler.IR.Assembly
import BCompiler.Session.Statistics

/-!
A session compiles any number of sources, one after the other, into one module.

An error carries the name of its source and the line that was reached. What was built before it
stays in the module, but its source does not count as compiled.
-/
namespace BCompiler

structure Session where
  /-- Bytes in a word. -/
  wordSize : Nat
  program : Program
  filesCompiled : Nat
  linesRead : Nat
  deriving DecidableEq, Repr

namespace Session

def new (moduleName : String) (wordSize : Nat) : Session :=
  ⟨wordSize, .empty moduleName wordSize, 0, 0⟩

/-- Compile a source; errors are reported under the given name. -/
def compile (name text : String) : EStateM Error Session Unit := fun s =>
  match Pass.declarations ⟨.ofText text s.wordSize, s.program⟩ with
  | .ok _ site =>
    .ok () { s with
      program := site.target
      filesCompiled := s.filesCompiled + 1
      linesRead := s.linesRead + site.cursor.line }
  | .error e site => .error (e.locate name site.cursor.line) { s with program := site.target }

def module (s : Session) : Module := s.program.module

def statistics (s : Session) : Statistics := .ofModule s.filesCompiled s.linesRead s.module

end Session

/-- Compile one source with words of eight bytes. -/
def compile (text : String) : Except Error Module :=
  match Session.compile "<input>" text (.new "b" 8) with
  | .ok _ s => .ok s.module
  | .error e _ => .error e

/-- Compile one source to the text of its module. -/
def compileToAssembly (text : String) : Except Error String := do
  (← compile text).assembly

end BCompiler
