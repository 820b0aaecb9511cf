import BCompiler.IR.Module

/-! Counts over the sources of a session and the module made from them, and their report. -/
namespace BCompiler

structure Statistics where
  filesCompiled : Nat
  linesRead : Nat
  functionsDefined : Nat
  functionsDeclared : Nat
  globals : Nat
  strings : Nat
  blocks : Nat
  /-- Instructions, terminators included. -/
  instructions : Nat
  largestSize : Nat
  /-- The first function of the largest size; empty if no function has an instruction. -/
  largestName : String
  deriving DecidableEq, Repr

namespace Statistics

/-- The size and name of the larger of two functions, the earlier one if they are equal. -/
def larger (best : Nat × String) (f : Function) : Nat × String :=
  if best.1 < f.instructionCount then (f.instructionCount, f.name) else best

/-- The counts of a module, for sources counted before. -/
def ofModule (files lines : Nat) (m : Module) : Statistics :=
  let defined := m.functions.filter fun f => !f.isDeclaration
  let (largestSize, largestName) := defined.foldl larger (0, "")
  { filesCompiled := files
    linesRead := lines
    functionsDefined := defined.length
    functionsDeclared := (m.functions.filter Function.isDeclaration).length
    globals := m.globals.length
    strings := m.strings.length
    blocks := defined.foldr (fun f n => f.blocks.length + n) 0
    instructions := defined.foldr (fun f n => f.instructionCount + n) 0
    largestSize
    largestName }

def line (title : String) (count : Nat) : String := "  " ++ title ++ ": " ++ toString count ++ "\n"

/-- The counts as text, one on a line. The largest function is left out if there is none. -/
def report (s : Statistics) : String :=
  "Compilation Session Statistics:\n" ++
    line "Files compiled" s.filesCompiled ++
    line "Lines read" s.linesRead ++
    line "Functions defined" s.functionsDefined ++
    line "External functions" s.functionsDeclared ++
    line "Globals" s.globals ++
    line "Strings" s.strings ++
    line "Blocks" s.blocks ++
    line "Instructions" s.instructions ++
    if s.largestName = "" then ""
    else "  Largest function: " ++ s.largestName ++ " (" ++ toString s.largestSize ++
      " instructions)\n"

end Statistics
end BCompiler
