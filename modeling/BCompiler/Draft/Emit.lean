import BCompiler.Program

/-!
A function under construction.

Instructions go to the end of the current block. If that block has ended, a new block is opened
first: nothing is ever added behind a terminator. The draft keeps its function apart from the
module, which holds it again once the draft is closed.
-/
namespace BCompiler

/-- A label of a function and the block it stands for. -/
structure Label where
  name : String
  block : BlockId
  defined : Bool
  deriving DecidableEq, Repr

structure Draft where
  program : Program
  id : FunctionId
  function : Function
  current : BlockId
  /-- The stack slots of parameters and local names. -/
  locals : List (String × Operand)
  labels : List Label
  /-- The number of the next group of blocks. -/
  nextGroup : Nat
  deriving DecidableEq, Repr

/-- The three blocks of a construct, numbered together. -/
structure BlockGroup where
  number : Nat
  first : BlockId
  second : BlockId
  last : BlockId
  deriving DecidableEq, Repr

/-- A step on a draft. What it did stays done when it fails. -/
abbrev Build := EStateM Error Draft

/-- Put the function back into the module of its program. -/
def Draft.close (d : Draft) : Program :=
  { d.program with module := d.program.module.setFunction d.id d.function }

namespace Build

/-- Change the function by a step that may fail; a failure changes nothing. -/
def onFunction (change : Function → Except Error (α × Function)) : Build α := fun d =>
  match change d.function with
  | .ok (a, function) => .ok a { d with function }
  | .error e => .error e d

/-- Change the program by a step that may fail; a failure changes nothing. -/
def onProgram (change : Program → Except Error (α × Program)) : Build α := fun d =>
  match change d.program with
  | .ok (a, program) => .ok a { d with program }
  | .error e => .error e d

/-- A fresh number for a group of blocks. -/
def freshGroup : Build Nat := fun d => .ok d.nextGroup { d with nextGroup := d.nextGroup + 1 }

def newBlock (name : String) : Build BlockId := onFunction fun f => .ok (f.addBlock name)

/-- New blocks for a construct, named after it, the fresh number and their parts in it. -/
def newGroup (construct first second last : String) : Build BlockGroup := do
  let number ← freshGroup
  let group := construct ++ "." ++ toString number ++ "."
  let firstBlock ← newBlock (group ++ first)
  let secondBlock ← newBlock (group ++ second)
  let lastBlock ← newBlock (group ++ last)
  return ⟨number, firstBlock, secondBlock, lastBlock⟩

def currentBlock : Build BlockId := fun d => .ok d.current d

/-- Go on at the end of another block. -/
def switchTo (block : BlockId) : Build Unit := fun d => .ok () { d with current := block }

/-- Whether the current block has not ended. -/
def isOpen : Build Bool := fun d =>
  match d.function.block d.current with
  | .ok b => .ok (!b.isTerminated) d
  | .error e => .error e d

/-- Go on in a new block if the current one has ended. -/
def ensureOpen : Build Unit := do
  if ← isOpen then
    return
  else
    let group ← freshGroup
    switchTo (← newBlock ("dead." ++ toString group))

/-- Add an instruction at the end of the current block. -/
def push (instr : Instr) : Build Unit := do
  let block ← currentBlock
  onFunction fun f => return ((), ← f.push block instr)

/-- Add an instruction with a value and give that value. -/
def emit (operation : Operation) : Build Operand := do
  ensureOpen
  let id ← onFunction fun f => .ok f.freshValue
  push (.define id operation)
  return .value id

def store (value address : Operand) : Build Unit := do
  ensureOpen
  push (.store value address)

def terminate (terminator : Terminator) : Build Unit := do
  ensureOpen
  let block ← currentBlock
  onFunction fun f => return ((), ← f.terminate block terminator)

/-- End the current block unless it has ended. -/
def terminateIfOpen (terminator : Terminator) : Build Unit := do
  if ← isOpen then terminate terminator else return

def branch (target : BlockId) : Build Unit := terminate (.branch target)

/-- Fall into another block unless the current one has ended. -/
def branchIfOpen (target : BlockId) : Build Unit := terminateIfOpen (.branch target)

/-- Fall into a block and go on there. -/
def enter (block : BlockId) : Build Unit := do
  branchIfOpen block
  switchTo block

def ret (value : Operand) : Build Unit := terminate (.ret value)

def load (address : Operand) : Build Operand := emit (.load address)

def binary (op : BinaryOp) (lhs rhs : Operand) : Build Operand := emit (.binary op lhs rhs)

/-- A comparison as a word, one or zero. -/
def compare (pred : Predicate) (lhs rhs : Operand) : Build Operand := do
  emit (.widen (← emit (.compare pred lhs rhs)))

/-- Branch on whether a word differs from zero. -/
def condBranch (word : Operand) (thenBlock elseBlock : BlockId) : Build Unit := do
  let bit ← emit (.compare .ne word (.const 0))
  terminate (.condBranch bit thenBlock elseBlock)

def toPointer (word : Operand) : Build Operand := emit (.toPointer word)

def toWord (pointer : Operand) : Build Operand := emit (.toWord pointer)

/-- The address of the word `index` words after `base`. -/
def element (base index : Operand) : Build Operand := emit (.element base index)

def call (callee : Callee) (arguments : List Operand) : Build Operand :=
  emit (.call callee arguments)

def phi (incoming : List (Operand × BlockId)) : Build Operand := emit (.phi incoming)

/-- The address of a new string, as a word. -/
def string (text : String) : Build Operand := do
  let name ← onProgram fun p => .ok (p.addString text)
  toWord (.symbol name)

end Build
end BCompiler
