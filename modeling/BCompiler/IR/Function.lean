import BCompiler.Error
import BCompiler.IR.Instr

/-!
Functions as control-flow graphs.

A function owns its blocks, named by their position. A block has at most one terminator. Stack
slots stand together at the top of the first block, in the order in which they were made.
-/
namespace BCompiler

structure Block where
  name : String
  instrs : List Instr
  terminator : Option Terminator
  deriving DecidableEq, Repr

namespace Block

/-- A block that holds nothing yet. -/
def empty (name : String) : Block := ⟨name, [], none⟩

def isTerminated (b : Block) : Bool := b.terminator.isSome

/-- The number of instructions, a terminator included. -/
def size (b : Block) : Nat := b.instrs.length + if b.isTerminated then 1 else 0

end Block

structure Function where
  name : String
  params : List String
  /-- Empty for a function that is only declared. -/
  blocks : List Block
  nextValue : ValueId
  /-- The number of stack slots made so far. -/
  slots : Nat
  deriving DecidableEq, Repr

namespace Function

/-- A function without a body, which takes any number of words. -/
def declared (name : String) : Function := ⟨name, [], [], 0, 0⟩

/-- A function whose body is one empty block. -/
def entered (name : String) (params : List String) : Function :=
  ⟨name, params, [.empty "entry"], 0, 0⟩

def isDeclaration (f : Function) : Bool := f.blocks.isEmpty

def block (f : Function) (id : BlockId) : Except Error Block :=
  match f.blocks[id]? with
  | some b => .ok b
  | none => .error (.internal (.noSuchBlock id))

theorem block_eq_ok_iff {f : Function} {id : BlockId} {b : Block} :
    f.block id = .ok b ↔ f.blocks[id]? = some b := by
  unfold block
  split <;> simp_all

/-- The first block of that name. -/
def blockNamed? (f : Function) (name : String) : Option Block :=
  f.blocks.find? fun b => b.name == name

/-- The number of instructions, terminators included. -/
def instructionCount (f : Function) : Nat := f.blocks.foldr (fun b n => b.size + n) 0

def addBlock (name : String) (f : Function) : BlockId × Function :=
  (f.blocks.length, { f with blocks := f.blocks ++ [.empty name] })

@[simp] theorem addBlock_fst (name : String) (f : Function) :
    (f.addBlock name).1 = f.blocks.length := rfl

@[simp] theorem blocks_addBlock (name : String) (f : Function) :
    (f.addBlock name).2.blocks = f.blocks ++ [.empty name] := rfl

def freshValue (f : Function) : ValueId × Function :=
  (f.nextValue, { f with nextValue := f.nextValue + 1 })

/-- Add an instruction at the end of a block. -/
def push (id : BlockId) (instr : Instr) (f : Function) : Except Error Function := do
  let b ← f.block id
  return { f with blocks := f.blocks.set id { b with instrs := b.instrs ++ [instr] } }

/-- Add a stack slot below the ones at the top of the first block. -/
def pushSlot (words : Option UInt64) (f : Function) : Except Error (Operand × Function) := do
  let (id, f) := f.freshValue
  let b ← f.block 0
  let instrs := b.instrs.insertIdx f.slots (.define id (.alloca words))
  return (.value id, { f with blocks := f.blocks.set 0 { b with instrs }, slots := f.slots + 1 })

/-- End a block, which must still be open. -/
def terminate (id : BlockId) (terminator : Terminator) (f : Function) :
    Except Error Function := do
  let b ← f.block id
  if b.isTerminated then
    throw (.internal (.terminatedTwice b.name))
  else
    return { f with blocks := f.blocks.set id { b with terminator := some terminator } }

/-- The names of the blocks that may run after a terminator. -/
def successorNames (f : Function) (terminator : Terminator) : Except Error (List String) :=
  terminator.successors.mapM fun id => (f.block id).map (·.name)

end Function
end BCompiler
