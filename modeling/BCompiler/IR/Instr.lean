import BCompiler.Word

/-!
Instructions of the word-typed intermediate representation.

Every instruction works on words or on pointers made from words. All but a store give a value,
numbered within its function.
-/
namespace BCompiler

abbrev FunctionId := Nat
abbrev GlobalId := Nat
abbrev BlockId := Nat
abbrev ValueId := Nat

inductive Operand where
  | const (value : Word)
  /-- The value of an instruction of the same function. -/
  | value (id : ValueId)
  /-- A parameter by name. -/
  | param (name : String)
  /-- The address of a global, a string or a function. -/
  | symbol (name : String)
  deriving DecidableEq, Repr

/-- Word operations. Division, remainder and the right shift are signed. -/
inductive BinaryOp where
  | add | sub | mul | div | rem | shl | shr | and | or
  deriving DecidableEq, Repr

/-- Signed comparisons. -/
inductive Predicate where
  | eq | ne | lt | le | gt | ge
  deriving DecidableEq, Repr

inductive Callee where
  /-- A function of the module, by name. -/
  | direct (name : String)
  /-- A pointer. -/
  | indirect (pointer : Operand)
  deriving DecidableEq, Repr

/-- What an instruction with a value computes. -/
inductive Operation where
  /-- A stack slot, of one word if no number of words is given. -/
  | alloca (words : Option UInt64)
  | load (address : Operand)
  | binary (op : BinaryOp) (lhs rhs : Operand)
  /-- A comparison, whose value is one bit. -/
  | compare (pred : Predicate) (lhs rhs : Operand)
  /-- One bit as a word. -/
  | widen (bit : Operand)
  | toPointer (word : Operand)
  | toWord (pointer : Operand)
  /-- The address `index` words after `base`. -/
  | element (base index : Operand)
  /-- The address of word `index` in a stack slot of `length` words. -/
  | arrayElement (base : Operand) (length index : UInt64)
  | call (callee : Callee) (arguments : List Operand)
  /-- The operand that belongs to the block from which control came. -/
  | phi (incoming : List (Operand × BlockId))
  deriving DecidableEq, Repr

inductive Instr where
  | define (id : ValueId) (operation : Operation)
  | store (value address : Operand)
  deriving DecidableEq, Repr

/-- The last step of a block. -/
inductive Terminator where
  | branch (target : BlockId)
  | condBranch (bit : Operand) (thenBlock elseBlock : BlockId)
  | switch (value : Operand) (default : BlockId) (cases : List (Word × BlockId))
  | ret (value : Operand)
  deriving DecidableEq, Repr

/-- The blocks that may run next. -/
def Terminator.successors : Terminator → List BlockId
  | .branch target => [target]
  | .condBranch _ thenBlock elseBlock => [thenBlock, elseBlock]
  | .switch _ default cases => default :: cases.map (·.2)
  | .ret _ => []

end BCompiler
