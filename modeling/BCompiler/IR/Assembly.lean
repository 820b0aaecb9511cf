import BCompiler.IR.Module

/-!
The LLVM assembly of a module.

A module is written as a header, its strings, its globals, its declared functions and its defined
functions. Writing fails only if a terminator or a phi names a block that does not exist.
-/
namespace BCompiler

def Operand.assembly : Operand → String
  | .const w => w.decimal
  | .value id => "%v" ++ toString id
  | .param name => "%p." ++ name
  | .symbol name => "@" ++ name

def BinaryOp.mnemonic : BinaryOp → String
  | .add => "add"
  | .sub => "sub"
  | .mul => "mul"
  | .div => "sdiv"
  | .rem => "srem"
  | .shl => "shl"
  | .shr => "ashr"
  | .and => "and"
  | .or => "or"

def Predicate.mnemonic : Predicate → String
  | .eq => "eq"
  | .ne => "ne"
  | .lt => "slt"
  | .le => "sle"
  | .gt => "sgt"
  | .ge => "sge"

namespace Module

/-- The type of a word. -/
def wordType (m : Module) : String := "i" ++ toString m.wordBits

def arrayType (m : Module) (length : Nat) : String :=
  "[" ++ toString length ++ " x " ++ m.wordType ++ "]"

/-- An operand with the type of a word. -/
def typed (m : Module) (operand : Operand) : String := m.wordType ++ " " ++ operand.assembly

def commaList (items : List String) : String := ", ".intercalate items

def constantText (m : Module) : Constant → String
  | .word value => value.decimal
  | .address name => "ptrtoint (ptr @" ++ name ++ " to " ++ m.wordType ++ ")"

/-- Constants in brackets, with zeros up to the given number of words. -/
def constantList (m : Module) (values : List Constant) (length : Nat) : String :=
  let given := values.map m.constantText
  let padding := List.replicate (length - values.length) "0"
  "[" ++ commaList ((given ++ padding).map fun text => m.wordType ++ " " ++ text) ++ "]"

def initText (m : Module) : GlobalInit → String
  | .word value => "global " ++ m.wordType ++ " " ++ m.constantText value
  | .placeholder => "common global " ++ m.wordType ++ " 0"
  | .words values =>
    "global " ++ m.arrayType values.length ++ " " ++ m.constantList values 0
  | .buffer length [] => "global " ++ m.arrayType length.toNat ++ " zeroinitializer"
  | .buffer length values =>
    "global " ++ m.arrayType length.toNat ++ " " ++ m.constantList values length.toNat

def globalLine (m : Module) (g : Global) : String := "@" ++ g.name ++ " = " ++ m.initText g.init

def stringLine (s : StringConstant) : String :=
  "@" ++ s.name ++ " = private unnamed_addr constant [" ++ toString (s.bytes.length + 1) ++
    " x i8] c\"" ++ byteLiteral s.bytes ++ "\\00\""

/-- Only a function defined in the module is called by its exact argument list. -/
def calleeText (m : Module) : Callee → String
  | .direct name =>
    if (m.function? name).any fun f => !f.isDeclaration then "@" ++ name else "(...) @" ++ name
  | .indirect pointer => "(...) " ++ pointer.assembly

def phiArm (f : Function) (arm : Operand × BlockId) : Except Error String := do
  let b ← f.block arm.2
  return "[ " ++ arm.1.assembly ++ ", %" ++ b.name ++ " ]"

def operationText (m : Module) (f : Function) : Operation → Except Error String
  | .alloca none => return "alloca " ++ m.wordType
  | .alloca (some words) => return "alloca " ++ m.arrayType words.toNat
  | .load address => return "load " ++ m.wordType ++ ", ptr " ++ address.assembly
  | .binary op lhs rhs =>
    return op.mnemonic ++ " " ++ m.typed lhs ++ ", " ++ rhs.assembly
  | .compare pred lhs rhs =>
    return "icmp " ++ pred.mnemonic ++ " " ++ m.typed lhs ++ ", " ++ rhs.assembly
  | .widen bit => return "zext i1 " ++ bit.assembly ++ " to " ++ m.wordType
  | .toPointer word => return "inttoptr " ++ m.typed word ++ " to ptr"
  | .toWord pointer => return "ptrtoint ptr " ++ pointer.assembly ++ " to " ++ m.wordType
  | .element base index =>
    return "getelementptr " ++ m.wordType ++ ", ptr " ++ base.assembly ++ ", " ++ m.typed index
  | .arrayElement base length index =>
    return "getelementptr " ++ m.arrayType length.toNat ++ ", ptr " ++ base.assembly ++ ", " ++
      m.wordType ++ " 0, " ++ m.wordType ++ " " ++ toString index.toNat
  | .call callee arguments =>
    return "call " ++ m.wordType ++ " " ++ m.calleeText callee ++ "(" ++
      commaList (arguments.map m.typed) ++ ")"
  | .phi incoming => do
    let arms ← incoming.mapM (phiArm f)
    return "phi " ++ m.wordType ++ " " ++ commaList arms

def instrLine (m : Module) (f : Function) : Instr → Except Error String
  | .define id operation => do
    let text ← m.operationText f operation
    return "  %v" ++ toString id ++ " = " ++ text
  | .store value address =>
    return "  store " ++ m.typed value ++ ", ptr " ++ address.assembly

def labelText (f : Function) (id : BlockId) : Except Error String := do
  let b ← f.block id
  return "label %" ++ b.name

def caseLine (m : Module) (f : Function) (arm : Word × BlockId) : Except Error String := do
  let label ← labelText f arm.2
  return "    " ++ m.typed (.const arm.1) ++ ", " ++ label

def terminatorLines (m : Module) (f : Function) : Terminator → Except Error (List String)
  | .branch target => do
    let label ← labelText f target
    return ["  br " ++ label]
  | .condBranch bit thenBlock elseBlock => do
    let thenLabel ← labelText f thenBlock
    let elseLabel ← labelText f elseBlock
    return ["  br i1 " ++ bit.assembly ++ ", " ++ thenLabel ++ ", " ++ elseLabel]
  | .switch value default cases => do
    let label ← labelText f default
    let arms ← cases.mapM (m.caseLine f)
    return ("  switch " ++ m.typed value ++ ", " ++ label ++ " [") :: arms ++ ["  ]"]
  | .ret value => return ["  ret " ++ m.typed value]

/-- The last lines of a block; one that never ends is marked as such. -/
def endLines (m : Module) (f : Function) : Option Terminator → Except Error (List String)
  | some terminator => m.terminatorLines f terminator
  | none => return ["  unreachable"]

def blockLines (m : Module) (f : Function) (b : Block) : Except Error (List String) := do
  let body ← b.instrs.mapM (m.instrLine f)
  let last ← m.endLines f b.terminator
  return (b.name ++ ":") :: body ++ last

/-- The definition of a function, with an empty line between blocks. -/
def functionLines (m : Module) (f : Function) : Except Error (List String) := do
  let params := f.params.map fun p => m.typed (.param p)
  let blocks ← f.blocks.mapM (m.blockLines f)
  return ["define " ++ m.wordType ++ " @" ++ f.name ++ "(" ++ commaList params ++ ") \x7b"] ++
    [""].intercalate blocks ++ ["\x7d"]

def declarationLine (m : Module) (f : Function) : String :=
  "declare " ++ m.wordType ++ " @" ++ f.name ++ "(...)"

/-- Lines with an empty one in front, if there are any. -/
def paragraph (lines : List String) : List String :=
  if lines.isEmpty then [] else "" :: lines

def lines (m : Module) : Except Error (List String) := do
  let definitions ← (m.functions.filter fun f => !f.isDeclaration).mapM m.functionLines
  return ["; ModuleID = '" ++ m.name ++ "'",
      "source_filename = \"" ++ byteLiteral (utf8Bytes m.name) ++ "\""] ++
    paragraph (m.strings.map stringLine) ++
    paragraph (m.globals.map m.globalLine) ++
    paragraph ((m.functions.filter Function.isDeclaration).map m.declarationLine) ++
    definitions.flatMap paragraph

/-- The text of a module. -/
def assembly (m : Module) : Except Error String := do
  let lines ← m.lines
  return String.join (lines.map fun line => line ++ "\n")

end Module
end BCompiler
