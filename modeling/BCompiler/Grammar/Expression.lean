import BCompiler.Pass

/-!
Expressions.

An expression is read by climbing through the levels of its connectives, and its code is emitted
on the way, from left to right. A part of an expression denotes a word, the word at an address or
a function; only what has an address can be assigned to.
-/
namespace BCompiler

/-- Emit an operator. -/
def Op.apply (lhs rhs : Operand) : Op → Build Operand
  | .binary op => Build.binary op lhs rhs
  | .compare pred => Build.compare pred lhs rhs

namespace Build

/-- Add one to the word at an address or take one away; gives the old word. -/
def step (op : BinaryOp) (spelling : String) : Denotation → Build (Operand × Operand)
  | .address address => do
    let old ← load address
    store (← binary op old (.const 1)) address
    return (old, address)
  | _ => throw (.notAnLvalue spelling)

/-- Store a word at an address, joined to the old word if there is an operator; gives the word
stored. -/
def assign : Option Op → Operand → Operand → Build Operand
  | none, address, value => do
    store value address
    return value
  | some op, address, value => do
    let joined ← op.apply (← load address) value
    store joined address
    return joined

/-- The callee that a denotation stands for in front of an argument list. -/
def callee : Denotation → Build Callee
  | .function name => return .direct name
  | .address address => do return .indirect (← toPointer (← load address))
  | .word value => do return .indirect (← toPointer value)

/-- The pointer that a denotation stands for in front of a subscript. -/
def base (operand : Denotation) : Build Operand := do toPointer (← rvalue operand)

/-- Branch on a word to two new blocks of a construct and go on in the first of them. -/
def fork (construct : String) (word : Operand) : Build BlockGroup := do
  let group ← newGroup construct "then" "else" "end"
  condBranch word group.first group.second
  switchTo group.first
  return group

/-- Leave an arm for the block where the arms meet; gives the block that was left. -/
def leave (last : BlockId) : Build BlockId := do
  let exit ← currentBlock
  branch last
  return exit

/-- Leave the second arm and choose the word of the arm that was left for the block. -/
def join (last : BlockId) (thenValue : Operand) (thenExit : BlockId) (elseValue : Operand) :
    Build Operand := do
  let elseExit ← leave last
  switchTo last
  phi [(thenValue, thenExit), (elseValue, elseExit)]

end Build

/-- Emit what a sign does to its operand. -/
def Sign.apply (operand : Denotation) : Sign → Build Denotation
  | .not => do return .word (← Build.compare .eq (← Build.rvalue operand) (.const 0))
  | .negate => do return .word (← Build.binary .sub (.const 0) (← Build.rvalue operand))
  | .dereference => do return .address (← Build.toPointer (← Build.rvalue operand))
  | .increment => do return .address (← Build.step .add "++" operand).2
  | .decrement => do return .address (← Build.step .sub "--" operand).2
  | .addressOf =>
    match operand with
    | .address address => do return .word (← Build.toWord address)
    | _ => throw (.notAnLvalue "&")

namespace Pass

/-- Assign the word of the right side to the left side, which must have an address. -/
def assign (right : Pass Draft Operand) (op : Option Op) : Denotation → Pass Draft Operand
  | .address address => do
    let value ← right
    build (Build.assign op address value)
  | _ => throw (.notAnLvalue ("=" ++ (op.map Op.symbol).getD ""))

/-- Choose between two words; only the chosen arm runs. -/
def conditional (thenArm elseArm : Pass Draft Operand) (condition : Denotation) :
    Pass Draft Operand := do
  let group ← build do Build.fork "cond" (← Build.rvalue condition)
  let thenValue ← thenArm
  let thenExit ← build (Build.leave group.last)
  scan (Scan.expect ':' "in conditional expression")
  build (Build.switchTo group.second)
  let elseValue ← elseArm
  build (Build.join group.last thenValue thenExit elseValue)

mutual

/-- An expression whose connectives the level admits. -/
def expressionAt : Nat → Nat → Pass Draft Operand
  | 0, _ => throw (.internal .tooDeep)
  | depth + 1, level => do
    let left ← unary depth
    climb depth level left

/-- Go on after a left operand as long as the level admits a connective. -/
def climb : Nat → Nat → Denotation → Pass Draft Operand
  | 0, _, _ => throw (.internal .tooDeep)
  | depth + 1, level, left => do
    match ← scan (Scan.connective level) with
    | none => build (Build.rvalue left)
    | some .conditional =>
      conditional (expressionAt depth (conditionalLevel - 1)) (expressionAt depth conditionalLevel)
        left
    | some (.assign op) => assign (expressionAt depth assignmentLevel) op left
    | some (.operator op) =>
      let lhs ← build (Build.rvalue left)
      let rhs ← expressionAt depth (op.level - 1)
      let value ← build (op.apply lhs rhs)
      climb depth level (.word value)

/-- An operand with its signs and suffixes. -/
def unary : Nat → Pass Draft Denotation
  | 0 => throw (.internal .tooDeep)
  | depth + 1 => do
    match ← scan Scan.sign with
    | some sign =>
      let operand ← unary depth
      build (sign.apply operand)
    | none =>
      let operand ← primary depth
      suffixes depth operand

/-- Go on after an operand as long as a suffix follows. -/
def suffixes : Nat → Denotation → Pass Draft Denotation
  | 0, _ => throw (.internal .tooDeep)
  | depth + 1, operand => do
    match ← scan Scan.suffix with
    | none => return operand
    | some .subscript =>
      let base ← build (Build.base operand)
      let index ← expressionAt depth fullLevel
      scan (Scan.expect ']' "after subscript")
      let address ← build (Build.element base index)
      suffixes depth (.address address)
    | some .call =>
      let callee ← build (Build.callee operand)
      let arguments ← anyItems ')' "in argument list" (expressionAt depth fullLevel) depth
      let value ← build (Build.call callee arguments)
      suffixes depth (.word value)
    | some .increment =>
      let (old, _) ← build (Build.step .add "++" operand)
      suffixes depth (.word old)
    | some .decrement =>
      let (old, _) ← build (Build.step .sub "--" operand)
      suffixes depth (.word old)

/-- An operand without signs and suffixes. -/
def primary : Nat → Pass Draft Denotation
  | 0 => throw (.internal .tooDeep)
  | depth + 1 => do
    match ← scan Scan.atom with
    | .word value => return .word (.const value)
    | .text text => return .word (← build (Build.string text))
    | .group =>
      let value ← expressionAt depth fullLevel
      scan (Scan.expect ')' "after parenthesized expression")
      return .word value
    | .name name true => build (Build.resolveCallee name)
    | .name name false => build (Build.resolve name)

end

/-- A full expression, evaluated to a word. -/
def expression : Pass Draft Operand := bounded fun depth => expressionAt depth fullLevel

end Pass
end BCompiler
