import BCompiler.Grammar.Expression
import BCompiler.Source.Statement

/-!
Statements.

Each form adds its blocks to the control-flow graph while it is read. A branch into a block is only
added while the current block is open, so every block ends once. The forms are read by the steps of
the pass wherever these can be taken, and what is read is told where it matters to the names of the
function.
-/
namespace BCompiler

/-- A switch whose body is being read: the number of its blocks, and its cases so far. -/
structure Switch where
  group : Nat
  cases : List (Word × BlockId)
  deriving DecidableEq, Repr

/-- A place in the body of a function that matters to its names. -/
inductive Mark where
  /-- The beginning of a statement. -/
  | statement
  | goto (name : String)
  /-- The definition of a label. -/
  | label (name : String)
  /-- A local name with the size of an array. -/
  | auto (name : String) (size : Option Word)
  deriving DecidableEq, Repr

/-- Statements can be read here: some steps are taken at a mark. -/
class MonadMark (m : Type → Type) extends MonadPass Draft m where
  mark {α : Type} : Mark → Pass Draft α → m α

/-- The compiler takes every step alike. -/
instance : MonadMark (Pass Draft) where
  mark _ step := step

/-- A statement inside the innermost enclosing switch, if any, which it may give new cases. -/
abbrev BodyOf (m : Type → Type) := Option Switch → m (Option Switch)

abbrev Body := BodyOf (Pass Draft)

namespace Build

/-- Go to a label; what follows cannot be reached. -/
def goto (name : String) : Build Unit := do
  branchIfOpen (← labelBlock name)
  switchTo (← newBlock ("unreachable." ++ toString (← freshGroup)))

/-- Declare a local name, an array if a size is given. -/
def declareAuto (name : String) : Option Word → Build Unit
  | none => declareLocal name
  | some size => declareLocalArray name size.count

/-- Fall into a block unless the current one has ended, and go on in another. -/
def fallInto (target next : BlockId) : Build Unit := do
  branchIfOpen target
  switchTo next

/-- The blocks of a loop; its condition comes next. -/
def loop : Build BlockGroup := do
  let group ← newGroup "while" "cond" "body" "end"
  enter group.first
  return group

/-- Run the body of a loop or leave it; the body comes next. -/
def test (word : Operand) (group : BlockGroup) : Build Unit := do
  condBranch word group.second group.last
  switchTo group.second

/-- The blocks of a switch; its body comes next. -/
def select : Build BlockGroup := do
  let group ← newGroup "switch" "stmts" "cmp" "end"
  fallInto group.second group.first
  return group

/-- Dispatch to the cases of a switch, or past it. -/
def dispatch (value : Operand) (cases : List (Word × BlockId)) (otherwise : BlockId) :
    Build Unit :=
  if cases.isEmpty then branch otherwise else terminate (.switch value otherwise cases)

/-- Dispatch to the cases of a switch whose body is done, and go on behind it. -/
def settle (value : Operand) (cases : List (Word × BlockId)) (group : BlockGroup) :
    Build Unit := do
  fallInto group.last group.second
  dispatch value cases group.last
  switchTo group.last

/-- The block of a case, which the code before it falls into. -/
def caseBlock (group : Nat) (value : Word) : Build BlockId := do
  let block ← newBlock ("case." ++ toString group ++ "." ++ value.decimal)
  enter block
  return block

/-- Define a label here and fall into its block. -/
def placeLabel (name : String) : Build Unit := do enter (← defineLabel name)

end Build

namespace Pass

open MonadPass (step)
open MonadMark (mark)

variable {m : Type → Type} [Monad m] [MonadMark m]

/-- The statement after a label, which may be left out before a closing brace. -/
def labelled (body : BodyOf m) : BodyOf m := fun enclosing => do
  if (← step (scan Scan.peekMark)) = some '}' then return enclosing else body enclosing

/-- The other arm of a conditional statement, which may be left out. -/
def elsePart (body : BodyOf m) : BodyOf m := fun enclosing => do
  if ← step (scan (Scan.keyword "else")) then body enclosing else return enclosing

def ifElse (condition : Pass Draft Operand) (body : BodyOf m) : BodyOf m := fun enclosing => do
  step (scan (Scan.expect '(' "after 'if'"))
  let word ← step condition
  step (scan (Scan.expect ')' "after if condition"))
  let group ← step (build (Build.fork "if" word))
  let enclosing ← body enclosing
  step (build (Build.fallInto group.last group.second))
  let enclosing ← elsePart body enclosing
  step (build (Build.enter group.last))
  return enclosing

def whileLoop (condition : Pass Draft Operand) (body : BodyOf m) : BodyOf m := fun enclosing => do
  let group ← step (build Build.loop)
  step (scan (Scan.expect '(' "after 'while'"))
  let word ← step condition
  step (scan (Scan.expect ')' "after while condition"))
  step (build (Build.test word group))
  let enclosing ← body enclosing
  step (build (Build.fallInto group.first group.last))
  return enclosing

/-- The body of a switch is reached through its cases only. -/
def switch (value : Pass Draft Operand) (body : BodyOf m) : m Unit := do
  let word ← step value
  let group ← step (build Build.select)
  let inner ← body (some ⟨group.number, []⟩)
  step (build (Build.settle word ((inner.map Switch.cases).getD []) group))

def case (body : BodyOf m) : BodyOf m
  | none => step (throw .caseOutsideSwitch)
  | some enclosing => do
    let value ← step (scan Scan.caseConstant)
    if enclosing.cases.any fun arm => arm.1 == value then
      step (throw (.duplicateCase value))
    else
      let block ← step (build (Build.caseBlock enclosing.group value))
      labelled body (some { enclosing with cases := enclosing.cases ++ [(value, block)] })

def goto : m Unit := do
  let name ← step (scan (Scan.someName "label name after 'goto'"))
  mark (.goto name) (build (Build.goto name))
  step (scan (Scan.expect ';' "after goto"))

def label (name : String) (body : BodyOf m) : BodyOf m := fun enclosing => do
  mark (.label name) (build (Build.placeLabel name))
  labelled body enclosing

def auto : m Unit := do
  let (name, size) ← step (scan Scan.autoItem)
  mark (.auto name size) (build (Build.declareAuto name size))

def extrn : Pass Draft Unit := do
  let name ← scan (Scan.someName "name in extrn declaration")
  build (Build.bindExternal name)

def ret (value : Pass Draft Operand) : Pass Draft Unit := do
  let found ← scan Scan.readMark
  match found with
  | some ';' => build (Build.ret (.const 0))
  | some '(' =>
    let word ← value
    scan (Scan.expect ')' "after return value")
    scan (Scan.expect ';' "after return")
    build (Build.ret word)
  | _ => throw (.unexpected "'(' or ';' after 'return'" found)

mutual

/-- A statement, with the bound on its nesting. -/
def statementOf : Nat → BodyOf m
  | 0, _ => step (throw (.internal .tooDeep))
  | depth + 1, enclosing => do
    match ← mark .statement (scan Scan.statementHead) with
    | .compound => statementsOf depth enclosing
    | .empty => return enclosing
    | .ifElse => ifElse (expressionAt depth fullLevel) (statementOf depth) enclosing
    | .whileLoop => whileLoop (expressionAt depth fullLevel) (statementOf depth) enclosing
    | .case => case (statementOf depth) enclosing
    | .label name => label name (statementOf depth) enclosing
    | .switch =>
      switch (expressionAt depth fullLevel) (statementOf depth)
      return enclosing
    | .goto =>
      goto
      return enclosing
    | .auto =>
      let _ ← items ';' "in auto declaration" auto depth
      return enclosing
    | .extrn =>
      let _ ← step (items ';' "in extrn declaration" extrn depth)
      return enclosing
    | .ret =>
      step (ret (expressionAt depth fullLevel))
      return enclosing
    | .expression =>
      let _ ← step (expressionAt depth fullLevel)
      step (scan (Scan.expect ';' "after expression statement"))
      return enclosing

/-- Statements up to and including a closing brace. -/
def statementsOf : Nat → BodyOf m
  | 0, _ => step (throw (.internal .tooDeep))
  | depth + 1, enclosing => do
    if ← step (scan (Scan.accept '}')) then
      return enclosing
    else if ← step (scan Scan.atEnd) then
      step (throw (.unexpected "'\x7d' to close block" none))
    else
      let enclosing ← statementOf depth enclosing
      statementsOf depth enclosing

end

def statementAt : Nat → Body := statementOf

def statements : Nat → Body := statementsOf

/-- A statement outside of any switch. -/
def statement : Pass Draft Unit := bounded fun depth => do
  let _ ← statementAt depth none

end Pass
end BCompiler
