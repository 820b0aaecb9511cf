import BCompiler.Source.Literal

/-! The words and marks that begin a statement, and the fixed parts inside one. -/
namespace BCompiler

/-- The beginning of a statement, which tells its form. -/
inductive StatementHead where
  | compound
  | empty
  | ifElse
  | whileLoop
  | switch
  | case
  | goto
  | auto
  | extrn
  | ret
  | label (name : String)
  | expression
  deriving DecidableEq, Repr

/-- The form that a keyword begins. -/
def StatementHead.ofKeyword? : String → Option StatementHead
  | "if" => some .ifElse
  | "while" => some .whileLoop
  | "switch" => some .switch
  | "case" => some .case
  | "goto" => some .goto
  | "auto" => some .auto
  | "extrn" => some .extrn
  | "return" => some .ret
  | _ => none

namespace Scan

/-- Read the beginning of a statement; nothing of an expression is read. -/
def statementHead : Scan StatementHead := do
  match ← peekMark with
  | none => throw (.unexpected "statement" none)
  | some '{' =>
    let _ ← read
    return .compound
  | some ';' =>
    let _ ← read
    return .empty
  | some c =>
    if isNameStart c then
      let word ← name
      match StatementHead.ofKeyword? word with
      | some head => return head
      | none =>
        if ← accept ':' then
          return .label word
        else
          unreadAll word
          return .expression
    else
      return .expression

/-- The constant of a case, with the colon after it. -/
def caseConstant : Scan Word := do
  match ← constant? with
  | none => throw (.unexpected "constant after 'case'" (← read))
  | some value =>
    expect ':' "after case constant"
    return value

/-- The size of an array, up to the closing bracket; no size counts as zero. -/
def arraySize (size : Scan Word) : Scan Word := do
  if ← accept ']' then
    return 0
  else
    let value ← size
    expect ']' "after array size"
    return value

/-- A name in an auto declaration, with the size of an array. -/
def autoItem : Scan (String × Option Word) := do
  let found ← someName "name in auto declaration"
  if ← accept '[' then
    let size ← arraySize do
      if ← accept '\'' then character else number
    return (found, some size)
  else
    return (found, none)

end Scan
end BCompiler
