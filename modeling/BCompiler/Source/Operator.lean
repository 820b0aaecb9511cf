import BCompiler.IR.Instr
import BCompiler.Source.Literal

/-!
The marks between and around operands.

Connectives stand between two operands and are told apart by level: a higher level binds less
tightly. An assignment is an equals sign, with the operator of a compound assignment after it,
taken as soon as the next character matches: `x=-1` subtracts one from `x`.
-/
namespace BCompiler

/-- An operator between two words. -/
inductive Op where
  | binary (op : BinaryOp)
  | compare (pred : Predicate)
  deriving DecidableEq, Repr

namespace Op

def symbol : Op → String
  | binary .add => "+"
  | binary .sub => "-"
  | binary .mul => "*"
  | binary .div => "/"
  | binary .rem => "%"
  | binary .shl => "<<"
  | binary .shr => ">>"
  | binary .and => "&"
  | binary .or => "|"
  | compare .eq => "=="
  | compare .ne => "!="
  | compare .lt => "<"
  | compare .le => "<="
  | compare .gt => ">"
  | compare .ge => ">="

/-- The least level that admits the operator; its right operand is one level tighter. -/
def level : Op → Nat
  | binary .mul | binary .div | binary .rem => 3
  | binary .add | binary .sub => 4
  | binary .shl | binary .shr => 5
  | compare .lt | compare .le | compare .gt | compare .ge => 6
  | compare .eq | compare .ne => 7
  | binary .and => 8
  | binary .or => 10

/-- The longest operator at the head of a text, with the number of its characters. -/
def head? : List Char → Option (Op × Nat)
  | '+' :: _ => some (binary .add, 1)
  | '-' :: _ => some (binary .sub, 1)
  | '*' :: _ => some (binary .mul, 1)
  | '/' :: _ => some (binary .div, 1)
  | '%' :: _ => some (binary .rem, 1)
  | '&' :: _ => some (binary .and, 1)
  | '|' :: _ => some (binary .or, 1)
  | '<' :: '<' :: _ => some (binary .shl, 2)
  | '<' :: '=' :: _ => some (compare .le, 2)
  | '<' :: _ => some (compare .lt, 1)
  | '>' :: '>' :: _ => some (binary .shr, 2)
  | '>' :: '=' :: _ => some (compare .ge, 2)
  | '>' :: _ => some (compare .gt, 1)
  | '=' :: '=' :: _ => some (compare .eq, 2)
  | '!' :: '=' :: _ => some (compare .ne, 2)
  | _ => none

end Op

/-- The levels above the operators. The middle arm of a conditional is one level below it. -/
def conditionalLevel : Nat := 13
def assignmentLevel : Nat := 14
def fullLevel : Nat := 15

/-- What may stand between two operands. -/
inductive Connective where
  | operator (op : Op)
  | conditional
  /-- An assignment, compound if it has an operator. -/
  | assign (op : Option Op)
  deriving DecidableEq, Repr

namespace Connective

/-- What follows an equals sign, with the number of characters of the whole mark. -/
def afterEquals (level : Nat) (rest : List Char) : Option (Connective × Nat) :=
  if assignmentLevel ≤ level then
    match Op.head? rest, rest with
    | some (op, length), _ => some (assign (some op), length + 1)
    | none, '=' :: _ => some (operator (.compare .eq), 2)
    | none, _ => some (assign none, 1)
  else
    match rest with
    | '=' :: _ =>
      if (Op.compare .eq).level ≤ level then some (operator (.compare .eq), 2) else none
    | _ => none

/-- The connective at the head of a text if the level admits it, with the number of its
characters. A doubled sign is never taken for a sum or a difference. -/
def head? (level : Nat) : List Char → Option (Connective × Nat)
  | '?' :: _ => if conditionalLevel ≤ level then some (conditional, 1) else none
  | '=' :: rest => afterEquals level rest
  | '+' :: '+' :: _ => none
  | '-' :: '-' :: _ => none
  | text =>
    match Op.head? text with
    | some (op, length) => if op.level ≤ level then some (operator op, length) else none
    | none => none

end Connective

/-- What may stand in front of an operand. -/
inductive Sign where
  | not
  | negate
  | increment
  | decrement
  | dereference
  | addressOf
  deriving DecidableEq, Repr

/-- The sign at the head of a text, with the number of its characters. A lone plus is none. -/
def Sign.head? : List Char → Option (Sign × Nat)
  | '!' :: _ => some (not, 1)
  | '*' :: _ => some (dereference, 1)
  | '&' :: _ => some (addressOf, 1)
  | '+' :: '+' :: _ => some (increment, 2)
  | '-' :: '-' :: _ => some (decrement, 2)
  | '-' :: _ => some (negate, 1)
  | _ => none

/-- What may follow an operand. -/
inductive Suffix where
  | subscript
  | call
  | increment
  | decrement
  deriving DecidableEq, Repr

def Suffix.head? : List Char → Option (Suffix × Nat)
  | '[' :: _ => some (subscript, 1)
  | '(' :: _ => some (call, 1)
  | '+' :: '+' :: _ => some (increment, 2)
  | '-' :: '-' :: _ => some (decrement, 2)
  | _ => none

/-- An operand without signs and suffixes. -/
inductive Atom where
  | word (value : Word)
  | text (value : String)
  /-- An opening parenthesis. -/
  | group
  /-- A name, and whether an argument list follows. -/
  | name (name : String) (called : Bool)
  deriving DecidableEq, Repr

namespace Scan

/-- The connective that comes next after blanks, if the level admits one. -/
def connective (level : Nat) : Scan (Option Connective) := do
  blanks
  head? (Connective.head? level)

def suffix : Scan (Option Suffix) := do
  blanks
  head? Suffix.head?

/-- The sign that comes next after blanks, if any. Something must come. -/
def sign : Scan (Option Sign) := do
  blanks
  match ← head? Sign.head? with
  | some sign => return some sign
  | none =>
    match ← peek with
    | none => throw (.unexpected "expression" none)
    | some '+' =>
      let _ ← read
      throw (.unexpected "'+' after '+'" (← read))
    | some _ => return none

/-- An operand without signs and suffixes, as far as it is read before anything is built. -/
def atom : Scan Atom := do
  match ← constant? with
  | some value => return .word value
  | none =>
    if (← peek).any isNameStart then
      let found ← name
      return .name found ((← peekMark) == some '(')
    else
      match ← read with
      | some '"' => return .text (← string)
      | some '(' => return .group
      | found => throw (.unexpected "expression" found)

end Scan
end BCompiler
