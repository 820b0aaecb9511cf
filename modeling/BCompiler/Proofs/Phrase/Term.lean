import BCompiler.Proofs.Grammar.Tree
import BCompiler.Proofs.Source.Statement

/-!
Terms: expressions as they are written.

A term keeps the parentheses of its text, and each part of it stands where the level table admits
it, so the tokens of a term can be read in one way only. Whether an operand has an address where one
is needed is not a matter of how it is written: the code of a term may fail.
-/
namespace BCompiler

/-- Whether a text is a number. One that begins with a zero has only octal digits. -/
def isNumber (text : String) : Bool :=
  !text.toList.isEmpty && text.toList.all isDigit &&
    (text.toList.head? != some '0' || text.toList.all isOctalDigit)

structure Digits where
  text : String
  isNumber : isNumber text
  deriving DecidableEq

def Digits.word (n : Digits) : Word :=
  n.text.toList.foldl (Word.snoc (if n.text.toList.head? = some '0' then 8 else 10)) 0

/-- A constant where a word has `size` bytes. -/
inductive Literal (size : Nat) where
  | number (n : Digits)
  | character (l : CharacterLiteral size)
  deriving DecidableEq

namespace Literal

variable {size : Nat}

def token : Literal size → String
  | number n => n.text
  | character l => quoted l.letters

def word : Literal size → Word
  | number n => n.word
  | character l => l.word

end Literal

def Sign.symbol : Sign → String
  | not => "!"
  | negate => "-"
  | increment => "++"
  | decrement => "--"
  | dereference => "*"
  | addressOf => "&"

/-- Where a term stands: where a level is admitted, or in an argument list. At level zero an operand
stands that is not just a name. -/
inductive Rank where
  | level (n : Nat)
  | arguments
  deriving DecidableEq, Repr

theorem Rank.level_ne_arguments (n : Nat) : level n ≠ arguments := by
  intro h
  cases h

/-- What the code of a term gives. -/
abbrev Rank.Result : Rank → Type
  | level _ => Denotation
  | arguments => List Operand

/-- The terms that may stand somewhere, where a word has `size` bytes. -/
inductive Term (size : Nat) : Rank → Type
  | literal {n : Nat} (l : Literal size) : Term size (.level n)
  | string {n : Nat} (letters : List (Letter '"')) : Term size (.level n)
  | name {n : Nat} (h : 1 ≤ n) (x : Name) : Term size (.level n)
  | group {n : Nat} (t : Term size (.level fullLevel)) : Term size (.level n)
  | sign {n : Nat} (h : 2 ≤ n) (s : Sign) (t : Term size (.level 2)) : Term size (.level n)
  | step {n : Nat} (k : Count) (t : Term size (.level 1)) : Term size (.level n)
  | subscript {n : Nat} (base : Term size (.level 1)) (index : Term size (.level fullLevel)) :
      Term size (.level n)
  /-- A call whose callee is a name. -/
  | call {n : Nat} (f : Name) (arguments : Term size .arguments) : Term size (.level n)
  | callThrough {n : Nat} (callee : Term size (.level 0)) (arguments : Term size .arguments) :
      Term size (.level n)
  | binary {n : Nat} (op : Op) (h : op.level ≤ n) (l : Term size (.level op.level))
      (r : Term size (.level (op.level - 1))) : Term size (.level n)
  | conditional {n : Nat} (h : conditionalLevel ≤ n)
      (c t : Term size (.level (conditionalLevel - 1))) (e : Term size (.level conditionalLevel)) :
      Term size (.level n)
  /-- An assignment, compound if it has an operator. -/
  | assign {n : Nat} (op : Option Op) (h : assignmentLevel ≤ n)
      (l : Term size (.level (leftLevel op))) (r : Term size (.level assignmentLevel)) :
      Term size (.level n)
  | none : Term size .arguments
  | cons (t : Term size (.level fullLevel)) (rest : Term size .arguments) : Term size .arguments

namespace Term

variable {size : Nat}

def tokens : {r : Rank} → Term size r → List String
  | _, literal l => [l.token]
  | _, string letters => [quoted letters]
  | _, name _ x => [x.text]
  | _, group t => "(" :: t.tokens ++ [")"]
  | _, sign _ s t => s.symbol :: t.tokens
  | _, step k t => t.tokens ++ [k.symbol]
  | _, subscript base index => base.tokens ++ "[" :: index.tokens ++ ["]"]
  | _, call f arguments => f.text :: "(" :: arguments.tokens ++ [")"]
  | _, callThrough callee arguments => callee.tokens ++ "(" :: arguments.tokens ++ [")"]
  | _, binary op _ l r => l.tokens ++ op.symbol :: r.tokens
  | _, conditional _ c t e => c.tokens ++ "?" :: t.tokens ++ ":" :: e.tokens
  | _, assign op _ l r => l.tokens ++ equals op :: r.tokens
  | _, none => []
  | _, cons t none => t.tokens
  | _, cons t rest => t.tokens ++ "," :: rest.tokens

theorem length_tokens_pos {n : Nat} (t : Term size (.level n)) : 0 < t.tokens.length := by
  cases t <;> simp only [tokens, List.length_append, List.length_cons] <;> omega

/-- The code of a term, with that of its parts first, from left to right. -/
@[simp] def denote : {r : Rank} → Term size r → Build r.Result
  | _, literal l => return Denotation.word (.const l.word)
  | _, string letters => do
    return Denotation.word (← Build.string (String.ofList (letters.map Letter.char)))
  | _, name _ x => Build.resolve x.text
  | _, group t => do return Denotation.word (← Build.rvalue (← t.denote))
  | _, sign _ s t => do s.apply (← t.denote)
  | _, step k t => do
    let (old, _) ← Build.step k.op k.symbol (← t.denote)
    return Denotation.word old
  | _, subscript base index => do
    let pointer ← Build.base (← base.denote)
    let word ← Build.rvalue (← index.denote)
    return Denotation.address (← Build.element pointer word)
  | _, call f arguments => do
    let callee ← Build.callee (← Build.resolveCallee f.text)
    let values ← arguments.denote
    return Denotation.word (← Build.call callee values)
  | _, callThrough callee arguments => do
    let callee ← Build.callee (← callee.denote)
    let values ← arguments.denote
    return Denotation.word (← Build.call callee values)
  | _, binary op _ l r => do
    let lhs ← Build.rvalue (← l.denote)
    let rhs ← Build.rvalue (← r.denote)
    return Denotation.word (← op.apply lhs rhs)
  | _, conditional _ c t e => do
    let group ← Build.fork "cond" (← Build.rvalue (← c.denote))
    let thenValue ← Build.rvalue (← t.denote)
    let thenExit ← Build.leave group.last
    Build.switchTo group.second
    let elseValue ← Build.rvalue (← e.denote)
    return Denotation.word (← Build.join group.last thenValue thenExit elseValue)
  | _, assign op _ l r => do
    match ← l.denote with
    | .address address =>
      let value ← Build.rvalue (← r.denote)
      return Denotation.word (← Build.assign op address value)
    | _ => throw (.notAnLvalue (equals op))
  | _, none => return ([] : List Operand)
  | _, cons t rest => do
    let value ← Build.rvalue (← t.denote)
    return value :: (← rest.denote)

/-- The code that computes the word of a term. -/
def value {n : Nat} (t : Term size (.level n)) : Build Operand := do Build.rvalue (← t.denote)

/-- Whether a statement may begin with the term: a name at its beginning must not be taken for the
beginning of another statement. -/
def isPlain : {r : Rank} → Term size r → Bool
  | _, name _ x => x.isPlain
  | _, call f _ => f.isPlain
  | _, step _ t | _, subscript t _ | _, callThrough t _ | _, binary _ _ t _ | _, conditional _ t _ _
  | _, assign _ _ t _ => t.isPlain
  | _, literal _ | _, string _ | _, group _ | _, sign _ _ _ | _, none | _, cons _ _ => true

end Term
end BCompiler
