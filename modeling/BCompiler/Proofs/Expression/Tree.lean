import BCompiler.Grammar.Expression
import BCompiler.Proofs.Machine
import BCompiler.Proofs.Source.Token

/-!
Expression trees: their text, their meaning and their code.

The trees are those over constants, scalar variables and the operators on words. The text of a tree
has a blank between any two tokens, and parentheses only where a part would otherwise be read at a
level that does not admit it.
-/
namespace BCompiler

/-- One more or one less. -/
inductive Count where
  | up
  | down
  deriving DecidableEq, Repr

namespace Count

def symbol : Count → String
  | up => "++"
  | down => "--"

def op : Count → BinaryOp
  | up => .add
  | down => .sub

def sign : Count → Sign
  | up => .increment
  | down => .decrement

def next (w : Word) : Count → Word
  | up => w + 1
  | down => w - 1

end Count

inductive Expr where
  | constant (n : Numeral)
  | name (x : Name)
  | negate (e : Expr)
  | not (e : Expr)
  | binary (op : Op) (l r : Expr)
  | conditional (c t e : Expr)
  /-- An assignment, compound if it has an operator. -/
  | assign (op : Option Op) (x : Name) (e : Expr)
  | stepBefore (k : Count) (x : Name)
  | stepAfter (k : Count) (x : Name)
  deriving DecidableEq

/-- The words of the variables. -/
abbrev Env := String → Word

def Env.set (x : String) (w : Word) (env : Env) : Env := fun y => if y = x then w else env y

def Op.eval (a b : Word) : Op → Option Word
  | .binary op => op.eval a b
  | .compare pred => some (.ofBool (pred.eval a b))

namespace Expr

/-- The variables that an expression names. -/
def names : Expr → List Name
  | constant _ => []
  | name x | stepBefore _ x | stepAfter _ x => [x]
  | negate e | not e => e.names
  | binary _ l r => l.names ++ r.names
  | conditional c t e => c.names ++ t.names ++ e.names
  | assign _ x e => x :: e.names

/-- The least level that admits the expression without parentheses. -/
def level : Expr → Nat
  | constant _ | name _ | stepAfter _ _ => 1
  | negate _ | not _ | stepBefore _ _ => 2
  | binary op _ _ => op.level
  | conditional _ _ _ => conditionalLevel
  | assign _ _ _ => assignmentLevel

/-- Tokens in parentheses if they are needed. -/
def enclosed (needed : Bool) (tokens : List String) : List String :=
  if needed then "(" :: tokens ++ [")"] else tokens

/-- The tokens of an expression, without parentheses around it. -/
def bare : Expr → List String
  | constant n => [n.word.decimal]
  | name x => [x.text]
  | negate e => "-" :: enclosed (2 < e.level) e.bare
  | not e => "!" :: enclosed (2 < e.level) e.bare
  | binary op l r =>
    enclosed (op.level < l.level) l.bare ++ op.symbol ::
      enclosed (op.level - 1 < r.level) r.bare
  | conditional c t e =>
    enclosed (conditionalLevel - 1 < c.level) c.bare ++ "?" ::
      enclosed (conditionalLevel - 1 < t.level) t.bare ++ ":" ::
      enclosed (conditionalLevel < e.level) e.bare
  | assign op x e =>
    x.text :: ("=" ++ (op.map Op.symbol).getD "") :: enclosed (assignmentLevel < e.level) e.bare
  | stepBefore k x => [k.symbol, x.text]
  | stepAfter k x => [x.text, k.symbol]

/-- The tokens of an expression where the level is admitted. -/
def tokens (level : Nat) (e : Expr) : List String := enclosed (level < e.level) e.bare

def text (e : Expr) : String := " ".intercalate (e.tokens fullLevel)

/-- The word of an expression and the variables after it, unless something is divided by zero. -/
def eval : Expr → Env → Option (Word × Env)
  | constant n, env => some (n.word, env)
  | name x, env => some (env x.text, env)
  | negate e, env => do
    let (w, env) ← e.eval env
    return (-w, env)
  | not e, env => do
    let (w, env) ← e.eval env
    return (.ofBool (w == 0), env)
  | binary op l r, env => do
    let (a, env) ← l.eval env
    let (b, env) ← r.eval env
    return (← op.eval a b, env)
  | conditional c t e, env => do
    let (w, env) ← c.eval env
    if w = 0 then e.eval env else t.eval env
  | assign none x e, env => do
    let (w, env) ← e.eval env
    return (w, env.set x.text w)
  | assign (some op) x e, env => do
    let (b, env) ← e.eval env
    let w ← op.eval (env x.text) b
    return (w, env.set x.text w)
  | stepBefore k x, env => some (k.next (env x.text), env.set x.text (k.next (env x.text)))
  | stepAfter k x, env => some (env x.text, env.set x.text (k.next (env x.text)))

/-- The code that an expression stands for. -/
def denote : Expr → Build Denotation
  | constant n => return .word (.const n.word)
  | name x => Build.resolve x.text
  | negate e => do Sign.negate.apply (← e.denote)
  | not e => do Sign.not.apply (← e.denote)
  | binary op l r => do
    let lhs ← l.denote >>= Build.rvalue
    let rhs ← r.denote >>= Build.rvalue
    return .word (← op.apply lhs rhs)
  | conditional c t e => do
    let group ← Build.fork "cond" (← c.denote >>= Build.rvalue)
    let thenValue ← t.denote >>= Build.rvalue
    let thenExit ← Build.leave group.last
    Build.switchTo group.second
    let elseValue ← e.denote >>= Build.rvalue
    return .word (← Build.join group.last thenValue thenExit elseValue)
  | assign op x e => do
    match ← Build.resolve x.text with
    | .address address =>
      let value ← e.denote >>= Build.rvalue
      return .word (← Build.assign op address value)
    | _ => throw (.notAnLvalue ("=" ++ (op.map Op.symbol).getD ""))
  | stepBefore k x => do k.sign.apply (← Build.resolve x.text)
  | stepAfter k x => do
    let (old, _) ← Build.step k.op k.symbol (← Build.resolve x.text)
    return .word old

/-- The code that computes the word of an expression. -/
def value (e : Expr) : Build Operand := e.denote >>= Build.rvalue

end Expr
end BCompiler
