import BCompiler.IR.Module

/-!
A program under compilation: its module, and the names that the current declaration has bound to
external storage.
-/
namespace BCompiler

structure Program where
  module : Module
  bound : List String
  deriving DecidableEq, Repr

namespace Program

/-- A program without declarations, for words of the given number of bytes. -/
def empty (name : String) (wordSize : Nat) : Program := ⟨.empty name (wordSize * 8), []⟩

def isBound (p : Program) (name : String) : Bool := p.bound.contains name

/-- Forget the bindings of a declaration that is done. -/
def clearScope (p : Program) : Program := { p with bound := [] }

/-- Bind a name to external storage. A function needs no binding; an unknown name gets a
placeholder. -/
def bindExternal (name : String) (p : Program) : Except Error Program := do
  if p.isBound name || p.module.hasFunction name then
    return p
  else if p.module.hasGlobal name then
    return { p with bound := name :: p.bound }
  else
    let (_, module) ← p.module.defineGlobal name .placeholder
    return ⟨module, name :: p.bound⟩

def defineGlobal (name : String) (init : GlobalInit) (p : Program) : Except Error Program := do
  let (_, module) ← p.module.defineGlobal name init
  return { p with module }

/-- A global of one word, zero if no value is given. -/
def declareWord (name : String) (value : Option Constant) (p : Program) : Except Error Program :=
  p.defineGlobal name (.word (value.getD (.word 0)))

/-- A global of consecutive words. -/
def declareWords (name : String) (values : List Constant) (p : Program) : Except Error Program :=
  p.defineGlobal name (.words values)

/-- The number of words that an array of the given size and initial values takes. -/
def arrayLength (size : UInt64) (values : List Constant) : UInt64 :=
  max (max size (UInt64.ofNat values.length)) 1

/-- An array: a buffer, and a word that holds its address. -/
def declareArray (name : String) (size : UInt64) (values : List Constant) (p : Program) :
    Except Error Program := do
  if p.module.hasFunction name then
    throw (.symbolConflict name .function)
  else
    let data := name ++ ".data"
    let p ← p.defineGlobal data (.buffer (arrayLength size values) values)
    p.defineGlobal name (.word (.address data))

/-- Declare a function unless there is one of that name. -/
def declareFunction (name : String) (p : Program) : Program :=
  { p with module := (p.module.declareFunction name).2 }

/-- Add a string and give its symbol. -/
def addString (text : String) (p : Program) : String × Program :=
  let (name, module) := p.module.addString text
  (name, { p with module })

/-- A scalar global: one word, or consecutive words if there are several values. -/
def declareScalar (name : String) (values : List Constant) (p : Program) : Except Error Program :=
  match values with
  | [] => p.declareWord name none
  | [value] => p.declareWord name (some value)
  | values => p.declareWords name values

end Program
end BCompiler
