import BCompiler.Draft.Emit

/-!
Names inside a function: its locals, the functions and globals of the program, and its labels.

A local name hides every other. Labels have names of their own and may be used before they are
defined.
-/
namespace BCompiler

/-- What an expression stands for. -/
inductive Denotation where
  | word (value : Operand)
  /-- The word at an address. -/
  | address (address : Operand)
  /-- A function of the module, by name. -/
  | function (name : String)
  deriving DecidableEq, Repr

/-- Mark a label as defined if it has the name. -/
def Label.define (name : String) (label : Label) : Label :=
  if label.name == name then { label with defined := true } else label

/-- Whether a name comes before another in code point order. -/
def nameBefore (a b : String) : Bool := a.toList.lex b.toList fun c d => Nat.blt c.toNat d.toNat

/-- The first of the names in code point order. -/
def leastName : List String → Option String
  | [] => none
  | name :: names =>
    match leastName names with
    | none => some name
    | some least => some (if nameBefore name least then name else least)

namespace Build

/-- A stack slot for a new local name. -/
def slot (name : String) (words : Option UInt64) : Build Operand := do
  match (← get).locals.lookup name with
  | some _ => throw (.redeclared name)
  | none =>
    let address ← onFunction (Function.pushSlot words)
    modify fun d => { d with locals := (name, address) :: d.locals }
    return address

/-- A stack slot for each parameter, with the parameter stored in it. -/
def spill : List String → Build Unit
  | [] => return
  | param :: params => do
    store (.param param) (← slot param none)
    spill params

/-- A local word, zero at first. -/
def declareLocal (name : String) : Build Unit := do
  store (.const 0) (← slot name none)

/-- The number of words that a local array takes: its data, at least one word, and its head. -/
def localArrayLength (size : UInt64) : UInt64 := max size 1 + 1

/-- A local array: a word that holds the address of the data words behind it. -/
def declareLocalArray (name : String) (size : UInt64) : Build Unit := do
  let length := localArrayLength size
  let head ← slot name (some length)
  let first ← emit (.arrayElement head length 1)
  store (← toWord first) head

def bindExternal (name : String) : Build Unit :=
  onProgram fun p => return ((), ← p.bindExternal name)

/-- A name used as a value: a local, else a function, else a global bound here. -/
def resolve (name : String) : Build Denotation := do
  let d ← get
  match d.locals.lookup name with
  | some address => return .address address
  | none =>
    if d.program.module.hasFunction name then return .word (← toWord (.symbol name))
    else if d.program.isBound name then return .address (.symbol name)
    else throw (.undefinedName name)

/-- A name used as a callee. A local or a global is called through its word; an unknown name
becomes a declared function. -/
def resolveCallee (name : String) : Build Denotation := do
  let d ← get
  match d.locals.lookup name with
  | some address => return .address address
  | none =>
    if d.program.module.hasFunction name then
      return .function name
    else if d.program.isBound name || d.program.module.hasGlobal name then
      return .address (.symbol name)
    else
      onProgram fun p => .ok ((), p.declareFunction name)
      return .function name

/-- The word that a denotation stands for. -/
def rvalue : Denotation → Build Operand
  | .word value => return value
  | .address address => load address
  | .function name => toWord (.symbol name)

/-- The block of a label, made when the label is first mentioned. -/
def labelBlock (name : String) : Build BlockId := do
  match (← get).labels.find? fun label => label.name == name with
  | some label => return label.block
  | none =>
    let block ← newBlock ("label." ++ name)
    modify fun d => { d with labels := d.labels ++ [⟨name, block, false⟩] }
    return block

/-- The block of a label that is defined here, which must not be defined elsewhere. -/
def defineLabel (name : String) : Build BlockId := do
  let block ← labelBlock name
  if (← get).labels.any fun label => label.name == name && label.defined then
    throw (.duplicateLabel name)
  else
    modify fun d => { d with labels := d.labels.map (Label.define name) }
    return block

/-- Check that every label is defined, and return zero at the end of the function. -/
def finish : Build FunctionId := do
  let undefined := (← get).labels.filter fun label => !label.defined
  match leastName (undefined.map Label.name) with
  | some name => throw (.undefinedLabel name)
  | none =>
    terminateIfOpen (.ret (.const 0))
    return (← get).id

end Build

namespace Draft

/-- The draft of an empty function. -/
def ofFunction (program : Program) (id : FunctionId) (function : Function) : Draft :=
  ⟨program, id, function, 0, [], [], 0⟩

/-- Define a function anew and begin its draft. A failure tells what it leaves of the program. -/
def start (name : String) (params : List String) (program : Program) :
    Except (Error × Program) Draft :=
  match program.module.defineFunction name params with
  | .error e => .error (e, program)
  | .ok (id, module) =>
    match Build.spill params (ofFunction { program with module } id (.entered name params)) with
    | .ok _ d => .ok d
    | .error e d => .error (e, d.close)

end Draft
end BCompiler
