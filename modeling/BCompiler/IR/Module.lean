import BCompiler.IR.Function

/-!
A module: its functions, globals and strings, each in the order of first mention.

A function and a global never share a name. Defining a name again replaces its entry in place.
-/
namespace BCompiler

/-- A word known when the module is made. -/
inductive Constant where
  | word (value : Word)
  /-- The address of a global or a string, as a word. -/
  | address (name : String)
  deriving DecidableEq, Repr

/-- The contents of a global when the program starts. -/
inductive GlobalInit where
  | word (value : Constant)
  | words (values : List Constant)
  /-- `length` words, zero after the given values. -/
  | buffer (length : UInt64) (values : List Constant)
  /-- A zero word that gives way to a definition elsewhere. -/
  | placeholder
  deriving DecidableEq, Repr

structure Global where
  name : String
  init : GlobalInit
  deriving DecidableEq, Repr

structure StringConstant where
  name : String
  /-- The contents without the closing zero byte. -/
  bytes : List UInt8
  deriving DecidableEq, Repr

structure Module where
  name : String
  wordBits : Nat
  functions : List Function
  globals : List Global
  strings : List StringConstant
  deriving DecidableEq, Repr

namespace Module

/-- A module that holds nothing yet. -/
def empty (name : String) (wordBits : Nat) : Module := ⟨name, wordBits, [], [], []⟩

def functionId? (m : Module) (name : String) : Option FunctionId :=
  m.functions.findIdx? fun f => f.name == name

def function? (m : Module) (name : String) : Option Function :=
  m.functions.find? fun f => f.name == name

def hasFunction (m : Module) (name : String) : Bool := (m.functionId? name).isSome

def globalId? (m : Module) (name : String) : Option GlobalId :=
  m.globals.findIdx? fun g => g.name == name

def global? (m : Module) (name : String) : Option Global :=
  m.globals.find? fun g => g.name == name

def hasGlobal (m : Module) (name : String) : Bool := (m.globalId? name).isSome

def function (m : Module) (id : FunctionId) : Except Error Function :=
  match m.functions[id]? with
  | some f => .ok f
  | none => .error (.internal (.noSuchFunction id))

theorem hasFunction_iff {m : Module} {name : String} :
    m.hasFunction name ↔ ∃ f ∈ m.functions, f.name = name := by
  simp [hasFunction, functionId?, List.findIdx?_isSome]

theorem hasGlobal_iff {m : Module} {name : String} :
    m.hasGlobal name ↔ ∃ g ∈ m.globals, g.name = name := by
  simp [hasGlobal, globalId?, List.findIdx?_isSome]

/-- The id found for a name belongs to a function of that name. -/
theorem name_of_functionId? {m : Module} {name : String} {id : FunctionId}
    (h : m.functionId? name = some id) : ∃ f, m.functions[id]? = some f ∧ f.name = name := by
  obtain ⟨hid, hname, _⟩ := List.findIdx?_eq_some_iff_getElem.mp h
  exact ⟨m.functions[id], List.getElem?_eq_getElem hid, by simpa using hname⟩

/-- Put a function in the place of the one that has the id. -/
def setFunction (id : FunctionId) (f : Function) (m : Module) : Module :=
  { m with functions := m.functions.set id f }

/-- Put a function in the place of its namesake, or after all others. -/
def insertFunction (f : Function) (m : Module) : FunctionId × Module :=
  match m.functionId? f.name with
  | some id => (id, m.setFunction id f)
  | none => (m.functions.length, { m with functions := m.functions ++ [f] })

/-- Define a function anew, with an empty entry block. -/
def defineFunction (name : String) (params : List String) (m : Module) :
    Except Error (FunctionId × Module) :=
  if m.hasGlobal name then .error (.symbolConflict name .global)
  else .ok (m.insertFunction (.entered name params))

/-- The function of that name, declared if there is none. -/
def declareFunction (name : String) (m : Module) : FunctionId × Module :=
  match m.functionId? name with
  | some id => (id, m)
  | none => m.insertFunction (.declared name)

/-- Define a global, or replace the one of that name. -/
def defineGlobal (name : String) (init : GlobalInit) (m : Module) :
    Except Error (GlobalId × Module) :=
  if m.hasFunction name then .error (.symbolConflict name .function)
  else
    match m.globalId? name with
    | some id => .ok (id, { m with globals := m.globals.set id ⟨name, init⟩ })
    | none => .ok (m.globals.length, { m with globals := m.globals ++ [⟨name, init⟩] })

/-- Add a string and give its symbol; equal texts stay apart. -/
def addString (text : String) (m : Module) : String × Module :=
  let name := ".str." ++ toString m.strings.length
  (name, { m with strings := m.strings ++ [⟨name, utf8Bytes text⟩] })

end Module
end BCompiler
