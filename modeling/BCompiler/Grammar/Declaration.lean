import BCompiler.Grammar.Statement

/-!
Declarations.

A program is a sequence of declarations, each of which starts with a name: a function if a
parenthesis follows, an array if a bracket does, and a scalar otherwise. Globals are initialized
by constants only.
-/
namespace BCompiler
namespace Pass

/-- Change the program by a step that may fail; a failure changes nothing. -/
def update (change : Program → Except Error Program) : Pass Program Unit :=
  build fun p =>
    match change p with
    | .ok p' => .ok () p'
    | .error e => .error e p

def addString (text : String) : Pass Program String :=
  build fun p =>
    let (name, p') := p.addString text
    .ok name p'

/-- One constant of an initializer; a name is none. -/
def initializer : Pass Program Constant := do
  match ← scan Scan.constant? with
  | some value => return .word value
  | none =>
    if (← scan Scan.peek).any isNameStart then
      throw (.unsupportedInitializer (← scan Scan.name))
    else
      match ← scan Scan.read with
      | some '"' =>
        let text ← scan Scan.string
        return .address (← addString text)
      | some '-' => return .word (-(← scan Scan.number))
      | found => throw (.unexpected "constant initializer" found)

/-- Constants up to and including the closing semicolon. -/
def initializers : Pass Program (List Constant) :=
  bounded (anyItems ';' "after initializer" initializer)

/-- The parameters of a function, after the opening parenthesis. -/
def parameters : Pass Program (List String) :=
  bounded (anyItems ')' "in parameter list" (scan (Scan.someName "parameter name")))

/-- The body of a function, up to the end of its draft. -/
def functionBody : Pass Draft Unit := do
  statement
  let _ ← build Build.finish

/-- Run a step on the draft of a new function. However it ends, the function stays in the module
as far as it was built. -/
def drafted (name : String) (params : List String) (body : Pass Draft Unit) : Pass Program Unit :=
  fun s =>
    match Draft.start name params s.target with
    | .error (e, program) => .error e { s with target := program }
    | .ok draft =>
      match body ⟨s.cursor, draft⟩ with
      | .ok _ s' => .ok () ⟨s'.cursor, s'.target.close⟩
      | .error e s' => .error e ⟨s'.cursor, s'.target.close⟩

def function (name : String) : Pass Program Unit := do
  let params ← parameters
  drafted name params functionBody

def array (name : String) : Pass Program Unit := do
  let size ← scan (Scan.arraySize Scan.number)
  let values ← initializers
  update (Program.declareArray name size.count values)

def scalar (name : String) : Pass Program Unit := do
  let values ← initializers
  update (Program.declareScalar name values)

/-- The rest of a declaration after its name. -/
def declaration (name : String) : Pass Program Unit := do
  match ← scan Scan.peekMark with
  | some '(' =>
    let _ ← scan Scan.read
    function name
  | some '[' =>
    let _ ← scan Scan.read
    array name
  | _ => scalar name

/-- Declarations up to the end of the text. Bindings end with their declaration. -/
def declarationsAt : Nat → Pass Program Unit
  | 0 => throw (.internal .tooDeep)
  | depth + 1 => do
    let name ← scan Scan.name
    if name = "" then
      match ← scan Scan.peek with
      | none => return
      | some c => throw (.unexpected "declaration name" (some c))
    else
      declaration name
      update fun p => .ok p.clearScope
      declarationsAt depth

def declarations : Pass Program Unit := bounded declarationsAt

end Pass
end BCompiler
