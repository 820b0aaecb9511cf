/-!
The arguments of the command.

They are taken from left to right, and the first that is wrong refuses all of them. Asking for help
or for the version ends the reading where it stands.
-/
namespace BCompiler

/-- A compilation that the arguments ask for. -/
structure Invocation where
  /-- The first source, which also names the module. -/
  input : String
  others : List String
  output : Option String
  wordSize : Nat
  stats : Bool
  verbose : Bool
  deriving DecidableEq, Repr

/-- What the arguments ask for. -/
inductive Request where
  | refused
  | help
  | version
  | compile (invocation : Invocation)
  deriving DecidableEq, Repr

/-- Why the reading of arguments ends early. -/
inductive Halt where
  | refused
  | help
  | version
  deriving DecidableEq, Repr

/-- The arguments read so far; inputs stand last one first. -/
structure Arguments where
  inputs : List String
  output : Option String
  wordSize : Option Nat
  stats : Bool
  verbose : Bool
  deriving DecidableEq, Repr

namespace Arguments

def none : Arguments := ⟨[], .none, .none, false, false⟩

def addInput (input : String) (a : Arguments) : Except Halt Arguments :=
  if input = "" then .error .refused else .ok { a with inputs := input :: a.inputs }

def addInputs : List String → Arguments → Except Halt Arguments
  | [], a => .ok a
  | input :: inputs, a => do addInputs inputs (← a.addInput input)

def setOutput (value : String) (a : Arguments) : Except Halt Arguments :=
  if value = "" || a.output.isSome then .error .refused
  else .ok { a with output := some value }

def isDecimal (digits : List Char) : Bool :=
  !digits.isEmpty && digits.all fun c => Nat.ble 48 c.toNat && Nat.ble c.toNat 57

/-- A decimal number, with a plus sign if it has any. -/
def number? (text : List Char) : Option Nat :=
  let digits := if text.head? = some '+' then text.tail else text
  if isDecimal digits then some (digits.foldl (fun n c => 10 * n + (c.toNat - 48)) 0) else .none

/-- The word size is a number of bytes from one to eight. -/
def setWordSize (value : String) (a : Arguments) : Except Halt Arguments :=
  match number? value.toList with
  | some size =>
    if 1 ≤ size ∧ size ≤ 8 ∧ a.wordSize.isNone then .ok { a with wordSize := some size }
    else .error .refused
  | .none => .error .refused

def setStats (a : Arguments) : Except Halt Arguments :=
  if a.stats then .error .refused else .ok { a with stats := true }

def setVerbose (a : Arguments) : Except Halt Arguments :=
  if a.verbose then .error .refused else .ok { a with verbose := true }

/-- The rest of an argument of short flags, and whether the next argument is the output. -/
def shortFlags : List Char → Arguments → Except Halt (Arguments × Bool)
  | [], a => .ok (a, false)
  | 'v' :: flags, a => do shortFlags flags (← a.setVerbose)
  | 'h' :: _, _ => .error .help
  | 'V' :: _, _ => .error .version
  | ['o'], a => .ok (a, true)
  | 'o' :: '=' :: value, a => return (← a.setOutput (String.ofList value), false)
  | 'o' :: value, a => return (← a.setOutput (String.ofList value), false)
  | _, _ => .error .refused

/-- What an option does with its value. -/
def valueOption? : String → Option (String → Arguments → Except Halt Arguments)
  | "output" => some setOutput
  | "word-size" => some setWordSize
  | _ => .none

/-- A long flag without a value. -/
def longFlag (name : String) (a : Arguments) : Except Halt Arguments :=
  match name with
  | "stats" => a.setStats
  | "verbose" => a.setVerbose
  | "help" => .error .help
  | "version" => .error .version
  | _ => .error .refused

/-- Whether an argument may be the value of the option in front of it. -/
def isValue (argument : String) : Bool :=
  argument == "-" || argument.toList.head? != some '-'

/-- Read arguments in order. -/
def read : List String → Arguments → Except Halt Arguments
  | [], a => .ok a
  | argument :: rest, a =>
    match argument.toList with
    | ['-', '-'] => a.addInputs rest
    | '-' :: '-' :: long =>
      let name := String.ofList (long.takeWhile fun c => c != '=')
      match valueOption? name, long.drop name.length, rest with
      | some set, _ :: value, rest => do read rest (← set (String.ofList value) a)
      | some set, [], value :: rest => do
        if isValue value then read rest (← set value a) else throw .refused
      | some _, [], [] => throw .refused
      | .none, [], rest => do read rest (← a.longFlag name)
      | .none, _ :: _, _ => throw .refused
    | '-' :: flag :: flags => do
      match ← shortFlags (flag :: flags) a, rest with
      | (a, false), rest => read rest a
      | (a, true), value :: rest =>
        if isValue value then read rest (← a.setOutput value) else throw .refused
      | (_, true), [] => throw .refused
    | _ => do read rest (← a.addInput argument)

end Arguments

/-- What a list of arguments asks for. -/
def Request.ofArguments (arguments : List String) : Request :=
  match Arguments.none.read arguments with
  | .error .refused => .refused
  | .error .help => .help
  | .error .version => .version
  | .ok a =>
    match a.inputs.reverse with
    | [] => .refused
    | input :: others =>
      .compile ⟨input, others, a.output, a.wordSize.getD 8, a.stats, a.verbose⟩

end BCompiler
