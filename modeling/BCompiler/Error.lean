import BCompiler.Word
import BCompiler.Text.Spelling

/-!
Everything that can stop a compilation, and the wording of each cause.

An error found inside a source is wrapped once with the place where it surfaced.
-/
namespace BCompiler

/-- The two kinds of named symbols that a module keeps apart. -/
inductive SymbolKind where
  | function
  | global
  deriving DecidableEq, Repr

def SymbolKind.noun : SymbolKind → String
  | .function => "function"
  | .global => "global"

/-- Faults of the compiler itself rather than of its input. -/
inductive Fault where
  /-- A block that already ends was ended again. -/
  | terminatedTwice (block : String)
  /-- An id that names no function of the module. -/
  | noSuchFunction (id : Nat)
  /-- An id that names no block of the function. -/
  | noSuchBlock (id : Nat)
  /-- The bound on the nesting of a source was too small. -/
  | tooDeep
  deriving DecidableEq, Repr

def Fault.reason : Fault → String
  | .terminatedTwice block => "block '" ++ block ++ "' terminated twice"
  | .noSuchFunction id => "no function " ++ toString id
  | .noSuchBlock id => "no block " ++ toString id
  | .tooDeep => "nesting too deep"

inductive Error where
  | unclosedComment
  | unclosedCharacter
  | unterminatedString
  | undefinedEscape (c : Char)
  | invalidOctalDigit (c : Char)
  /-- Something else was expected; nothing was found at the end of the text. -/
  | unexpected (expected : String) (found : Option Char)
  | undefinedName (name : String)
  /-- The operand of this operator has no address. -/
  | notAnLvalue (operator : String)
  | caseOutsideSwitch
  | unsupportedInitializer (name : String)
  | undefinedLabel (name : String)
  | duplicateLabel (name : String)
  | duplicateCase (value : Word)
  | redeclared (name : String)
  | symbolConflict (name : String) (kind : SymbolKind)
  | internal (fault : Fault)
  /-- An error with the source and line where it surfaced. -/
  | located (path : String) (line : Nat) (error : Error)
  /-- A file that could not be read or written, with the reason the system gives. -/
  | io (path : String) (reason : String)
  deriving DecidableEq, Repr

namespace Error

/-- What stood at the place of an unmet expectation. -/
def foundText : Option Char → String
  | some c => "'" ++ shownChar c ++ "'"
  | none => "end of file"

def message : Error → String
  | unclosedComment => "unclosed comment"
  | unclosedCharacter => "unclosed char literal"
  | unterminatedString => "unterminated string"
  | undefinedEscape c => "undefined escape character '*" ++ String.singleton c ++ "'"
  | invalidOctalDigit c => "invalid digit '" ++ String.singleton c ++ "' in octal constant"
  | unexpected expected found => "expect " ++ expected ++ ", got " ++ foundText found
  | undefinedName name => "undefined identifier '" ++ name ++ "'"
  | notAnLvalue operator => "left operand of '" ++ operator ++ "' must be an lvalue"
  | caseOutsideSwitch => "case label outside of switch"
  | unsupportedInitializer name =>
    "unsupported initializer '" ++ name ++ "', only constants are allowed"
  | undefinedLabel name => "label '" ++ name ++ "' used but never defined"
  | duplicateLabel name => "label '" ++ name ++ "' defined more than once"
  | duplicateCase value => "duplicate case value " ++ value.decimal
  | redeclared name => "'" ++ name ++ "' is already declared in this function"
  | symbolConflict name kind => "'" ++ name ++ "' is already defined as a " ++ kind.noun
  | internal fault => "internal code generation error: " ++ fault.reason
  | located path line error => path ++ ":" ++ toString line ++ ": " ++ error.message
  | io path reason => path ++ ": " ++ reason

/-- The error with the place where it surfaced; one that already tells where it belongs stays. -/
def locate (path : String) (line : Nat) : Error → Error
  | located path' line' error => located path' line' error
  | io path' reason => io path' reason
  | error => located path line error

/-- The error without the place where it surfaced. -/
def cause : Error → Error
  | located _ _ error => error.cause
  | error => error

theorem locate_located (path path' : String) (line line' : Nat) (e : Error) :
    (located path' line' e).locate path line = located path' line' e := rfl

/-- Only the first place counts. -/
theorem locate_locate (path path' : String) (line line' : Nat) (e : Error) :
    (e.locate path' line').locate path line = e.locate path' line' := by
  cases e <;> rfl

theorem cause_locate (path : String) (line : Nat) (e : Error) :
    (e.locate path line).cause = e.cause := by
  cases e <;> rfl

end Error
end BCompiler
