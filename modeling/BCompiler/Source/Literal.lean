import BCompiler.Source.Name

/-!
Numbers, character literals and strings.

A number with a leading zero is octal. A character literal packs up to one word of bytes, the
first one highest. Character literals and strings share the escapes that a star begins.
-/
namespace BCompiler

/-- The character that an escape stands for. -/
def escaped? : Char → Option Char
  | '0' => some '\x00'
  | 'e' => some '\x00'
  | 't' => some '\t'
  | 'n' => some '\n'
  | 'r' => some '\r'
  | '(' => some '\x7b'
  | ')' => some '\x7d'
  | '\'' => some '\''
  | '"' => some '"'
  | '*' => some '*'
  | _ => none

def isOctalDigit (c : Char) : Bool := Nat.ble 48 c.toNat && Nat.ble c.toNat 55

namespace Scan

/-- The integer constant that comes next after blanks. -/
def number : Scan Word := do
  blanks
  fun c =>
    let digits := c.unread.takeWhile isDigit
    if digits.isEmpty then .error (.unexpected "number" c.unread.head?) c
    else if digits.head? = some '0' then
      let octal := digits.takeWhile isOctalDigit
      match digits.drop octal.length with
      | bad :: _ => .error (.invalidOctalDigit bad) (c.skip (octal.length + 1))
      | [] => .ok (octal.foldl (Word.snoc 8) 0) (c.skip octal.length)
    else .ok (digits.foldl (Word.snoc 10) 0) (c.skip digits.length)

/-- The character after the star of an escape, or nothing at the end of the text. -/
def escape : Scan (Option Char) := do
  match ← read with
  | none => return none
  | some c =>
    match escaped? c with
    | some decoded => return some decoded
    | none => throw (.undefinedEscape c)

/-- The rest of a character literal that may hold `room` more characters after `value`. -/
def characterFrom : Nat → Word → Scan Word
  | 0, value => do
    if (← read) = some '\'' then return value else throw .unclosedCharacter
  | room + 1, value => do
    match ← read with
    | none => throw .unclosedCharacter
    | some '\'' => return value
    | some '*' =>
      match ← escape with
      | none => throw .unclosedCharacter
      | some c => characterFrom room (value.pack c)
    | some c => characterFrom room (value.pack c)

/-- The body of a character literal, after its opening quote. -/
def character : Scan Word := fun c => characterFrom c.wordSize 0 c

/-- Read the rest of a string, after the characters `seen` of it, last one first. -/
def stringFrom (wordSize : Nat) :
    List Char → Nat → List Char → EStateM.Result Error Cursor String
  | _, line, [] => .error .unterminatedString ⟨[], line, wordSize⟩
  | seen, line, '"' :: rest => .ok (String.ofList seen.reverse) ⟨rest, line, wordSize⟩
  | _, line, ['*'] => .error .unterminatedString ⟨[], line, wordSize⟩
  | seen, line, '*' :: c :: rest =>
    match escaped? c with
    | some decoded => stringFrom wordSize (decoded :: seen) line rest
    | none => .error (.undefinedEscape c) ⟨rest, lineAfter line c, wordSize⟩
  | seen, line, c :: rest => stringFrom wordSize (c :: seen) (lineAfter line c) rest

/-- The body of a string, after its opening quote. -/
def string : Scan String := fun c => stringFrom c.wordSize [] c.line c.unread

/-- The character literal or number that comes next after blanks, if any. -/
def constant? : Scan (Option Word) := do
  match ← peekMark with
  | some '\'' =>
    let _ ← read
    return some (← character)
  | some c => if isDigit c then return some (← number) else return none
  | none => return none

end Scan
end BCompiler
