import BCompiler.Source.Blank

/-! Names and keywords. -/
namespace BCompiler

def isDigit (c : Char) : Bool := Nat.ble 48 c.toNat && Nat.ble c.toNat 57

/-- Characters that may start a name: ASCII letters and the underscore. -/
def isNameStart (c : Char) : Bool :=
  (Nat.ble 97 c.toNat && Nat.ble c.toNat 122) || (Nat.ble 65 c.toNat && Nat.ble c.toNat 90) ||
    c == '_'

/-- Characters that may stand inside a name. -/
def isNameChar (c : Char) : Bool := isNameStart c || isDigit c

/-- The name at the head of a text, empty if there is none. -/
def leadingName : List Char → List Char
  | [] => []
  | c :: rest => if isNameStart c then c :: rest.takeWhile isNameChar else []

namespace Scan

/-- The name that comes next after blanks, empty if there is none. -/
def name : Scan String := do
  blanks
  fun c =>
    let found := leadingName c.unread
    .ok (String.ofList found) (c.skip found.length)

/-- Require a name; `what` says which in the message. -/
def someName (what : String) : Scan String := do
  let found ← name
  if found = "" then throw (.unexpected what (← peek)) else return found

/-- Read on in a word after its characters `seen`, last one first. If the text does not go on with
the word, or a longer name does, all that was read of it is pushed back. -/
def keywordFrom : List Char → List Char → Scan Bool
  | seen, [] => do
    if (← peek).any isNameChar then
      unreadAll (String.ofList seen.reverse)
      return false
    else return true
  | seen, expected :: word => do
    match ← read with
    | none =>
      unreadAll (String.ofList seen.reverse)
      return false
    | some c =>
      if c = expected then keywordFrom (c :: seen) word
      else
        unread c
        unreadAll (String.ofList seen.reverse)
        return false

/-- Take the word if it comes next after blanks and no longer name does. -/
def keyword (word : String) : Scan Bool := do
  blanks
  keywordFrom [] word.toList

end Scan
end BCompiler
