import BCompiler.Source.Cursor
import BCompiler.Text.Blank

/-!
Blanks and comments, and single marks between them.

A comment runs from a slash and a star to the next star and slash; comments do not nest.
-/
namespace BCompiler

/-- Where a reader of blanks stands: in the text itself, or in a comment, after a star or not. -/
inductive Region where
  | text
  | comment (star : Bool)
  deriving DecidableEq, Repr

namespace Scan

/-- Read blanks and comments from the given region on. -/
def blanksFrom (wordSize : Nat) : Region → Nat → List Char → EStateM.Result Error Cursor Unit
  | .text, line, [] => .ok () ⟨[], line, wordSize⟩
  | .text, line, '/' :: '*' :: rest => blanksFrom wordSize (.comment false) line rest
  | .text, line, c :: rest =>
    if isBlank c then blanksFrom wordSize .text (lineAfter line c) rest
    else .ok () ⟨c :: rest, line, wordSize⟩
  | .comment _, line, [] => .error .unclosedComment ⟨[], line, wordSize⟩
  | .comment star, line, c :: rest =>
    if star && c == '/' then blanksFrom wordSize .text line rest
    else blanksFrom wordSize (.comment (c == '*')) (lineAfter line c) rest

/-- Skip blanks and comments. -/
def blanks : Scan Unit := fun c => blanksFrom c.wordSize .text c.line c.unread

/-- The next character after blanks. -/
def readMark : Scan (Option Char) := do
  blanks
  read

/-- The next character after blanks, left unread. -/
def peekMark : Scan (Option Char) := do
  blanks
  peek

/-- Take the mark if it comes next after blanks. -/
def accept (mark : Char) : Scan Bool := do
  if (← peekMark) = some mark then
    let _ ← read
    return true
  else
    return false

/-- Require the mark next after blanks; `place` completes the message. -/
def expect (mark : Char) (place : String) : Scan Unit := do
  let found ← readMark
  if found = some mark then return
  else throw (.unexpected ("'" ++ String.singleton mark ++ "' " ++ place) found)

/-- After an item of a list: whether another one follows. The list ends with `close`. -/
def another (close : Char) (place : String) : Scan Bool := do
  let found ← readMark
  if found = some ',' then return true
  else if found = some close then return false
  else throw (.unexpected ("',' or '" ++ String.singleton close ++ "' " ++ place) found)

end Scan
end BCompiler
