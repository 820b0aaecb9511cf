import BCompiler.Error

/-!
A place in a source text: the characters not yet read and the line of the next one.

Characters that were read can be pushed back, which also takes back the line they ended.
-/
namespace BCompiler

structure Cursor where
  unread : List Char
  line : Nat
  /-- Bytes in a word, the most characters that a character literal holds. -/
  wordSize : Nat
  deriving DecidableEq, Repr

/-- A scanner step. What it read stays read when it fails. -/
abbrev Scan := EStateM Error Cursor

/-- The line after a character that stands on `line`. -/
def lineAfter (line : Nat) (c : Char) : Nat := if c = '\n' then line + 1 else line

theorem foldl_lineAfter (line : Nat) (chars : List Char) :
    chars.foldl lineAfter line = line + chars.count '\n' := by
  induction chars generalizing line with
  | nil => rfl
  | cons c chars ih =>
    rw [List.foldl_cons, ih, lineAfter]
    by_cases h : c = '\n'
    · subst h
      simp only [if_true, List.count_cons_self]
      omega
    · rw [if_neg h, List.count_cons_of_ne h]

namespace Cursor

/-- The beginning of a text. -/
def ofText (text : String) (wordSize : Nat) : Cursor := ⟨text.toList, 1, wordSize⟩

/-- The place `n` characters further on. -/
def skip (n : Nat) (c : Cursor) : Cursor :=
  { c with unread := c.unread.drop n, line := (c.unread.take n).foldl lineAfter c.line }

def pushBack (ch : Char) (c : Cursor) : Cursor :=
  { c with unread := ch :: c.unread, line := if ch = '\n' then c.line - 1 else c.line }

/-- Push back a whole text, so that its first character is read next. -/
def pushBackAll (chars : List Char) (c : Cursor) : Cursor := chars.foldr pushBack c

@[simp] theorem unread_skip (n : Nat) (c : Cursor) : (c.skip n).unread = c.unread.drop n := rfl

@[simp] theorem unread_pushBackAll (chars : List Char) (c : Cursor) :
    (c.pushBackAll chars).unread = chars ++ c.unread := by
  induction chars with
  | nil => rfl
  | cons ch chars ih => exact congrArg (ch :: ·) ih

theorem pushBack_lineAfter (ch : Char) (rest : List Char) (line wordSize : Nat) :
    pushBack ch ⟨rest, lineAfter line ch, wordSize⟩ = ⟨ch :: rest, line, wordSize⟩ := by
  unfold pushBack lineAfter
  split <;> rfl

/-- What was read may be pushed back as if it had not been read. -/
theorem pushBackAll_foldl (chars rest : List Char) (line wordSize : Nat) :
    pushBackAll chars ⟨rest, chars.foldl lineAfter line, wordSize⟩ =
      ⟨chars ++ rest, line, wordSize⟩ := by
  induction chars generalizing line with
  | nil => rfl
  | cons ch chars ih =>
    have hback := congrArg (pushBack ch) (ih (lineAfter line ch))
    exact hback.trans (pushBack_lineAfter ch (chars ++ rest) line wordSize)

theorem line_skip (n : Nat) (c : Cursor) :
    (c.skip n).line = c.line + (c.unread.take n).count '\n' := foldl_lineAfter _ _

end Cursor

namespace Scan

/-- The next character, or nothing at the end of the text. -/
def read : Scan (Option Char) := fun c =>
  match c.unread with
  | [] => .ok none c
  | ch :: rest => .ok (some ch) { c with unread := rest, line := lineAfter c.line ch }

/-- The next character, left unread. -/
def peek : Scan (Option Char) := fun c => .ok c.unread.head? c

def atEnd : Scan Bool := fun c => .ok c.unread.isEmpty c

def unread (ch : Char) : Scan Unit := fun c => .ok () (c.pushBack ch)

def unreadAll (text : String) : Scan Unit := fun c => .ok () (c.pushBackAll text.toList)

/-- All that is left of the text. -/
def rest : Scan String := fun c => .ok (String.ofList c.unread) (c.skip c.unread.length)

/-- Apply a reader of the unread characters that tells how many of them it takes, if any. -/
def head? (recognize : List Char → Option (α × Nat)) : Scan (Option α) := fun c =>
  match recognize c.unread with
  | some (a, length) => .ok (some a) (c.skip length)
  | none => .ok none c

end Scan
end BCompiler
