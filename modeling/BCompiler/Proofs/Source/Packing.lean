import Mathlib.Data.List.Induction
import Mathlib.Data.Nat.Digits.Defs
import BCompiler.Proofs.Source.Quotation

/-!
Character literals.

Behind its opening quote a character literal is a sequence of letters up to a closing quote, with as
many letters as a word has bytes at most. Of each letter the low byte counts, and the bytes are the
digits of a number to the base 256, the first one highest. Up to eight bytes a word tells them all.
-/
namespace BCompiler

/-- The low byte of a character. -/
def Letter.byte {quote : Char} (letter : Letter quote) : Nat := letter.char.toNat % 256

namespace CharacterLiteral

variable {size : Nat} (l : CharacterLiteral size)

def bytes : List Nat := l.letters.map Letter.byte

end CharacterLiteral

/-- What a text can be behind the opening quote of a character literal that has room for so many
letters. -/
inductive Inscription (room : Nat) : List Char → Prop
  | closed (letters : List (Letter '\'')) (h : letters.length ≤ room) (rest : List Char) :
      Inscription room (letters.flatMap Letter.written ++ '\'' :: rest)
  /-- A star that begins no escape. -/
  | undefined (letters : List (Letter '\'')) (h : letters.length < room) (mark : Char)
      (hm : mark ∉ escapeMarks) (rest : List Char) :
      Inscription room (letters.flatMap Letter.written ++ '*' :: mark :: rest)
  /-- The text ends, perhaps behind a star. -/
  | endless (letters : List (Letter '\'')) (h : letters.length ≤ room) (star : List Char)
      (hs : star = [] ∨ star = ['*']) :
      Inscription room (letters.flatMap Letter.written ++ star)
  /-- The text goes on where there is no room left. -/
  | overfull (letters : List (Letter '\'')) (h : letters.length = room) (c : Char)
      (hc : c ≠ '\'') (rest : List Char) :
      Inscription room (letters.flatMap Letter.written ++ c :: rest)

namespace Inscription

theorem letter (letter : Letter '\'') {room : Nat} {text : List Char} (h : Inscription room text) :
    Inscription (room + 1) (letter.written ++ text) := by
  cases h with
  | closed letters h rest =>
      rw [← List.append_assoc]
      exact .closed (letter :: letters) (Nat.succ_le_succ h) rest
  | undefined letters h mark hm rest =>
      rw [← List.append_assoc]
      exact .undefined (letter :: letters) (Nat.succ_lt_succ h) mark hm rest
  | endless letters h star hs =>
      rw [← List.append_assoc]
      exact .endless (letter :: letters) (Nat.succ_le_succ h) star hs
  | overfull letters h c hc rest =>
      rw [← List.append_assoc]
      exact .overfull (letter :: letters) (congrArg Nat.succ h) c hc rest

/-- Every text is one of the four; the induction takes letters off as long as there is room. -/
theorem of_text (room : Nat) (text : List Char) : Inscription room text := by
  induction room generalizing text with
  | zero =>
      rcases text with _ | ⟨c, rest⟩
      · exact .endless [] (Nat.le_refl 0) [] (.inl rfl)
      · by_cases hc : c = '\''
        · exact hc ▸ .closed [] (Nat.le_refl 0) rest
        · exact .overfull [] rfl c hc rest
  | succ room ih =>
      rcases text with _ | ⟨c, rest⟩
      · exact .endless [] (Nat.zero_le _) [] (.inl rfl)
      · by_cases hquote : c = '\''
        · exact hquote ▸ .closed [] (Nat.zero_le _) rest
        · by_cases hstar : c = '*'
          · subst hstar
            rcases rest with _ | ⟨mark, rest⟩
            · exact .endless [] (Nat.zero_le _) ['*'] (.inr rfl)
            · by_cases hm : mark ∈ escapeMarks
              · exact letter (.escape mark (isSome_escaped?_iff.mpr hm)) (ih rest)
              · exact .undefined [] (Nat.succ_pos _) mark hm rest
          · exact letter (.plain c ⟨hquote, hstar⟩) (ih rest)

end Inscription

namespace Scan

variable {c : Cursor} {letters : List (Letter '\'')} {room : Nat} {value : Word}

end Scan
end BCompiler
