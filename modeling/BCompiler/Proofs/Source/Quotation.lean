import BCompiler.Proofs.Source.Literal

/-!
The grammar of strings.

Behind its opening quote a string is a sequence of letters up to a closing quote: a letter is a
character that stands for itself, or a star with a mark behind it. A text that does not go on like
that breaks off at a star with no such mark, or has no end.
-/
namespace BCompiler

/-- The characters that a star may be in front of. -/
def escapeMarks : List Char := ['0', 'e', 't', 'n', 'r', '(', ')', '\'', '"', '*']

theorem isSome_escaped?_iff {c : Char} : (escaped? c).isSome ↔ c ∈ escapeMarks := by
  constructor
  · intro h
    unfold escaped? at h
    split at h
    case h_11 => cases h
    all_goals decide
  · intro h
    have hall : escapeMarks.all fun mark => (escaped? mark).isSome := rfl
    exact List.all_eq_true.mp hall c h

theorem escaped?_eq_none_iff {c : Char} : escaped? c = none ↔ c ∉ escapeMarks := by
  rw [← isSome_escaped?_iff, Option.not_isSome_iff_eq_none]

/-- What a text can be behind the opening quote of a string. -/
inductive Quotation : List Char → Prop
  | closed (letters : List (Letter '"')) (rest : List Char) :
      Quotation (letters.flatMap Letter.written ++ '"' :: rest)
  /-- A star that begins no escape. -/
  | undefined (letters : List (Letter '"')) (c : Char) (h : c ∉ escapeMarks) (rest : List Char) :
      Quotation (letters.flatMap Letter.written ++ '*' :: c :: rest)
  /-- The text ends, perhaps behind a star. -/
  | endless (letters : List (Letter '"')) (star : List Char) (h : star = [] ∨ star = ['*']) :
      Quotation (letters.flatMap Letter.written ++ star)

namespace Quotation

theorem letter (letter : Letter '"') {text : List Char} (h : Quotation text) :
    Quotation (letter.written ++ text) := by
  cases h with
  | closed letters rest =>
      rw [← List.append_assoc]
      exact .closed (letter :: letters) rest
  | undefined letters c hc rest =>
      rw [← List.append_assoc]
      exact .undefined (letter :: letters) c hc rest
  | endless letters star hstar =>
      rw [← List.append_assoc]
      exact .endless (letter :: letters) star hstar

/-- Every text is one of the three; the induction goes as the reader does, letter by letter. -/
theorem of_text (text : List Char) : Quotation text := by
  have hall (seen : List Char) (line : Nat) : Quotation text := by
    fun_induction Scan.stringFrom 0 seen line text with
    | case1 => exact .endless [] [] (.inl rfl)
    | case2 seen line rest => exact .closed [] rest
    | case3 => exact .endless [] ['*'] (.inr rfl)
    | case4 seen line c rest decoded hd ih =>
        exact letter (.escape c (Option.isSome_of_eq_some hd)) ih
    | case5 seen line c rest hd => exact .undefined [] c (escaped?_eq_none_iff.mp hd) rest
    | case6 seen line c rest hquote hlast hstar ih =>
        have hplain : c ≠ '"' ∧ c ≠ '*' := by
          refine ⟨hquote, fun hc => ?_⟩
          cases rest with
          | nil => exact hlast hc rfl
          | cons d rest => exact hstar d rest hc rfl
        exact letter (.plain c hplain) ih
  exact hall [] 1

end Quotation

namespace Scan

variable {c : Cursor}

end Scan
end BCompiler
