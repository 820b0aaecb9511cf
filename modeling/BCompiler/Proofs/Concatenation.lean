import BCompiler.Proofs.Separator

/-!
Several sources and their concatenation.

The declarations of a source are compiled one after the other and leave nothing open behind them,
except that a conditional statement at the very end may still get its other arm. So two sources that
are compiled in turn make the same module as both of them on separate lines of one.
-/
namespace BCompiler

/-- The name that comes first in a text after blanks and comments, empty if something else does. -/
def firstName (text : String) : String :=
  ((afterBlanks .text text.toList).map fun rest => String.ofList (leadingName rest)).getD ""

theorem lineCount_append (a b : String) :
    lineCount (a ++ "\n" ++ b) = lineCount a + lineCount b := by
  have hline : "\n".toList.count '\n' = 1 := by decide
  simp only [lineCount, String.toList_append, List.count_append, hline]
  omega

/-- Declarations begin with a name, unless there are none. -/
theorem Pass.letter_of_declarations {c : Cursor} {p : Program} {u : Unit} {t : Site Program}
    (h : declarations ⟨c, p⟩ = .ok u t) :
    ∃ c₁, Scan.blanks c = .ok () c₁ ∧ (c₁.unread = [] ∨ c₁.unread.head?.any isNameStart) := by
  rw [declarations_eq (Nat.le_succ c.depth)] at h
  obtain ⟨name, s₁, hname, hrest⟩ := bind_eq_ok_iff.mp h
  obtain ⟨_, c₁, hb, hfound⟩ := bind_eq_ok_iff.mp (scan_eq_ok_iff.mp hname).1
  refine ⟨c₁, hb, ?_⟩
  cases hu : c₁.unread with
  | nil => exact .inl rfl
  | cons first rest =>
      right
      by_cases hfirst : isNameStart first
      · exact hfirst
      · injection hfound with hvalue hcursor
        rw [hu, leadingName, if_neg hfirst] at hvalue hcursor
        rw [if_pos (hvalue.symm.trans String.ofList_nil)] at hrest
        obtain ⟨next, s₂, hpeek, hrest⟩ := bind_eq_ok_iff.mp hrest
        cases next with
        | some c => cases throw_ne_ok hrest
        | none =>
            injection (scan_eq_ok_iff.mp hpeek).1 with hhead _
            rw [← hcursor, Cursor.unread_skip, hu] at hhead
            cases hhead

/-- A text goes on behind a line end where it begins. -/
theorem joint_newline {extra text : List Char} (h : afterBlanks .text text = some extra) :
    Joint extra [] ('\n' :: text) := by
  refine ⟨detached_nil, ?_, ?_⟩
  · rintro c ⟨⟩
    rfl
  · rintro r ⟨⟩
    exact ⟨h, .inl rfl⟩

theorem unread_newline (a b : String) (wordSize : Nat) :
    (Cursor.ofText (a ++ "\n" ++ b) wordSize).unread = a.toList ++ '\n' :: b.toList := by
  have hline : "\n".toList = ['\n'] := by decide
  simp [Cursor.ofText, hline]

/-- The declarations of two texts are those of both, one after the other. -/
theorem Pass.declarations_append {a b : String} {wordSize : Nat} {p : Program}
    {t₁ t₂ : Site Program} (helse : firstName b ≠ "else")
    (h₁ : declarations ⟨.ofText a wordSize, p⟩ = .ok () t₁)
    (h₂ : declarations ⟨.ofText b wordSize, t₁.target⟩ = .ok () t₂) :
    ∃ c, declarations ⟨.ofText (a ++ "\n" ++ b) wordSize, p⟩ = .ok () ⟨c, t₂.target⟩ := by
  obtain ⟨c, hblanks, hletter⟩ := letter_of_declarations h₂
  obtain ⟨hafter, hsize⟩ := Scan.afterBlanks_of_blanks hblanks
  have hextra : Sequel c.unread := by
    refine ⟨hletter, fun hname => helse ?_⟩
    have hfirst : firstName b = String.ofList (leadingName c.unread) := by
      unfold firstName
      rw [show afterBlanks .text b.toList = some c.unread from hafter]
      rfl
    rw [hfirst, hname, String.ofList_toList]
  have hs : Sited (Level c.unread) ⟨.ofText a wordSize, p⟩
      ⟨.ofText (a ++ "\n" ++ b) wordSize, p⟩ :=
    ⟨.inl (abreast_of_unread rfl (List.append_nil a.toList).symm (unread_newline a b wordSize)
      (joint_newline hafter) (.inl rfl)), rfl⟩
  obtain ⟨c', hend, hright⟩ := declarations_relates hextra hs h₁
  have hsize' : c'.wordSize = c.wordSize :=
    (hend.size.trans (Travels.declarations.ok h₁).follows.size).trans hsize.symm
  have hs' : Sited (Level []) ⟨c, t₁.target⟩ ⟨c', t₁.target⟩ :=
    ⟨level_of_unread hsize' hend.right, rfl⟩
  obtain ⟨c₂, hend₂, hright₂⟩ :=
    declarations_relates sequel_nil hs' ((declarations_blanks hblanks _).symm.trans h₂)
  exact ⟨c₂, by rw [hright, hright₂, declarations_nil hend₂.right]⟩

namespace Session

/-- Two sources that are accepted in turn are accepted as one, with a line end between them, unless
the second one begins with the word for the other arm of a conditional. The program is the same, and
so are the lines. -/
theorem compile_append (s s₁ s₂ : Session) (path path₁ path₂ a b : String)
    (helse : firstName b ≠ "else") (h₁ : compile path₁ a s = .ok () s₁)
    (h₂ : compile path₂ b s₁ = .ok () s₂) :
    compile path (a ++ "\n" ++ b) s = .ok () { s₂ with filesCompiled := s.filesCompiled + 1 } ∧
      s₂.filesCompiled = s.filesCompiled + 2 := by
  obtain ⟨t₁, ht₁, rfl⟩ := compile_eq_ok_iff.mp h₁
  obtain ⟨t₂, ht₂, rfl⟩ := compile_eq_ok_iff.mp h₂
  obtain ⟨c, hc⟩ := Pass.declarations_append helse ht₁ ht₂
  refine ⟨compile_eq_ok_iff.mpr ⟨_, hc, ?_⟩, rfl⟩
  simp only [lineCount_append, Nat.add_assoc]

/-- The conditional at the end of the first source stays without its other arm. -/
theorem compile_append_conditional :
    firstName "/* other */ otherwise() return(f(2));" ≠ "else" ∧
      ∃ s₁ s₂, compile "f.b" "f(x) if (x) return(x);" (.new "b" 8) = .ok () s₁ ∧
        compile "g.b" "/* other */ otherwise() return(f(2));" s₁ = .ok () s₂ ∧
        compile "fg.b" ("f(x) if (x) return(x);" ++ "\n" ++
          "/* other */ otherwise() return(f(2));") (.new "b" 8) =
            .ok () { s₂ with filesCompiled := 1 } ∧ s₂.filesCompiled = 2 := by
  have helse : firstName "/* other */ otherwise() return(f(2));" ≠ "else" := by decide
  have haccepts : (new "b" 8).accepts "f.b" "f(x) if (x) return(x);" := by decide +kernel
  have haccepts' : ((new "b" 8).after "f.b" "f(x) if (x) return(x);").accepts "g.b"
      "/* other */ otherwise() return(f(2));" := by decide +kernel
  obtain ⟨s₁, h₁⟩ := exists_of_accepts haccepts
  have hafter : (new "b" 8).after "f.b" "f(x) if (x) return(x);" = s₁ := by
    unfold after
    rw [h₁]
  obtain ⟨s₂, h₂⟩ := exists_of_accepts (hafter ▸ haccepts')
  exact ⟨helse, s₁, s₂, h₁, h₂, compile_append _ s₁ s₂ "fg.b" "f.b" "g.b" _ _ helse h₁ h₂⟩

end Session
end BCompiler
