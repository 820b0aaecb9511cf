import BCompiler.Proofs.Definition
import BCompiler.Proofs.Simulation
import BCompiler.Proofs.Source.Gap

/-!
Separators.

Blanks and comments stand between the parts of a source. Which ones they are does not matter to what
is compiled, as long as a blank comes first: it ends a name or a number, and keeps a slash or an
equals sign in front of it from becoming part of what follows.
-/
namespace BCompiler

/-- Blanks and comments, a blank first. -/
structure Separator where
  first : Char
  isBlank : isBlank first
  rest : List Gap

namespace Separator

def chars (s : Separator) : List Char := s.first :: s.rest.flatMap Gap.text

def text (s : Separator) : String := String.ofList s.chars

def space : Separator := ⟨' ', rfl, []⟩

/-- A comment on a line of its own. -/
def remark : Separator :=
  ⟨'\n', rfl, [.comment ['*', ' ', '"'] (by decide), .blank '\n' rfl]⟩

end Separator

namespace Separator

theorem afterBlanks_append (s : Separator) (rest : List Char) :
    afterBlanks .text (s.chars ++ rest) = afterBlanks .text rest :=
  (afterBlanks_gap (.blank s.first s.isBlank) _).trans (afterBlanks_gaps s.rest rest)

theorem detached (s : Separator) (rest : List Char) : Detached (s.chars ++ rest) := by
  rintro c ⟨⟩
  exact s.isBlank

/-- Two separators may stand behind the same text. -/
theorem joint (s s' : Separator) (rest : List Char) :
    Joint [] (s.chars ++ rest) (s'.chars ++ rest) where
  left := s.detached rest
  right := s'.detached rest
  across r hr := by
    rw [afterBlanks_append] at hr
    rw [afterBlanks_append, List.append_nil]
    exact ⟨hr, .inr rfl⟩

end Separator

theorem sequel_nil : Sequel [] := ⟨.inl rfl, by decide⟩

/-- Nothing is declared at the end of a text. -/
theorem Pass.declarations_nil {c : Cursor} (h : c.unread = []) (p : Program) :
    declarations ⟨c, p⟩ = .ok () ⟨c, p⟩ := by
  obtain ⟨_, line, size⟩ := c
  cases h
  rfl

namespace Session

variable {s s₁ : Session} {path p q : String}

theorem compile_separated (sep sep' : Separator) (hp : endsInCode (.code .text) p.toList)
    (h : compile path (p ++ sep.text ++ q) s = .ok () s₁) :
    ∃ s₂, compile path (p ++ sep'.text ++ q) s = .ok () s₂ ∧ s₂.program = s₁.program := by
  have hunread : ∀ sep : Separator, (Cursor.ofText (p ++ sep.text ++ q) s.wordSize).unread =
      p.toList ++ (sep.chars ++ q.toList) := by
    intro sep
    simp [Cursor.ofText, Separator.text, List.append_assoc]
  have hs : Pass.Sited (Level []) ⟨.ofText (p ++ sep.text ++ q) s.wordSize, s.program⟩
      ⟨.ofText (p ++ sep'.text ++ q) s.wordSize, s.program⟩ :=
    ⟨.inl (abreast_of_unread rfl (hunread sep) (hunread sep') (sep.joint sep' q.toList) (.inr hp)),
      rfl⟩
  obtain ⟨t, ht, rfl⟩ := compile_eq_ok_iff.mp h
  obtain ⟨c, hend, hright⟩ := Pass.declarations_relates sequel_nil hs ht
  rw [Pass.declarations_nil hend.right] at hright
  exact ⟨_, compile_eq_ok_iff.mpr ⟨_, hright, rfl⟩, rfl⟩

/-- Wherever a part of a source ends in its code, any separator may stand for any other. -/
theorem compile_separator_iff (s : Session) (path p q : String) (sep sep' : Separator)
    (hp : endsInCode (.code .text) p.toList) :
    ((∃ s₁, compile path (p ++ sep.text ++ q) s = .ok () s₁) ↔
      ∃ s₂, compile path (p ++ sep'.text ++ q) s = .ok () s₂) ∧
    ∀ s₁ s₂, compile path (p ++ sep.text ++ q) s = .ok () s₁ →
      compile path (p ++ sep'.text ++ q) s = .ok () s₂ → s₁.program = s₂.program := by
  have hswap : ∀ sep sep' : Separator, (∃ s₁, compile path (p ++ sep.text ++ q) s = .ok () s₁) →
      ∃ s₂, compile path (p ++ sep'.text ++ q) s = .ok () s₂ := by
    rintro sep sep' ⟨s₁, h⟩
    obtain ⟨s₂, h₂, _⟩ := compile_separated sep sep' hp h
    exact ⟨s₂, h₂⟩
  refine ⟨⟨hswap sep sep', hswap sep' sep⟩, fun s₁ s₂ h₁ h₂ => ?_⟩
  obtain ⟨s₃, h₃, hprogram⟩ := compile_separated sep sep' hp h₁
  cases h₂.symm.trans h₃
  exact hprogram.symm

/-- A comment in place of a blank behind an equals sign. -/
theorem compile_separator_assignment :
    endsInCode (.code .text) "f(x) \x7b auto c; c = '\"'; x =".toList ∧
      ∃ s₁ s₂,
        compile "f.b" ("f(x) \x7b auto c; c = '\"'; x =" ++ Separator.space.text ++ "-c; \x7d")
          (.new "b" 8) = .ok () s₁ ∧
        compile "f.b" ("f(x) \x7b auto c; c = '\"'; x =" ++ Separator.remark.text ++ "-c; \x7d")
          (.new "b" 8) = .ok () s₂ ∧ s₁.program = s₂.program := by
  have hends : endsInCode (.code .text) "f(x) \x7b auto c; c = '\"'; x =".toList := by decide
  have htext : "f(x) \x7b auto c; c = '\"'; x =" ++ Separator.space.text ++ "-c; \x7d" =
      "f(x) \x7b auto c; c = '\"'; x = -c; \x7d" := by decide +kernel
  have haccepts : (new "b" 8).accepts "f.b" "f(x) \x7b auto c; c = '\"'; x = -c; \x7d" := by
    decide +kernel
  obtain ⟨hiff, hsame⟩ := compile_separator_iff (.new "b" 8) "f.b"
    "f(x) \x7b auto c; c = '\"'; x =" "-c; \x7d" .space .remark hends
  obtain ⟨s₁, h₁⟩ := exists_of_accepts haccepts
  rw [← htext] at h₁
  obtain ⟨s₂, h₂⟩ := hiff.mp ⟨s₁, h₁⟩
  exact ⟨hends, s₁, s₂, h₁, h₂, hsame s₁ s₂ h₁ h₂⟩

end Session
end BCompiler
