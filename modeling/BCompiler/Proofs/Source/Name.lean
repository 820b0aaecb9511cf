import BCompiler.Source.Statement
import BCompiler.Proofs.Source.Token

/-!
The names that readers give.

Whatever the text, a name that a reader gives is one by its characters.
-/
namespace BCompiler
namespace Scan

variable {α β : Type}

/-- Whatever a reader gives is as `P` says. -/
def Gives (step : Scan α) (P : α → Prop) : Prop := ∀ c a c', step c = .ok a c' → P a

namespace Gives

variable {P : α → Prop} {Q : β → Prop}

theorem pure {a : α} (h : P a) : Gives (Pure.pure a) P := by
  intro c b c' hc
  obtain ⟨rfl, _⟩ := pure_eq_ok_iff.mp hc
  exact h

theorem throw {e : Error} : Gives (MonadExcept.throw e) P := fun _ _ _ h => absurd h throw_ne_ok

theorem bind {x : Scan α} {f : α → Scan β} (hx : Gives x P) (hf : ∀ a, P a → Gives (f a) Q) :
    Gives (x >>= f) Q := by
  intro c b c' hc
  obtain ⟨a, c₁, ha, hb⟩ := bind_eq_ok_iff.mp hc
  exact hf a (hx c a c₁ ha) c₁ b c' hb

theorem trivial (step : Scan α) : Gives step fun _ => True := fun _ _ _ _ => True.intro

/-- Reading first tells nothing about what is given later. -/
theorem after {x : Scan α} {f : α → Scan β} (hf : ∀ a, Gives (f a) Q) : Gives (x >>= f) Q :=
  (trivial x).bind fun a _ => hf a

end Gives

theorem isName_leadingName (text : List Char) :
    String.ofList (leadingName text) = "" ∨ isName (String.ofList (leadingName text)) := by
  cases text with
  | nil => exact .inl rfl
  | cons c rest =>
      by_cases hc : isNameStart c
      · right
        rw [leadingName, if_pos hc, isName, String.toList_ofList]
        simp [hc]
      · left
        rw [leadingName, if_neg hc, String.ofList_nil]

theorem name_gives : Gives name fun x => x = "" ∨ isName x := by
  refine .after fun _ => ?_
  intro c x c' h
  cases h
  exact isName_leadingName c.unread

theorem someName_gives (what : String) : Gives (someName what) fun x => isName x := by
  refine name_gives.bind fun x hx => ?_
  split
  · exact .after fun _ => .throw
  · next hne => exact .pure (hx.resolve_left hne)

theorem blanks_of_isNameStart {c : Cursor} (h : c.unread.head?.any isNameStart) :
    blanks c = .ok () c := by
  obtain ⟨unread, line, wordSize⟩ := c
  cases unread with
  | nil => cases h
  | cons first rest =>
      rw [List.head?_cons, Option.any_some] at h
      have hne : first ≠ '/' := by
        rintro rfl
        cases h
      have hblank : isBlank first = false := by
        rcases isNameStart_iff.mp h with hc | hc | rfl
        · exact isBlank_eq_false (by omega) (by omega)
        · exact isBlank_eq_false (by omega) (by omega)
        · rfl
      simp [blanks, blanksFrom, hne, hblank]

/-- Where a letter comes next, a name is read. -/
theorem isName_of_name {c c' : Cursor} {x : String} (hc : c.unread.head?.any isNameStart)
    (h : name c = .ok x c') : isName x := by
  obtain ⟨_, c₁, hb, h⟩ := bind_eq_ok_iff.mp h
  cases (blanks_of_isNameStart hc).symm.trans hb
  cases h
  refine (isName_leadingName c.unread).resolve_left fun hempty => ?_
  cases hu : c.unread with
  | nil =>
      rw [hu] at hc
      cases hc
  | cons first rest =>
      rw [hu, List.head?_cons, Option.any_some] at hc
      rw [hu, leadingName, if_pos hc] at hempty
      exact absurd (congrArg String.toList hempty) (by simp)

theorem atom_gives : Gives atom fun a => ∀ x called, a = .name x called → isName x := by
  refine .after fun value => ?_
  cases value with
  | some value => exact .pure nofun
  | none =>
      intro c a c' h x called ha
      obtain ⟨next, c₁, hp, h⟩ := bind_eq_ok_iff.mp h
      cases hp
      split at h
      · next hstart =>
          obtain ⟨y, c₂, hy, h⟩ := bind_eq_ok_iff.mp h
          obtain ⟨_, c₃, _, h⟩ := bind_eq_ok_iff.mp h
          obtain ⟨rfl, _⟩ := pure_eq_ok_iff.mp h
          cases ha
          exact isName_of_name hstart hy
      · obtain ⟨found, c₂, _, h⟩ := bind_eq_ok_iff.mp h
        split at h
        · obtain ⟨_, _, _, h⟩ := bind_eq_ok_iff.mp h
          obtain ⟨rfl, _⟩ := pure_eq_ok_iff.mp h
          cases ha
        · obtain ⟨rfl, _⟩ := pure_eq_ok_iff.mp h
          cases ha
        · cases throw_ne_ok h

theorem peekMark_head {c c' : Cursor} {found : Option Char} (h : peekMark c = .ok found c') :
    c'.unread.head? = found := by
  obtain ⟨_, c₁, _, h⟩ := bind_eq_ok_iff.mp h
  cases h
  rfl

theorem statementHead_gives :
    Gives statementHead fun head => ∀ x, head = .label x → isName x := by
  intro c head c' h x hx
  obtain ⟨found, c₁, hp, h⟩ := bind_eq_ok_iff.mp h
  have hhead := peekMark_head hp
  subst hx
  split at h
  · cases throw_ne_ok h
  · obtain ⟨_, _, _, h⟩ := bind_eq_ok_iff.mp h
    cases (pure_eq_ok_iff.mp h).1
  · obtain ⟨_, _, _, h⟩ := bind_eq_ok_iff.mp h
    cases (pure_eq_ok_iff.mp h).1
  · next first _ _ =>
      split at h
      · next hstart =>
          obtain ⟨word, c₂, hw, h⟩ := bind_eq_ok_iff.mp h
          have hword : isName word := isName_of_name (by simpa [hhead] using hstart) hw
          cases hk : StatementHead.ofKeyword? word with
          | some head =>
              rw [hk] at h
              obtain ⟨rfl, _⟩ := pure_eq_ok_iff.mp h
              unfold StatementHead.ofKeyword? at hk
              split at hk <;> cases hk
          | none =>
              rw [hk] at h
              obtain ⟨colon, _, _, h⟩ := bind_eq_ok_iff.mp h
              cases colon with
              | true =>
                  cases (pure_eq_ok_iff.mp h).1
                  exact hword
              | false =>
                  obtain ⟨_, _, _, h⟩ := bind_eq_ok_iff.mp h
                  cases (pure_eq_ok_iff.mp h).1
      · cases (pure_eq_ok_iff.mp h).1

end Scan
end BCompiler
