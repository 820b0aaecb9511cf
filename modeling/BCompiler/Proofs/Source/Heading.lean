import BCompiler.Proofs.Source.Literal
import BCompiler.Proofs.Source.Statement

/-!
Reading what a statement begins with, where the word size is known.

A label is a name with a colon behind it. The constant of a case and the size of an array may be
character literals, whose length the word size bounds.
-/
namespace BCompiler
namespace Scan

variable {size : Nat} {token : String} {first : Char} {tokens : List String}

section KeepsSize

theorem keepsSize_character : KeepsSize character := fun c => keepsSize_characterFrom c.wordSize 0 c

theorem keepsSize_unreadAll (text : String) : KeepsSize (unreadAll text) := by
  intro c _ c' h
  cases h
  induction text.toList generalizing c with
  | nil => rfl
  | cons ch chars ih => exact ih _

theorem keepsSize_statementHead : KeepsSize statementHead := by
  refine keepsSize_peekMark.bind fun found => ?_
  split
  · exact .throw _
  · exact keepsSize_read.bind fun _ => .pure _
  · exact keepsSize_read.bind fun _ => .pure _
  · refine .ite (keepsSize_name.bind fun word => ?_) (.pure _)
    cases StatementHead.ofKeyword? word with
    | some head => exact .pure _
    | none =>
        refine (keepsSize_accept _).bind fun _ => .ite (.pure _) ?_
        exact (keepsSize_unreadAll _).bind fun _ => .pure _

theorem keepsSize_keyword (word : String) : KeepsSize (keyword word) := by
  refine keepsSize_blanks.bind fun _ c a c' h => ?_
  rw [keywordFrom_nil] at h
  split at h <;> cases h <;> rfl

theorem keepsSize_atEnd : KeepsSize atEnd := by
  intro c _ c' h
  cases h
  rfl

theorem keepsSize_someName (what : String) : KeepsSize (someName what) :=
  keepsSize_name.bind fun _ => .ite (keepsSize_peek.bind fun _ => .throw _) (.pure _)

end KeepsSize

/-- A plain name with a colon behind it is a label. -/
theorem statementHead_label (x : Name) (hx : x.isPlain) :
    Reads statementHead (x.text :: ":" :: tokens) (.label x.text) tokens := by
  obtain ⟨first, hb, hstart⟩ := x.begins
  have hopen : first ≠ '{' := ne_of_isNameStart hstart rfl
  have hsemicolon : first ≠ ';' := ne_of_isNameStart hstart rfl
  refine (peekMark_token hb).bind ?_
  simp only [hstart, if_true]
  refine (name_token x).bind ?_
  rw [(Name.isPlain_iff.mp hx).1]
  exact (accept_token rfl rfl).bind (.pure _)

/-- No word comes at the end of the text. -/
theorem keyword_nil (word : Name) : Reads (keyword word.text) [] false [] := by
  intro c hc
  obtain ⟨h, hu⟩ := blanks_nil c hc
  refine ⟨c, keyword_false word h ?_, hc⟩
  rw [hu]
  exact fun he => word.text_ne_empty (String.toList_eq_nil_iff.mp he.symm)

section Takes

variable {α β : Type} {before between after : List String}

theorem Takes.pure (a : α) : Takes size (Pure.pure a) tokens a tokens := fun c hc => ⟨c, rfl, hc⟩

theorem Takes.bind {x : Scan α} {f : α → Scan β} {a : α} {b : β}
    (hx : Takes size x before a between) (hf : Takes size (f a) between b after) :
    Takes size (x >>= f) before b after := by
  intro c hc
  obtain ⟨c₁, h₁, hc₁⟩ := hx c hc
  obtain ⟨c₂, h₂, hc₂⟩ := hf c₁ hc₁
  exact ⟨c₂, bind_eq_ok_iff.mpr ⟨a, c₁, h₁, h₂⟩, hc₂⟩

theorem Takes.expect {mark : Char} {f : Unit → Scan β} {b : β} {place : String}
    (h : token.toList = [mark]) (hb : isBlank mark = false)
    (hf : Takes size (f ()) between b after) :
    Takes size (Scan.expect mark place >>= f) (token :: between) b after :=
  .bind ((expect_token h hb place).takes (keepsSize_expect _ _)) hf

/-- The quote of a character literal is a mark in front of its characters. -/
theorem character_accepted (l : CharacterLiteral size) (other : Scan Word) :
    Takes size (do if ← accept '\'' then character else other) (quoted l.letters :: tokens) l.word
      tokens := by
  intro c hc
  have hb : Begins (quoted l.letters) '\'' := begins_quoted _ rfl (by decide)
  obtain ⟨c₁, h₁, hu₁⟩ := peekMark_solid hb c hc.at_tokens
  have hread := read_cons (unread_quoted l.letters hu₁)
  have haccept : accept '\'' c = .ok true _ :=
    bind_eq_ok_iff.mpr ⟨some '\'', c₁, h₁, bind_eq_ok_iff.mpr ⟨_, _, hread, rfl⟩⟩
  have hsize₁ : c₁.wordSize = size := (keepsSize_peekMark c _ c₁ h₁).trans hc.wordSize
  obtain ⟨c₂, h₂, hu₂⟩ := character_letters l (spaced tokens)
    (c := { c₁ with
      unread := l.letters.flatMap Letter.written ++ '\'' :: spaced tokens
      line := lineAfter c₁.line '\'' }) hsize₁ rfl
  exact ⟨c₂, bind_eq_ok_iff.mpr ⟨true, _, haccept, h₂⟩, .inl hu₂,
    (keepsSize_character _ _ _ h₂).trans hsize₁⟩

end Takes

end Scan
end BCompiler
