import BCompiler.Proofs.Source.Token

/-!
Words that stand for themselves.

A name is read as far as it goes. A word that is looked for is compared character by character, and
pushed back if the text goes on in another way. Both ways find the same words and leave the same
text: a word is found exactly where the name that comes next is that word.
-/
namespace BCompiler

theorem Name.text_ne_empty (x : Name) : x.text ≠ "" := by
  intro h
  have hname := x.isName
  rw [h] at hname
  exact absurd hname (by decide)

/-- A name is the whole word that a text begins with. -/
theorem leadingName_eq_iff {x : Name} {text : List Char} :
    leadingName text = x.text.toList ↔
      ∃ rest, text = x.text.toList ++ rest ∧ ∀ ch ∈ rest.head?, isNameChar ch = false := by
  constructor
  · intro h
    have hne : leadingName text ≠ [] := by
      rw [h]
      exact fun hnil => x.text_ne_empty (String.toList_eq_nil_iff.mp hnil)
    rw [← h]
    cases text with
    | nil => exact absurd rfl hne
    | cons c chars =>
        by_cases hc : isNameStart c
        · refine ⟨chars.dropWhile isNameChar, ?_, fun ch hch => ?_⟩
          · rw [leadingName, if_pos hc, List.cons_append, List.takeWhile_append_dropWhile]
          · have hnext := List.head?_dropWhile_not isNameChar chars
            rwa [Option.mem_def.mp hch] at hnext
        · exact absurd (if_neg hc) hne
  · rintro ⟨rest, rfl, hrest⟩
    exact Scan.leadingName_append x.isName hrest

/-- Whether a text begins with the word and does not go on with it to a longer name. -/
def isWholeWord (word text : List Char) : Bool :=
  word.isPrefixOf text && !(text.drop word.length).head?.any isNameChar

theorem isWholeWord_iff {word text : List Char} :
    isWholeWord word text ↔
      ∃ rest, text = word ++ rest ∧ ∀ ch ∈ rest.head?, isNameChar ch = false := by
  have hends (rest : List Char) :
      (!rest.head?.any isNameChar) = true ↔ ∀ ch ∈ rest.head?, isNameChar ch = false := by
    cases rest.head? <;> simp
  rw [isWholeWord, Bool.and_eq_true, List.isPrefixOf_iff_prefix]
  constructor
  · rintro ⟨⟨rest, rfl⟩, hrest⟩
    rw [List.drop_left] at hrest
    exact ⟨rest, rfl, (hends rest).mp hrest⟩
  · rintro ⟨rest, rfl, hrest⟩
    rw [List.drop_left]
    exact ⟨List.prefix_append _ _, (hends rest).mpr hrest⟩

theorem isWholeWord_cons (expected c : Char) (word text : List Char) :
    isWholeWord (expected :: word) (c :: text) = (expected == c && isWholeWord word text) :=
  Bool.and_assoc ..

namespace Scan

theorem unreadAll_seen (seen text : List Char) (line wordSize : Nat) :
    unreadAll (String.ofList seen.reverse)
        ⟨text, seen.reverse.foldl lineAfter line, wordSize⟩ =
      .ok () ⟨seen.reverse ++ text, line, wordSize⟩ := by
  rw [unreadAll, String.toList_ofList, Cursor.pushBackAll_foldl]

/-- The word is taken as a whole, or the text is as it was before `seen` was read of it. -/
theorem keywordFrom_eq (seen word text : List Char) (line wordSize : Nat) :
    keywordFrom seen word ⟨text, seen.reverse.foldl lineAfter line, wordSize⟩ =
      if isWholeWord word text then
        .ok true (Cursor.skip word.length ⟨text, seen.reverse.foldl lineAfter line, wordSize⟩)
      else .ok false ⟨seen.reverse ++ text, line, wordSize⟩ := by
  induction word generalizing seen text with
  | nil =>
      refine (bind_of_ok rfl).trans ?_
      have hword : isWholeWord [] text = !text.head?.any isNameChar := rfl
      rw [hword]
      by_cases hlonger : text.head?.any isNameChar
      · rw [if_pos hlonger, hlonger]
        exact bind_of_ok (unreadAll_seen seen text line wordSize)
      · rw [if_neg hlonger, Bool.not_eq_true _ |>.mp hlonger]
        rfl
  | cons expected word ih =>
      cases text with
      | nil => exact (bind_of_ok rfl).trans (bind_of_ok (unreadAll_seen seen [] line wordSize))
      | cons c text =>
          refine (bind_of_ok rfl).trans ?_
          dsimp only
          rw [isWholeWord_cons]
          by_cases hc : c = expected
          · subst hc
            have hseen : lineAfter (seen.reverse.foldl lineAfter line) c =
                (c :: seen).reverse.foldl lineAfter line := by
              rw [List.reverse_cons, List.foldl_append]
              rfl
            rw [if_pos rfl, hseen, ih (c :: seen) text, ← hseen, beq_self_eq_true, Bool.true_and,
              List.reverse_cons, List.append_assoc]
            rfl
          · rw [if_neg hc, beq_eq_false_iff_ne.mpr (Ne.symm hc), Bool.false_and]
            have hback :
                unread c ⟨text, lineAfter (seen.reverse.foldl lineAfter line) c, wordSize⟩ =
                  .ok () ⟨c :: text, seen.reverse.foldl lineAfter line, wordSize⟩ := by
              rw [unread, Cursor.pushBack_lineAfter]
            exact (bind_of_ok hback).trans
              (bind_of_ok (unreadAll_seen seen (c :: text) line wordSize))

theorem keywordFrom_nil (word : String) (c : Cursor) :
    keywordFrom [] word.toList c =
      if isWholeWord word.toList c.unread then .ok true (c.skip word.length)
      else .ok false c := by
  rw [← String.length_toList]
  exact keywordFrom_eq [] word.toList c.unread c.line c.wordSize

variable {c c₁ : Cursor}

theorem keyword_of_blanks (word : String) (hb : blanks c = .ok () c₁) :
    keyword word c =
      if isWholeWord word.toList c₁.unread then .ok true (c₁.skip word.length)
      else .ok false c₁ :=
  (bind_of_ok hb).trans (keywordFrom_nil word c₁)

/-- A word is found only where it is the whole name. -/
theorem keyword_false (word : Name) (hb : blanks c = .ok () c₁)
    (hne : leadingName c₁.unread ≠ word.text.toList) : keyword word.text c = .ok false c₁ :=
  (keyword_of_blanks word.text hb).trans
    (if_neg fun h => hne (leadingName_eq_iff.mpr (isWholeWord_iff.mp h)))

theorem keyword_true (word : Name) (hb : blanks c = .ok () c₁)
    (he : leadingName c₁.unread = word.text.toList) :
    keyword word.text c = .ok true (c₁.skip word.text.length) :=
  (keyword_of_blanks word.text hb).trans (if_pos (isWholeWord_iff.mpr (leadingName_eq_iff.mp he)))

/-- A word is found exactly where a name is read that is this word, and it ends where the name does.
Where it is not found, nothing but the blanks has been read. -/
theorem keyword_iff_name (word : Name) (hb : blanks c = .ok () c₁) :
    (∀ c', keyword word.text c = .ok true c' ↔ name c = .ok word.text c') ∧
      ∀ c', keyword word.text c = .ok false c' ↔
        (∀ c₂, name c ≠ .ok word.text c₂) ∧ c' = c₁ := by
  have hname : name c = .ok (String.ofList (leadingName c₁.unread))
      (c₁.skip (leadingName c₁.unread).length) := bind_of_ok hb
  rw [hname]
  by_cases he : leadingName c₁.unread = word.text.toList
  · rw [keyword_true word hb he, he, String.ofList_toList, String.length_toList]
    simp
  · have hne : String.ofList (leadingName c₁.unread) ≠ word.text := by
      rintro h
      rw [← h, String.toList_ofList] at he
      exact he rfl
    rw [keyword_false word hb he]
    simp [hne, eq_comm (a := c₁)]

/-- A longer name is not taken for a word that it begins with, and none of its letters is lost. -/
theorem keyword_iff_name_elsewhere :
    blanks (.ofText "\n/**/ elsewhere" 8) = .ok () ⟨"elsewhere".toList, 2, 8⟩ ∧
      keyword "else" (.ofText "\n/**/ elsewhere" 8) = .ok false ⟨"elsewhere".toList, 2, 8⟩ := by
  have hb : blanks (.ofText "\n/**/ elsewhere" 8) = .ok () ⟨"elsewhere".toList, 2, 8⟩ := by
    rfl
  have hname : name (.ofText "\n/**/ elsewhere" 8) = .ok "elsewhere" ⟨[], 2, 8⟩ := by
    rfl
  refine ⟨hb, ((keyword_iff_name ⟨"else", by decide⟩ hb).2 _).mpr ⟨fun c₂ h => ?_, rfl⟩⟩
  exact absurd (EStateM.Result.ok.inj (hname.symm.trans h)).1 (by decide)

end Scan
end BCompiler
