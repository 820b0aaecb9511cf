import BCompiler.Source.Operator
import BCompiler.Proofs.Step

/-!
Reading tokens.

A text whose tokens are divided by blanks is read token by token. Some readers skip the blank behind
what they read and some leave it, so a place in such a text is given by the tokens that are left.
-/
namespace BCompiler

/-- The text of tokens with a blank in front of each. -/
def spaced (tokens : List String) : List Char := tokens.flatMap fun token => ' ' :: token.toList

@[simp] theorem spaced_nil : spaced [] = [] := rfl

@[simp] theorem spaced_cons (token : String) (tokens : List String) :
    spaced (token :: tokens) = ' ' :: (token.toList ++ spaced tokens) := rfl

theorem length_le_spaced (tokens : List String) : tokens.length ≤ (spaced tokens).length := by
  induction tokens with
  | nil => exact Nat.le_refl 0
  | cons token tokens ih =>
      simp only [spaced_cons, List.length_cons, List.length_append]
      omega

theorem spaced_intercalate (token : String) (tokens : List String) :
    ' ' :: (" ".intercalate (token :: tokens)).toList = spaced (token :: tokens) := by
  rw [String.toList_intercalate]
  induction tokens generalizing token with
  | nil => simp [List.intercalate]
  | cons next tokens ih =>
      rw [List.map_cons, List.map_cons, List.intercalate_cons_cons, spaced_cons, ← ih next]
      simp

/-- Whether a text is a name and nothing else. -/
def isName (text : String) : Bool :=
  match text.toList with
  | [] => false
  | c :: rest => isNameStart c && rest.all isNameChar

structure Name where
  text : String
  isName : isName text
  deriving DecidableEq

theorem Name.text_injective {x y : Name} (h : x.text = y.text) : x = y := by
  cases x
  cases y
  cases h
  rfl

/-- A word that is written without a sign. -/
structure Numeral where
  word : Word
  nonneg : 0 ≤ word
  deriving DecidableEq

theorem isBlank_eq_false {c : Char} (h : 32 < c.toNat) (h' : c.toNat < 127) :
    isBlank c = false := by
  rw [Bool.eq_false_iff]
  intro hb
  simp [isBlank, blankRanges] at hb
  omega

theorem isNameStart_iff {c : Char} :
    isNameStart c ↔ 97 ≤ c.toNat ∧ c.toNat ≤ 122 ∨ 65 ≤ c.toNat ∧ c.toNat ≤ 90 ∨ c = '_' := by
  simp [isNameStart, or_assoc]

theorem isDigit_iff {c : Char} : isDigit c ↔ 48 ≤ c.toNat ∧ c.toNat ≤ 57 := by
  simp [isDigit]

theorem isDigit_eq_false_of_isNameStart {c : Char} (h : isNameStart c) : isDigit c = false := by
  rw [Bool.eq_false_iff, ne_eq, isDigit_iff]
  rcases isNameStart_iff.mp h with hc | hc | rfl
  · omega
  · omega
  · decide

/-- A name begins with no mark. -/
theorem ne_of_isNameStart {c mark : Char} (h : isNameStart c) (hm : isNameStart mark = false) :
    c ≠ mark := by
  rintro rfl
  rw [h] at hm
  cases hm

theorem isDigit_eq (c : Char) : isDigit c = c.isDigit := by
  rw [Bool.eq_iff_iff, isDigit_iff]
  simp [Char.isDigit, UInt32.le_iff_toNat_le]

/-- What follows a token: nothing, or a blank first. -/
def Ends (text : List Char) : Prop := text = [] ∨ ∃ rest, text = ' ' :: rest

theorem ends_spaced (tokens : List String) : Ends (spaced tokens) := by
  cases tokens with
  | nil => exact .inl rfl
  | cons token tokens => exact .inr ⟨_, rfl⟩

/-- The tokens are what is left of the text, except that the blank in front may have been read. -/
def Cursor.At (c : Cursor) (tokens : List String) : Prop :=
  c.unread = spaced tokens ∨ ' ' :: c.unread = spaced tokens

/-- The token begins with the character, which is neither taken for a blank nor for the beginning
of a comment. -/
def Begins (token : String) (c : Char) : Prop :=
  ∃ rest, token.toList = c :: rest ∧ isBlank c = false ∧ (c = '/' → rest = [])

theorem begins_of_mark {token : String} {mark : Char} (h : token.toList = [mark])
    (hb : isBlank mark = false) : Begins token mark := ⟨[], h, hb, fun _ => rfl⟩

/-- The reader gives `a` and gets from the tokens `before` to the tokens `after`. -/
def Scan.Reads {α : Type} (step : Scan α) (before : List String) (a : α) (after : List String) :
    Prop :=
  ∀ c : Cursor, c.At before → ∃ c', step c = .ok a c' ∧ c'.At after

theorem Name.begins (x : Name) : ∃ first, Begins x.text first ∧ isNameStart first := by
  have h := x.isName
  unfold BCompiler.isName at h
  cases hl : x.text.toList with
  | nil =>
      rw [hl] at h
      cases h
  | cons first rest =>
      rw [hl, Bool.and_eq_true] at h
      refine ⟨first, ⟨rest, hl, ?_, ?_⟩, h.1⟩
      · rcases isNameStart_iff.mp h.1 with hc | hc | rfl
        · exact isBlank_eq_false (by omega) (by omega)
        · exact isBlank_eq_false (by omega) (by omega)
        · rfl
      · rintro rfl
        cases h.1

theorem Numeral.decimal_toList (n : Numeral) :
    ∃ k, n.word.decimal.toList = Nat.toDigits 10 k ∧ n.word = Int64.ofNat k := by
  have hnonneg : 0 ≤ n.word.toInt := Int64.le_iff_toInt_le.mp n.nonneg
  obtain ⟨k, hk⟩ := Int.eq_ofNat_of_zero_le hnonneg
  refine ⟨k, ?_, ?_⟩
  · rw [Word.decimal, hk]
    exact Nat.toList_repr
  · rw [← Int64.ofInt_toInt n.word, hk, Int64.ofInt_eq_ofNat]

namespace Scan

variable {α β : Type} {token : String} {first : Char} {tokens before between after : List String}

theorem Reads.bind {x : Scan α} {f : α → Scan β} {a : α} {b : β} (hx : Reads x before a between)
    (hf : Reads (f a) between b after) : Reads (x >>= f) before b after := by
  intro c hc
  obtain ⟨c₁, h₁, hc₁⟩ := hx c hc
  obtain ⟨c₂, h₂, hc₂⟩ := hf c₁ hc₁
  exact ⟨c₂, bind_eq_ok_iff.mpr ⟨a, c₁, h₁, h₂⟩, hc₂⟩

theorem Reads.pure (a : α) : Reads (Pure.pure a) tokens a tokens := fun c hc => ⟨c, rfl, hc⟩

theorem blanksFrom_solid {wordSize line : Nat} (h : Begins token first) {text : List Char}
    (ht : Ends text) :
    blanksFrom wordSize .text line (token.toList ++ text) =
      .ok () ⟨token.toList ++ text, line, wordSize⟩ := by
  obtain ⟨rest, he, hblank, hslash⟩ := h
  rw [he, List.cons_append]
  by_cases hc : first = '/'
  · subst hc
    rw [hslash rfl, List.nil_append]
    rcases ht with rfl | ⟨u, rfl⟩ <;> rfl
  · simp [blanksFrom, hc, hblank]

/-- Blanks end in front of the next token. -/
theorem blanks_token (h : Begins token first) (c : Cursor) (hc : c.At (token :: tokens)) :
    ∃ c', blanks c = .ok () c' ∧ c'.unread = token.toList ++ spaced tokens := by
  refine ⟨⟨token.toList ++ spaced tokens, c.line, c.wordSize⟩, ?_, rfl⟩
  rw [← blanksFrom_solid h (ends_spaced tokens)]
  unfold blanks
  rcases hc with hc | hc
  · rw [hc]
    rfl
  · rw [(List.cons.inj (hc.trans (spaced_cons token tokens))).2]

/-- Take the next token by a reader of characters. -/
theorem head?_token {recognize : List Char → Option (α × Nat)} {a : α} (h : Begins token first)
    (hr : recognize (token.toList ++ spaced tokens) = some (a, token.toList.length)) :
    Reads (do blanks; head? recognize) (token :: tokens) (some a) tokens := by
  intro c hc
  obtain ⟨c₁, h₁, hu⟩ := blanks_token h c hc
  refine ⟨c₁.skip token.toList.length, bind_eq_ok_iff.mpr ⟨(), c₁, h₁, ?_⟩, .inl ?_⟩
  · rw [head?, hu, hr]
  · rw [Cursor.unread_skip, hu, List.drop_left]

/-- Leave the next token where it is. -/
theorem head?_none {recognize : List Char → Option (α × Nat)} (h : Begins token first)
    (hr : recognize (token.toList ++ spaced tokens) = none) :
    Reads (do blanks; head? recognize) (token :: tokens) none (token :: tokens) := by
  intro c hc
  obtain ⟨c₁, h₁, hu⟩ := blanks_token h c hc
  refine ⟨c₁, bind_eq_ok_iff.mpr ⟨(), c₁, h₁, ?_⟩, .inr ?_⟩
  · rw [head?, hu, hr]
  · rw [hu, spaced_cons]

theorem blanks_nil (c : Cursor) (hc : c.At []) : blanks c = .ok () c ∧ c.unread = [] := by
  rcases hc with hc | hc
  · refine ⟨?_, hc⟩
    obtain ⟨unread, line, wordSize⟩ := c
    cases hc
    rfl
  · cases hc

theorem at_of_unread {c : Cursor} (h : c.unread = token.toList ++ spaced tokens) :
    c.At (token :: tokens) := .inr (h ▸ rfl)

theorem peekMark_solid (h : Begins token first) (c : Cursor) (hc : c.At (token :: tokens)) :
    ∃ c', peekMark c = .ok (some first) c' ∧ c'.unread = token.toList ++ spaced tokens := by
  obtain ⟨c₁, h₁, hu⟩ := blanks_token h c hc
  obtain ⟨rest, he, _⟩ := h
  refine ⟨c₁, bind_eq_ok_iff.mpr ⟨(), c₁, h₁, ?_⟩, hu⟩
  rw [peek, hu, he]
  rfl

theorem peekMark_token (h : Begins token first) :
    Reads peekMark (token :: tokens) (some first) (token :: tokens) := by
  intro c hc
  obtain ⟨c', h', hu⟩ := peekMark_solid h c hc
  exact ⟨c', h', at_of_unread hu⟩

theorem peekMark_nil : Reads peekMark [] none [] := by
  intro c hc
  obtain ⟨h, hu⟩ := blanks_nil c hc
  refine ⟨c, bind_eq_ok_iff.mpr ⟨(), c, h, ?_⟩, hc⟩
  rw [peek, hu]
  rfl

section Mark

variable {mark : Char}

/-- A mark that is looked for in any way is read as the next character. -/
theorem read_mark (h : token.toList = [mark]) {c : Cursor}
    (hu : c.unread = token.toList ++ spaced tokens) :
    ∃ c', read c = .ok (some mark) c' ∧ c'.At tokens := by
  rw [h] at hu
  refine ⟨{ c with unread := spaced tokens, line := lineAfter c.line mark }, ?_, .inl rfl⟩
  rw [read, hu]
  rfl

theorem readMark_token (h : token.toList = [mark]) (hb : isBlank mark = false) :
    Reads readMark (token :: tokens) (some mark) tokens := by
  intro c hc
  obtain ⟨c₁, h₁, hu⟩ := blanks_token (begins_of_mark h hb) c hc
  obtain ⟨c₂, h₂, hc₂⟩ := read_mark h hu
  exact ⟨c₂, bind_eq_ok_iff.mpr ⟨(), c₁, h₁, h₂⟩, hc₂⟩

theorem accept_token (h : token.toList = [mark]) (hb : isBlank mark = false) :
    Reads (accept mark) (token :: tokens) true tokens := by
  intro c hc
  obtain ⟨c₁, h₁, hu⟩ := peekMark_solid (begins_of_mark h hb) c hc
  obtain ⟨c₂, h₂, hc₂⟩ := read_mark h hu
  refine ⟨c₂, bind_eq_ok_iff.mpr ⟨some mark, c₁, h₁, ?_⟩, hc₂⟩
  rw [if_pos rfl]
  exact bind_eq_ok_iff.mpr ⟨some mark, c₂, h₂, rfl⟩

theorem accept_other (h : Begins token first) (hne : first ≠ mark) :
    Reads (accept mark) (token :: tokens) false (token :: tokens) := by
  refine (peekMark_token h).bind ?_
  rw [if_neg (by simpa using hne)]
  exact .pure false

theorem expect_token (h : token.toList = [mark]) (hb : isBlank mark = false) (place : String) :
    Reads (expect mark place) (token :: tokens) () tokens := by
  refine (readMark_token h hb).bind ?_
  rw [if_pos rfl]
  exact .pure ()

end Mark

/-- A name is read as far as it goes. -/
theorem leadingName_append {name : String} (h : isName name) {text : List Char}
    (ht : ∀ c ∈ text.head?, isNameChar c = false) :
    leadingName (name.toList ++ text) = name.toList := by
  unfold isName at h
  cases hl : name.toList with
  | nil =>
      rw [hl] at h
      cases h
  | cons first rest =>
      rw [hl, Bool.and_eq_true, List.all_eq_true] at h
      rw [List.cons_append, leadingName, if_pos h.1, List.takeWhile_append_of_pos h.2]
      cases text with
      | nil => simp
      | cons c text => simp [ht c rfl]

theorem blanks_name {x : Name} {text : List Char} {c : Cursor}
    (hc : c.unread = x.text.toList ++ text) : blanks c = .ok () c := by
  obtain ⟨first, ⟨rest, he, hblank, _⟩, hstart⟩ := x.begins
  have hne : first ≠ '/' := ne_of_isNameStart hstart rfl
  obtain ⟨unread, line, wordSize⟩ := c
  cases hc
  change blanksFrom wordSize .text line (x.text.toList ++ text) = _
  rw [he, List.cons_append]
  simp [blanksFrom, hne, hblank]

theorem name_solid {x : Name} {text : List Char} {c c₁ : Cursor} (hb : blanks c = .ok () c₁)
    (hu : c₁.unread = x.text.toList ++ text) (ht : ∀ ch ∈ text.head?, isNameChar ch = false) :
    name c = .ok x.text (c₁.skip x.text.toList.length) := by
  refine bind_eq_ok_iff.mpr ⟨(), c₁, hb, ?_⟩
  rw [hu, leadingName_append x.isName ht]
  exact congrArg (EStateM.Result.ok · _) String.ofList_toList

theorem isNameChar_spaced {ch : Char} (h : ch ∈ (spaced tokens).head?) : isNameChar ch = false := by
  rcases ends_spaced tokens with he | ⟨rest, he⟩ <;> rw [he] at h <;> cases h
  rfl

theorem name_token (x : Name) : Reads name (x.text :: tokens) x.text tokens := by
  intro c hc
  obtain ⟨_, hx, _⟩ := x.begins
  obtain ⟨c₁, h₁, hu⟩ := blanks_token hx c hc
  refine ⟨_, name_solid h₁ hu fun _ => isNameChar_spaced, .inl ?_⟩
  rw [Cursor.unread_skip, hu, List.drop_left]

end Scan
end BCompiler
