import BCompiler.Proofs.Source.Reader

/-!
Parts of a text that may be read apart.

Comments and literals are the zones of a text in which its characters lose their meaning. A part of
a text that ends outside of them is read in the same way whatever comes behind it, provided that a
blank comes first. The one exception is a comment directly after an equals sign, where the slash is
taken for an operator.
-/
namespace BCompiler

/-- What is left of a text after blanks and comments, unless a comment is not closed. -/
def afterBlanks : Region → List Char → Option (List Char)
  | .text, [] => some []
  | .text, '/' :: '*' :: rest => afterBlanks (.comment false) rest
  | .text, c :: rest => if isBlank c then afterBlanks .text rest else some (c :: rest)
  | .comment _, [] => none
  | .comment star, c :: rest =>
    if star && c == '/' then afterBlanks .text rest else afterBlanks (.comment (c == '*')) rest

theorem afterBlanks_iff {wordSize line : Nat} {region : Region} {text rest : List Char} :
    afterBlanks region text = some rest ↔
      ∃ line', Scan.blanksFrom wordSize region line text = .ok () ⟨rest, line', wordSize⟩ := by
  fun_induction Scan.blanksFrom wordSize region line text with
  | case1 line => simp [afterBlanks]
  | case2 line rest ih => rw [afterBlanks, ih]
  | case3 line c rest hne hblank ih =>
      rw [afterBlanks, if_pos hblank, ih]
      exact hne
  | case4 line c rest hne hblank =>
      rw [afterBlanks, if_neg hblank]
      · simp
      · exact hne
  | case5 star line => simp [afterBlanks]
  | case6 star line c rest hclose ih => rw [afterBlanks, if_pos hclose, ih]
  | case7 star line c rest hclose ih => rw [afterBlanks, if_neg hclose, ih]

theorem Scan.afterBlanks_of_blanks {c c₁ : Cursor} {u : Unit} (h : blanks c = .ok u c₁) :
    afterBlanks .text c.unread = some c₁.unread ∧ c₁.wordSize = c.wordSize := by
  have hsize := keepsSize_blanks c u c₁ h
  obtain ⟨unread, line, wordSize⟩ := c₁
  cases hsize
  exact ⟨afterBlanks_iff.mpr ⟨line, h⟩, rfl⟩

/-- The text begins with what is neither a blank nor a comment. -/
def Solid (text : List Char) : Prop := afterBlanks .text text = some text

theorem solid_of_afterBlanks {region : Region} {text rest : List Char}
    (h : afterBlanks region text = some rest) : Solid rest := by
  fun_induction afterBlanks region text with
  | case1 =>
      cases h
      rfl
  | case2 rest ih => exact ih h
  | case3 c rest hne hblank ih => exact ih h
  | case4 c rest hne hblank =>
      cases h
      unfold Solid
      rw [afterBlanks, if_neg hblank]
      exact hne
  | case5 star => cases h
  | case6 star c rest hclose ih => exact ih h
  | case7 star c rest hclose ih => exact ih h

/-- No comment opens at the head of the text. -/
def Unopened (text : List Char) : Prop := text.head? = some '/' → text.tail.head? ≠ some '*'

theorem unopened_cons_iff {c : Char} {rest : List Char} :
    Unopened (c :: rest) ↔ ∀ v, c = '/' → rest = '*' :: v → False := by
  constructor
  · rintro h v rfl rfl
    exact h rfl rfl
  · intro h hslash hstar
    obtain ⟨v, hv⟩ := List.head?_eq_some_iff.mp hstar
    exact h v (Option.some.inj hslash) hv

theorem unopened_of_ne {c : Char} (h : c ≠ '/') (rest : List Char) : Unopened (c :: rest) :=
  fun hslash => absurd (Option.some.inj hslash) h

/-- Nothing is skipped at a character that is neither a blank nor opens a comment. -/
theorem solid_cons {c : Char} {rest : List Char} (hblank : isBlank c = false)
    (hopen : Unopened (c :: rest)) : Solid (c :: rest) := by
  unfold Solid
  rw [afterBlanks, hblank]
  · rfl
  · exact unopened_cons_iff.mp hopen

theorem length_afterBlanks_le {region : Region} {text rest : List Char}
    (h : afterBlanks region text = some rest) : rest.length ≤ text.length := by
  fun_induction afterBlanks region text with
  | case1 =>
      cases h
      exact Nat.le_refl _
  | case4 c rest hne hblank =>
      cases h
      exact Nat.le_refl _
  | case5 star => cases h
  | case2 rest ih => exact Nat.le_trans (ih h) (by simp only [List.length_cons]; omega)
  | case3 c rest hne hblank ih => exact Nat.le_succ_of_le (ih h)
  | case6 star c rest hclose ih => exact Nat.le_succ_of_le (ih h)
  | case7 star c rest hclose ih => exact Nat.le_succ_of_le (ih h)

/-- Where a text is solid, no blank comes first and no comment opens. -/
theorem Solid.cons_iff {c : Char} {rest : List Char} :
    Solid (c :: rest) ↔ isBlank c = false ∧ Unopened (c :: rest) := by
  refine ⟨fun h => ⟨?_, ?_⟩, fun h => solid_cons h.1 h.2⟩
  · rw [Bool.eq_false_iff]
    intro hblank
    rw [Solid, afterBlanks, if_pos hblank] at h
    · exact absurd (length_afterBlanks_le h) (by simp)
    · rintro v rfl
      cases hblank
  · refine unopened_cons_iff.mpr ?_
    rintro v rfl rfl
    rw [Solid, afterBlanks] at h
    exact absurd (length_afterBlanks_le h) (by simp only [List.length_cons]; omega)

theorem Solid.blanks {c : Cursor} (h : Solid c.unread) : Scan.blanks c = .ok () c := by
  obtain ⟨unread, line, size⟩ := c
  cases unread with
  | nil => rfl
  | cons first rest =>
      obtain ⟨hblank, hopen⟩ := Solid.cons_iff.mp h
      change Scan.blanksFrom size .text line (first :: rest) = _
      rw [Scan.blanksFrom, hblank]
      · rfl
      · exact unopened_cons_iff.mp hopen

/-- Where the characters of a text stand: in its code, in a comment, in a literal, or after the
star of an escape in a literal. -/
inductive Zone where
  | code (region : Region)
  | quoted (quote : Char)
  | escaped (quote : Char)
  deriving DecidableEq, Repr

/-- The zone behind a character of the code that opens no comment. -/
def Zone.after (c : Char) : Zone := if c == '"' || c == '\'' then .quoted c else .code .text

/-- The zone behind a character of a literal. -/
def Zone.inside (quote c : Char) : Zone :=
  if c == quote then .code .text else if c == '*' then .escaped quote else .quoted quote

/-- Whether a text that begins in the zone ends in its code, outside of comments and literals, and
no comment of it opens directly after an equals sign. -/
def endsInCode : Zone → List Char → Bool
  | .code .text, [] => true
  | .code .text, '=' :: '/' :: '*' :: _ => false
  | .code .text, '/' :: '*' :: rest => endsInCode (.code (.comment false)) rest
  | .code .text, c :: rest => endsInCode (.after c) rest
  | .code (.comment _), [] => false
  | .code (.comment star), c :: rest =>
    if star && c == '/' then endsInCode (.code .text) rest
    else endsInCode (.code (.comment (c == '*'))) rest
  | .quoted _, [] => false
  | .quoted quote, c :: rest => endsInCode (.inside quote c) rest
  | .escaped _, [] => false
  | .escaped quote, _ :: rest => endsInCode (.quoted quote) rest

/-- No comment opens behind an equals sign. -/
theorem unopened_of_equals {rest : List Char} (h : endsInCode (.code .text) ('=' :: rest)) :
    Unopened rest := by
  cases rest with
  | nil => nofun
  | cons c rest =>
      refine unopened_cons_iff.mpr ?_
      rintro v rfl rfl
      cases h

theorem endsInCode_tail {c : Char} {rest : List Char} (h : endsInCode (.code .text) (c :: rest))
    (hopen : Unopened (c :: rest)) : endsInCode (.after c) rest := by
  rw [endsInCode] at h
  · exact h
  · rintro v rfl rfl
    cases h
  · exact unopened_cons_iff.mp hopen

/-- A character that has no meaning for the zones. -/
def isInert (c : Char) : Bool := !(['"', '\'', '/', '='].contains c)

theorem isInert_of_isBlank {c : Char} (h : isBlank c) : isInert c := by
  have hne : c ≠ '"' ∧ c ≠ '\'' ∧ c ≠ '/' ∧ c ≠ '=' := by
    refine ⟨?_, ?_, ?_, ?_⟩ <;> rintro rfl <;> cases h
  simpa [isInert] using hne

theorem isInert_of_isNameChar {c : Char} (h : isNameChar c) : isInert c := by
  have hne : c ≠ '"' ∧ c ≠ '\'' ∧ c ≠ '/' ∧ c ≠ '=' := by
    refine ⟨?_, ?_, ?_, ?_⟩ <;> rintro rfl <;> cases h
  simpa [isInert] using hne

theorem endsInCode_cons {c : Char} (h : isInert c) (rest : List Char) :
    endsInCode (.code .text) (c :: rest) = endsInCode (.code .text) rest := by
  have hne : c ≠ '"' ∧ c ≠ '\'' ∧ c ≠ '/' ∧ c ≠ '=' := by simpa [isInert] using h
  simp [endsInCode, Zone.after, hne]

theorem endsInCode_append {word : List Char} (h : ∀ c ∈ word, isInert c) (rest : List Char) :
    endsInCode (.code .text) (word ++ rest) = endsInCode (.code .text) rest := by
  induction word with
  | nil => rfl
  | cons c word ih =>
      obtain ⟨hc, hword⟩ := List.forall_mem_cons.mp h
      rw [List.cons_append, endsInCode_cons hc, ih hword]

/-- A text is empty or begins with a blank. -/
def Detached (text : List Char) : Prop := ∀ c ∈ text.head?, isBlank c

theorem detached_nil : Detached [] := nofun

theorem Detached.head?_ne {text : List Char} (h : Detached text) {c : Char}
    (hc : isBlank c = false) : text.head? ≠ some c := by
  intro he
  cases (h c he).symm.trans hc

/-- What is not blank comes next behind a text if it does in front of a blank. -/
theorem Detached.head?_append {w : List Char} (h : Detached w) {c : Char} (hc : isBlank c = false)
    (text : List Char) : (text ++ w).head? = some c ↔ text.head? = some c := by
  cases text with
  | nil => exact ⟨fun he => absurd he (h.head?_ne hc), nofun⟩
  | cons first rest => exact Iff.rfl

theorem Solid.append {c : Char} {rest w : List Char} (h : Solid (c :: rest)) (hw : Detached w) :
    Solid (c :: (rest ++ w)) := by
  obtain ⟨hblank, hopen⟩ := Solid.cons_iff.mp h
  exact solid_cons hblank fun hc he => hopen hc ((hw.head?_append rfl rest).mp he)

/-- The text before `w` closes what the zone has opened, or else nothing does. -/
def Closes (zone : Zone) (w text : List Char) : Prop := w = [] ∨ endsInCode zone text

theorem Closes.imp {zone zone' : Zone} {w text text' : List Char} (h : Closes zone w text)
    (hends : endsInCode zone text → endsInCode zone' text') : Closes zone' w text' :=
  Or.imp id hends h

/-- Skipping blanks ends before `w`, and then `w` does not matter, or it goes on into `w`. -/
theorem afterBlanks_append {region : Region} {text w r : List Char} (hw : Detached w)
    (hclose : Closes (.code region) w text) (h : afterBlanks region (text ++ w) = some r) :
    (∃ c rest, Solid (c :: rest) ∧ Closes (.code .text) w (c :: rest) ∧ r = c :: (rest ++ w) ∧
      ∀ w', Detached w' → afterBlanks region (text ++ w') = some (c :: (rest ++ w'))) ∨
    (afterBlanks .text w = some r ∧
      ∀ w', afterBlanks region (text ++ w') = afterBlanks .text w') := by
  fun_induction afterBlanks region text with
  | case1 => exact .inr ⟨h, fun _ => rfl⟩
  | case2 rest ih => exact ih (hclose.imp id) h
  | case3 c rest hne hblank ih =>
      have hskip : ∀ v, afterBlanks .text (c :: (rest ++ v)) = afterBlanks .text (rest ++ v) := by
        intro v
        rw [afterBlanks, if_pos hblank]
        rintro u rfl
        cases hblank
      have hends := endsInCode_cons (isInert_of_isBlank hblank) rest
      simp only [List.cons_append, hskip] at h ⊢
      exact ih (hclose.imp hends.symm.trans) h
  | case4 c rest hne hblank =>
      have hsolid : Solid (c :: rest) :=
        solid_cons (Bool.eq_false_iff.mpr hblank) (unopened_cons_iff.mpr hne)
      have hr := Option.some.inj (h.symm.trans (hsolid.append hw))
      exact .inl ⟨c, rest, hsolid, hclose, hr, fun w' hw' => hsolid.append hw'⟩
  | case5 star =>
      rcases hclose with rfl | hclose
      · cases h
      · cases hclose
  | case6 star c rest hstar ih =>
      simp only [List.cons_append, afterBlanks, if_pos hstar] at h ⊢
      exact ih (hclose.imp fun he => by rwa [endsInCode, if_pos hstar] at he) h
  | case7 star c rest hstar ih =>
      simp only [List.cons_append, afterBlanks, if_neg hstar] at h ⊢
      exact ih (hclose.imp fun he => by rwa [endsInCode, if_neg hstar] at he) h

theorem takeWhile_append_detached {p : Char → Bool} (hp : ∀ c, isBlank c → p c = false)
    {w : List Char} (hw : Detached w) (text : List Char) :
    (text ++ w).takeWhile p = text.takeWhile p := by
  induction text with
  | nil =>
      cases w with
      | nil => rfl
      | cons c w => exact List.takeWhile_cons_of_neg (Bool.eq_false_iff.mp (hp c (hw c rfl)))
  | cons c text ih => rw [List.cons_append, List.takeWhile_cons, List.takeWhile_cons, ih]

theorem isNameChar_of_isBlank {c : Char} (h : isBlank c) : isNameChar c = false := by
  rw [Bool.eq_false_iff]
  intro hc
  have hblank : isBlank c = false := by
    rcases Bool.or_eq_true_iff.mp hc with hc | hc
    · rcases isNameStart_iff.mp hc with hc | hc | rfl
      · exact isBlank_eq_false (by omega) (by omega)
      · exact isBlank_eq_false (by omega) (by omega)
      · rfl
    · have := isDigit_iff.mp hc
      exact isBlank_eq_false (by omega) (by omega)
  cases h.symm.trans hblank

theorem isDigit_of_isBlank {c : Char} (h : isBlank c) : isDigit c = false :=
  (Bool.or_eq_false_iff.mp (isNameChar_of_isBlank h)).2

theorem leadingName_append_detached {w : List Char} (hw : Detached w) (text : List Char) :
    leadingName (text ++ w) = leadingName text := by
  cases text with
  | nil =>
      cases w with
      | nil => rfl
      | cons c w =>
          have hc := (Bool.or_eq_false_iff.mp (isNameChar_of_isBlank (hw c rfl))).1
          exact if_neg (Bool.eq_false_iff.mp hc)
  | cons c text =>
      rw [List.cons_append, leadingName, leadingName,
        takeWhile_append_detached (fun _ => isNameChar_of_isBlank) hw]

theorem leadingName_isPrefix (text : List Char) : leadingName text <+: text := by
  cases text with
  | nil => exact List.prefix_rfl
  | cons c rest =>
      rw [leadingName]
      split
      · exact List.cons_prefix_cons.mpr ⟨rfl, List.takeWhile_prefix _⟩
      · exact List.nil_prefix

theorem isNameChar_of_mem_leadingName {text : List Char} {c : Char} (h : c ∈ leadingName text) :
    isNameChar c := by
  cases text with
  | nil => cases h
  | cons first rest =>
      rw [leadingName] at h
      split at h
      · next hfirst =>
          rcases List.mem_cons.mp h with rfl | h
          · exact Bool.or_eq_true_iff.mpr (.inl hfirst)
          · exact List.all_eq_true.mp (List.all_takeWhile (l := rest)) _ h
      · cases h

theorem isNameChar_of_isName {name : String} (h : isName name) {c : Char} (hc : c ∈ name.toList) :
    isNameChar c := by
  unfold isName at h
  split at h
  · cases h
  · next first rest hl =>
      rw [hl] at hc
      obtain ⟨hfirst, hrest⟩ := Bool.and_eq_true_iff.mp h
      rcases List.mem_cons.mp hc with rfl | hc
      · exact Bool.or_eq_true_iff.mpr (.inl hfirst)
      · exact List.all_eq_true.mp hrest c hc

/-- A word may be dropped from the head of a text. -/
theorem endsInCode_drop {word text : List Char} (hp : word <+: text)
    (hw : ∀ c ∈ word, isNameChar c) :
    endsInCode (.code .text) (text.drop word.length) = endsInCode (.code .text) text := by
  obtain ⟨rest, rfl⟩ := hp
  rw [List.drop_left, endsInCode_append fun c hc => isInert_of_isNameChar (hw c hc)]

/-- A string that is closed before `w` is read in the same way whatever comes in place of `w`. -/
theorem stringFrom_append {wordSize line : Nat} {seen text w : List Char} {value : String}
    {c : Cursor} (hclose : Closes (.quoted '"') w text)
    (h : Scan.stringFrom wordSize seen line (text ++ w) = .ok value c) :
    ∃ rest, Closes (.code .text) w rest ∧ (∃ l, c = ⟨rest ++ w, l, wordSize⟩) ∧
      ∀ line' w', ∃ l, Scan.stringFrom wordSize seen line' (text ++ w') =
        .ok value ⟨rest ++ w', l, wordSize⟩ := by
  fun_induction Scan.stringFrom wordSize seen line text with
  | case1 seen line =>
      rcases hclose with rfl | hclose
      · cases h
      · cases hclose
  | case2 seen line rest =>
      cases h
      exact ⟨rest, hclose, ⟨_, rfl⟩, fun line' w' => ⟨_, rfl⟩⟩
  | case3 seen line =>
      rcases hclose with rfl | hclose
      · cases h
      · cases hclose
  | case4 seen line ch rest decoded hd ih =>
      simp only [List.cons_append, Scan.stringFrom, hd] at h ⊢
      exact ih hclose h
  | case5 seen line ch rest hd =>
      simp only [List.cons_append, Scan.stringFrom, hd] at h
      cases h
  | case6 seen line ch rest hquote hlast hescape ih =>
      have hstar : ch ≠ '*' := by
        rintro rfl
        cases rest with
        | nil => exact hlast rfl rfl
        | cons d rest => exact hescape d rest rfl rfl
      have hne : ch ≠ '"' := hquote
      have hends : endsInCode (.quoted '"') (ch :: rest) = endsInCode (.quoted '"') rest := by
        simp [endsInCode, Zone.inside, hne, hstar]
      have hstep : ∀ l v, Scan.stringFrom wordSize seen l (ch :: (rest ++ v)) =
          Scan.stringFrom wordSize (ch :: seen) (lineAfter l ch) (rest ++ v) := by
        intro l v
        rw [Scan.stringFrom]
        · exact hquote
        · exact fun he => absurd he hstar
        · exact fun _ _ he => absurd he hstar
      simp only [List.cons_append, hstep] at h ⊢
      obtain ⟨v, hv, hc, hother⟩ := ih (hclose.imp hends.symm.trans) h
      exact ⟨v, hv, hc, fun l => hother _⟩

end BCompiler
