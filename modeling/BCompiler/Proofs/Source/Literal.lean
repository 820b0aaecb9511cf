import BCompiler.Proofs.Source.Statement

/-!
Reading the literals of expressions.

How long a character literal may be depends on the word size, which every reader leaves as it is. So
a place in a text is given by the tokens that are left together with the word size.
-/
namespace BCompiler

/-- A character between quotes: itself, or the character that an escape stands for. -/
inductive Letter (quote : Char) where
  | plain (c : Char) (h : c ≠ quote ∧ c ≠ '*')
  | escape (c : Char) (h : (escaped? c).isSome)
  deriving DecidableEq

namespace Letter

variable {quote : Char}

def char : Letter quote → Char
  | plain c _ => c
  | escape c h => (escaped? c).get h

def written : Letter quote → List Char
  | plain c _ => [c]
  | escape c _ => ['*', c]

end Letter

/-- The token of letters between quotes. -/
def quoted {quote : Char} (letters : List (Letter quote)) : String :=
  String.ofList (quote :: (letters.flatMap Letter.written ++ [quote]))

theorem toList_quoted {quote : Char} (letters : List (Letter quote)) :
    (quoted letters).toList = quote :: (letters.flatMap Letter.written ++ [quote]) :=
  String.toList_ofList

theorem begins_quoted {quote : Char} (letters : List (Letter quote)) (hb : isBlank quote = false)
    (hq : quote ≠ '/') : Begins (quoted letters) quote :=
  ⟨_, toList_quoted letters, hb, fun h => absurd h hq⟩

/-- A character literal that fits into a word. -/
structure CharacterLiteral (size : Nat) where
  letters : List (Letter '\'')
  fits : letters.length ≤ size
  deriving DecidableEq

/-- The word that the characters are packed into. -/
def CharacterLiteral.word {size : Nat} (l : CharacterLiteral size) : Word :=
  (l.letters.map Letter.char).foldl Word.pack 0

/-- The tokens and the word size that a reader finds. -/
structure Cursor.Faces (c : Cursor) (size : Nat) (tokens : List String) : Prop where
  at_tokens : c.At tokens
  wordSize : c.wordSize = size

namespace Scan

variable {α β : Type} {size : Nat} {before between after tokens : List String}

/-- The reader leaves the word size as it is. -/
def KeepsSize (step : Scan α) : Prop := ∀ c a c', step c = .ok a c' → c'.wordSize = c.wordSize

theorem KeepsSize.pure (a : α) : KeepsSize (Pure.pure a : Scan α) := by
  intro c b c' h
  rw [(pure_eq_ok_iff.mp h).2]

theorem KeepsSize.throw (e : Error) : KeepsSize (throw e : Scan α) :=
  fun _ _ _ h => absurd h throw_ne_ok

theorem KeepsSize.bind {x : Scan α} {f : α → Scan β} (hx : KeepsSize x)
    (hf : ∀ a, KeepsSize (f a)) : KeepsSize (x >>= f) := by
  intro c b c' h
  obtain ⟨a, c₁, ha, hb⟩ := bind_eq_ok_iff.mp h
  exact (hf a c₁ b c' hb).trans (hx c a c₁ ha)

theorem KeepsSize.ite {p : Prop} [Decidable p] {x y : Scan α} (hx : KeepsSize x)
    (hy : KeepsSize y) : KeepsSize (if p then x else y) := by
  split
  · exact hx
  · exact hy

theorem wordSize_blanksFrom {c : Cursor} {u : Unit} (region : Region) (line : Nat)
    (text : List Char) (h : blanksFrom size region line text = .ok u c) : c.wordSize = size := by
  fun_induction blanksFrom size region line text with
  | case1 | case4 =>
      cases h
      rfl
  | case2 _ _ ih | case3 _ _ _ _ _ ih | case6 _ _ _ _ _ ih | case7 _ _ _ _ _ ih => exact ih h
  | case5 => cases h

theorem keepsSize_blanks : KeepsSize blanks := fun _ _ _ h => wordSize_blanksFrom _ _ _ h

theorem keepsSize_head? (recognize : List Char → Option (α × Nat)) :
    KeepsSize (head? recognize) := by
  intro c a c' h
  unfold head? at h
  split at h <;> cases h <;> rfl

theorem keepsSize_peek : KeepsSize peek := by
  intro c a c' h
  cases h
  rfl

theorem keepsSize_read : KeepsSize read := by
  intro c a c' h
  unfold read at h
  split at h <;> cases h <;> rfl

theorem keepsSize_name : KeepsSize name :=
  keepsSize_blanks.bind fun _ c a c' h => by
    cases h
    rfl

theorem keepsSize_number : KeepsSize number := by
  refine keepsSize_blanks.bind fun _ c a c' h => ?_
  simp only at h
  split at h
  · cases h
  · split at h
    · split at h <;> cases h
      rfl
    · cases h
      rfl

theorem keepsSize_escape : KeepsSize escape := by
  refine keepsSize_read.bind fun found => ?_
  cases found with
  | none => exact .pure _
  | some c =>
      simp only
      split
      · exact .pure _
      · exact .throw _

theorem keepsSize_characterFrom (room : Nat) (value : Word) :
    KeepsSize (characterFrom room value) := by
  induction room generalizing value with
  | zero => exact keepsSize_read.bind fun _ => .ite (.pure _) (.throw _)
  | succ room ih =>
      refine keepsSize_read.bind fun found => ?_
      split
      · exact .throw _
      · exact .pure _
      · refine keepsSize_escape.bind fun escaped => ?_
        cases escaped with
        | none => exact .throw _
        | some c => exact ih _
      · exact ih _

theorem wordSize_stringFrom {c : Cursor} {text : String} (seen : List Char) (line : Nat)
    (chars : List Char) (h : stringFrom size seen line chars = .ok text c) :
    c.wordSize = size := by
  fun_induction stringFrom size seen line chars with
  | case2 =>
      cases h
      rfl
  | case4 _ _ _ _ _ _ ih => exact ih h
  | case6 _ _ _ _ _ _ _ ih => exact ih h
  | case1 | case3 | case5 => cases h

theorem keepsSize_constant? : KeepsSize constant? := by
  refine (keepsSize_blanks.bind fun _ => keepsSize_peek).bind fun found => ?_
  split
  · exact keepsSize_read.bind fun _ =>
      KeepsSize.bind (fun c => keepsSize_characterFrom c.wordSize 0 c) fun _ => .pure _
  · exact .ite (keepsSize_number.bind fun _ => .pure _) (.pure _)
  · exact .pure _

theorem keepsSize_peekMark : KeepsSize peekMark := keepsSize_blanks.bind fun _ => keepsSize_peek

theorem keepsSize_readMark : KeepsSize readMark := keepsSize_blanks.bind fun _ => keepsSize_read

theorem keepsSize_accept (mark : Char) : KeepsSize (accept mark) :=
  keepsSize_peekMark.bind fun _ => .ite (keepsSize_read.bind fun _ => .pure _) (.pure _)

theorem keepsSize_expect (mark : Char) (place : String) : KeepsSize (expect mark place) :=
  keepsSize_readMark.bind fun _ => .ite (.pure _) (.throw _)

theorem keepsSize_another (close : Char) (place : String) : KeepsSize (another close place) :=
  keepsSize_readMark.bind fun _ => .ite (.pure _) (.ite (.pure _) (.throw _))

theorem keepsSize_connective (level : Nat) : KeepsSize (connective level) :=
  keepsSize_blanks.bind fun _ => keepsSize_head? _

theorem keepsSize_suffix : KeepsSize suffix := keepsSize_blanks.bind fun _ => keepsSize_head? _

theorem keepsSize_sign : KeepsSize sign := by
  refine keepsSize_blanks.bind fun _ => (keepsSize_head? _).bind fun found => ?_
  cases found with
  | some s => exact .pure _
  | none =>
      refine keepsSize_peek.bind fun next => ?_
      split
      · exact .throw _
      · exact keepsSize_read.bind fun _ => keepsSize_read.bind fun _ => .throw _
      · exact .pure _

theorem keepsSize_atom : KeepsSize atom := by
  refine keepsSize_constant?.bind fun found => ?_
  cases found with
  | some value => exact .pure _
  | none =>
      refine keepsSize_peek.bind fun _ => .ite ?_ ?_
      · exact keepsSize_name.bind fun _ => keepsSize_peekMark.bind fun _ => .pure _
      · refine keepsSize_read.bind fun mark => ?_
        split
        · exact KeepsSize.bind (fun c a c' h => wordSize_stringFrom _ _ _ h) fun _ => .pure _
        · exact .pure _
        · exact .throw _

/-- The reader gives `a` and gets from the tokens `before` to the tokens `after` where the word
size is as given. -/
def Takes (size : Nat) (step : Scan α) (before : List String) (a : α) (after : List String) :
    Prop :=
  ∀ c : Cursor, c.Faces size before → ∃ c', step c = .ok a c' ∧ c'.Faces size after

theorem Reads.takes {step : Scan α} {a : α} (h : step.Reads before a after)
    (hk : KeepsSize step) : Takes size step before a after := by
  intro c hc
  obtain ⟨c', h', hat⟩ := h c hc.at_tokens
  exact ⟨c', h', hat, (hk c a c' h').trans hc.wordSize⟩

theorem read_cons {c : Cursor} {ch : Char} {rest : List Char} (h : c.unread = ch :: rest) :
    read c = .ok (some ch) { c with unread := rest, line := lineAfter c.line ch } := by
  rw [read, h]

theorem escape_cons {ch : Char} (hs : (escaped? ch).isSome) {c : Cursor} {rest : List Char}
    (hu : c.unread = ch :: rest) :
    escape c = .ok (some ((escaped? ch).get hs))
      { c with unread := rest, line := lineAfter c.line ch } := by
  obtain ⟨decoded, hd⟩ := Option.isSome_iff_exists.mp hs
  refine (bind_of_ok (read_cons hu)).trans ?_
  simp only [hd]
  rfl

/-- A letter is read as its character. -/
theorem characterFrom_letter (letter : Letter '\'') (room : Nat) (value : Word) {rest : List Char}
    {c : Cursor} (hu : c.unread = letter.written ++ rest) :
    ∃ c', characterFrom (room + 1) value c = characterFrom room (value.pack letter.char) c' ∧
      c'.unread = rest := by
  cases letter with
  | plain ch hne =>
      refine ⟨{ c with unread := rest, line := lineAfter c.line ch }, ?_, rfl⟩
      refine (bind_of_ok (read_cons hu)).trans ?_
      obtain ⟨hquote, hstar⟩ := hne
      simp only
      rfl
  | escape ch hs =>
      refine ⟨{ c with unread := rest, line := lineAfter (lineAfter c.line '*') ch }, ?_, rfl⟩
      exact (bind_of_ok (read_cons hu)).trans (bind_of_ok (escape_cons hs rfl))

/-- Letters are packed one by one, as long as there is room for them. -/
theorem characterFrom_written (letters : List (Letter '\'')) (room : Nat) (value : Word)
    {rest : List Char} {c : Cursor} (hu : c.unread = letters.flatMap Letter.written ++ rest) :
    ∃ c', characterFrom (room + letters.length) value c =
      characterFrom room ((letters.map Letter.char).foldl Word.pack value) c' ∧
        c'.unread = rest := by
  induction letters generalizing value c with
  | nil => exact ⟨c, rfl, hu⟩
  | cons letter letters ih =>
      rw [List.flatMap_cons, List.append_assoc] at hu
      obtain ⟨c₁, h₁, hu₁⟩ := characterFrom_letter letter (room + letters.length) value hu
      obtain ⟨c', h', hrest⟩ := ih (value.pack letter.char) hu₁
      exact ⟨c', h₁.trans h', hrest⟩

theorem characterFrom_letters (letters : List (Letter '\'')) {room : Nat}
    (hroom : letters.length ≤ room) (value : Word) {rest : List Char} {c : Cursor}
    (hu : c.unread = letters.flatMap Letter.written ++ '\'' :: rest) :
    ∃ c', characterFrom room value c =
      .ok ((letters.map Letter.char).foldl Word.pack value) c' ∧ c'.unread = rest := by
  obtain ⟨room, rfl⟩ := Nat.exists_eq_add_of_le' hroom
  obtain ⟨c₁, h₁, hu₁⟩ := characterFrom_written letters room value hu
  refine ⟨{ c₁ with unread := rest, line := lineAfter c₁.line '\'' }, h₁.trans ?_, rfl⟩
  -- The closing quote is looked for in the same way where there is no room left.
  cases room with
  | zero => exact bind_of_ok (read_cons hu₁)
  | succ room => exact bind_of_ok (read_cons hu₁)

theorem stringFrom_letter (letter : Letter '"') (seen : List Char) (line : Nat)
    (rest : List Char) :
    ∃ line', stringFrom size seen line (letter.written ++ rest) =
      stringFrom size (letter.char :: seen) line' rest := by
  cases letter with
  | plain c hne =>
      refine ⟨lineAfter line c, ?_⟩
      simp [Letter.written, Letter.char, stringFrom, hne]
  | escape c hs =>
      obtain ⟨decoded, hd⟩ := Option.isSome_iff_exists.mp hs
      refine ⟨line, ?_⟩
      simp [Letter.written, Letter.char, stringFrom, hd]

/-- Letters are read one by one. -/
theorem stringFrom_written (size : Nat) (letters : List (Letter '"')) (seen : List Char)
    (line : Nat) (rest : List Char) :
    ∃ line', stringFrom size seen line (letters.flatMap Letter.written ++ rest) =
      stringFrom size ((letters.map Letter.char).reverse ++ seen) line' rest := by
  induction letters generalizing seen line with
  | nil => exact ⟨line, rfl⟩
  | cons letter letters ih =>
      rw [List.flatMap_cons, List.append_assoc]
      obtain ⟨line₁, h₁⟩ := @stringFrom_letter size letter seen line
        (letters.flatMap Letter.written ++ rest)
      obtain ⟨line', h'⟩ := ih (letter.char :: seen) line₁
      refine ⟨line', ?_⟩
      rw [h₁, h', List.map_cons, List.reverse_cons, List.append_assoc]
      rfl

theorem stringFrom_letters (size : Nat) (letters : List (Letter '"')) (seen : List Char)
    (line : Nat) (rest : List Char) :
    ∃ c, stringFrom size seen line (letters.flatMap Letter.written ++ '"' :: rest) =
      .ok (String.ofList (seen.reverse ++ letters.map Letter.char)) c ∧ c.unread = rest := by
  obtain ⟨line', h⟩ := stringFrom_written size letters seen line ('"' :: rest)
  refine ⟨⟨rest, line', size⟩, ?_, rfl⟩
  rw [h, stringFrom, List.reverse_append, List.reverse_reverse]

theorem unread_quoted {quote : Char} (letters : List (Letter quote)) {c : Cursor}
    (hu : c.unread = (quoted letters).toList ++ spaced tokens) :
    c.unread = quote :: (letters.flatMap Letter.written ++ quote :: spaced tokens) := by
  rw [hu, toList_quoted, List.cons_append, List.append_assoc]
  rfl

/-- The characters of a literal behind its opening quote, where the word is large enough. -/
theorem character_letters (l : CharacterLiteral size) (rest : List Char) {c : Cursor}
    (hsize : c.wordSize = size)
    (hu : c.unread = l.letters.flatMap Letter.written ++ '\'' :: rest) :
    ∃ c', character c = .ok l.word c' ∧ c'.unread = rest :=
  characterFrom_letters l.letters (Nat.le_trans l.fits (Nat.le_of_eq hsize.symm)) 0 hu

/-- A character literal, where the word is large enough for it. -/
theorem constant?_character (l : CharacterLiteral size) :
    Takes size constant? (quoted l.letters :: tokens) (some l.word) tokens := by
  intro c hc
  have hb : Begins (quoted l.letters) '\'' := begins_quoted _ rfl (by decide)
  obtain ⟨c₁, h₁, hu₁⟩ := peekMark_solid hb c hc.at_tokens
  have hsize : c₁.wordSize = size := (keepsSize_peekMark c _ c₁ h₁).trans hc.wordSize
  have hread := read_cons (unread_quoted l.letters hu₁)
  obtain ⟨c₂, h₂, hu₂⟩ := character_letters l (spaced tokens)
    (c := { c₁ with
      unread := l.letters.flatMap Letter.written ++ '\'' :: spaced tokens
      line := lineAfter c₁.line '\'' }) hsize rfl
  have hconstant : constant? c = .ok (some l.word) c₂ :=
    bind_eq_ok_iff.mpr ⟨_, c₁, h₁, bind_eq_ok_iff.mpr ⟨_, _, hread,
      bind_eq_ok_iff.mpr ⟨l.word, c₂, h₂, rfl⟩⟩⟩
  exact ⟨c₂, hconstant, .inl hu₂, (keepsSize_constant? c _ c₂ hconstant).trans hc.wordSize⟩

theorem atom_string (letters : List (Letter '"')) :
    Reads atom (quoted letters :: tokens) (.text (String.ofList (letters.map Letter.char)))
      tokens := by
  intro c hc
  have hb : Begins (quoted letters) '"' := begins_quoted _ rfl (by decide)
  obtain ⟨c₁, h₁, hu₁⟩ := constant?_none hb rfl (by decide) c hc
  have hread := read_cons (unread_quoted letters hu₁)
  have hpeek : peek c₁ = .ok (some '"') c₁ := by
    rw [peek, unread_quoted letters hu₁]
    rfl
  obtain ⟨c₂, h₂, hu₂⟩ := stringFrom_letters c₁.wordSize letters []
    (lineAfter c₁.line '"') (spaced tokens)
  refine ⟨c₂, bind_eq_ok_iff.mpr ⟨none, c₁, h₁, ?_⟩, .inl hu₂⟩
  refine bind_eq_ok_iff.mpr ⟨_, c₁, hpeek, bind_eq_ok_iff.mpr ⟨_, _, hread, ?_⟩⟩
  exact bind_eq_ok_iff.mpr ⟨_, c₂, h₂, rfl⟩

/-- A name that an argument list follows. -/
theorem atom_callee (x : Name) :
    Reads atom (x.text :: "(" :: tokens) (.name x.text true) ("(" :: tokens) := by
  intro c hc
  obtain ⟨_, hb, _⟩ := x.begins
  obtain ⟨c₁, h₁, hu⟩ := blanks_token hb c hc
  have hbehind : (c₁.skip x.text.toList.length).At ("(" :: tokens) := by
    refine .inl ?_
    rw [Cursor.unread_skip, hu, List.drop_left]
  obtain ⟨c₂, h₂, hc₂⟩ := peekMark_token (begins_of_mark rfl rfl) _ hbehind
  exact ⟨c₂, atom_solid h₁ hu (fun _ => isNameChar_spaced) h₂, hc₂⟩

theorem sign_dereference : Reads sign ("*" :: tokens) (some .dereference) tokens :=
  sign_token (begins_of_mark rfl rfl) rfl

theorem sign_addressOf : Reads sign ("&" :: tokens) (some .addressOf) tokens :=
  sign_token (begins_of_mark rfl rfl) rfl

theorem suffix_subscript : Reads suffix ("[" :: tokens) (some .subscript) tokens :=
  head?_token (begins_of_mark rfl rfl) rfl

theorem suffix_call : Reads suffix ("(" :: tokens) (some .call) tokens :=
  head?_token (begins_of_mark rfl rfl) rfl

end Scan
end BCompiler
