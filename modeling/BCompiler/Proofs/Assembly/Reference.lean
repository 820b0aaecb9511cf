import BCompiler.IR.Assembly
import BCompiler.Proofs.Trail.Step

/-!
The names in a line of assembly.

A name with a mark in front refers to something: a symbol of the module, or a name of one function.
Inside quotes and behind a semicolon there are no references. A line is a text without newlines, and
is read without a look at what it was printed from.
-/
namespace BCompiler

/-- A name in the assembly, by its mark. -/
inductive Reference where
  /-- After an at sign: a function, a global or a string. -/
  | symbol (name : String)
  /-- After a percent sign: a block, a value or a parameter of the function. -/
  | inner (name : String)
  deriving DecidableEq, Repr

/-- The name at the head of a text. -/
def symbolAt (text : List Char) : String := String.ofList (text.takeWhile isSymbolChar)

/-- The references in a text that begins inside or outside of quotes. -/
def references : Bool → List Char → List Reference
  | _, [] => []
  | true, c :: rest => references (c != '"') rest
  | false, c :: rest =>
    if c = ';' then []
    else if c = '@' then .symbol (symbolAt rest) :: references false rest
    else if c = '%' then .inner (symbolAt rest) :: references false rest
    else references (c == '"') rest

/-- The references in a line. -/
def lineReferences (line : String) : List Reference := references false line.toList

/-- How a line brings a symbol into the module. -/
inductive Introduction where
  /-- A string or a global. -/
  | data
  | declaration
  | definition
  deriving DecidableEq, Repr

/-- How a line introduces its first symbol, if it does. -/
def introduced (line : String) : Option Introduction :=
  if ['@'].isPrefixOf line.toList then some .data
  else if "declare ".toList.isPrefixOf line.toList then some .declaration
  else if "define ".toList.isPrefixOf line.toList then some .definition
  else none

def Reference.symbol? : Reference → Option String
  | symbol name => some name
  | inner _ => none

/-- The symbol that a line introduces, with the way it does. -/
def introduction? (line : String) : Option (Introduction × String) := do
  let way ← introduced line
  let name ← (lineReferences line).findSome? Reference.symbol?
  return (way, name)

/-- The name of the block that begins with the line, if one does. -/
def labelAt? (line : String) : Option String :=
  if line.toList.dropWhile isSymbolChar = [':'] then some (symbolAt line.toList) else none

example : labelAt? "while.0.end:" = some "while.0.end" := by decide +kernel

theorem labelAt?_eq_none {line : String} {c : Char} (hc : line.toList.head? = some c)
    (h : isSymbolChar c = false ∧ c ≠ ':') : labelAt? line = none := by
  unfold labelAt?
  cases hl : line.toList with
  | nil =>
      rw [hl] at hc
      cases hc
  | cons first rest =>
      rw [hl] at hc
      cases hc
      rw [List.dropWhile_cons, h.1]
      refine if_neg fun heq => ?_
      exact h.2 (List.cons.inj heq).1

theorem introduced_eq_none {line : String} {c : Char} (hc : line.toList.head? = some c)
    (h : c ≠ '@' ∧ c ≠ 'd') : introduced line = none := by
  unfold introduced
  cases hl : line.toList with
  | nil => rfl
  | cons first rest =>
      rw [hl] at hc
      cases hc
      have hat : ('@' == c) = false := beq_false_of_ne h.1.symm
      have hd : ('d' == c) = false := beq_false_of_ne h.2.symm
      have hdeclare : "declare ".toList = 'd' :: "eclare ".toList := rfl
      have hdefine : "define ".toList = 'd' :: "efine ".toList := rfl
      simp [hdeclare, hdefine, List.isPrefixOf, hat, hd]

/-- A line in which there is neither the mark of a symbol nor a blank. -/
theorem introduced_eq_none_of_mem {line : String} (h : ∀ c ∈ line.toList, c ≠ '@' ∧ c ≠ ' ') :
    introduced line = none := by
  have hat : ¬ ['@'].isPrefixOf line.toList := fun hp =>
    (h '@' ((List.isPrefixOf_iff_prefix.mp hp).subset (by decide))).1 rfl
  have hdeclare : ¬ "declare ".toList.isPrefixOf line.toList := fun hp =>
    (h ' ' ((List.isPrefixOf_iff_prefix.mp hp).subset (by decide))).2 rfl
  have hdefine : ¬ "define ".toList.isPrefixOf line.toList := fun hp =>
    (h ' ' ((List.isPrefixOf_iff_prefix.mp hp).subset (by decide))).2 rfl
  unfold introduced
  rw [if_neg hat, if_neg hdeclare, if_neg hdefine]

/-- Characters that begin neither a reference nor quotes nor a comment, and do not end the line. -/
def isPlainChar (c : Char) : Bool := c != ';' && c != '@' && c != '%' && c != '"' && c != '\n'

def isPlainText (text : String) : Bool := text.toList.all isPlainChar

theorem isPlainChar_of_isSymbolChar {c : Char} (h : isSymbolChar c) : isPlainChar c := by
  unfold isPlainChar
  simp only [Bool.and_eq_true, bne_iff_ne, ne_eq]
  refine ⟨⟨⟨⟨?_, ?_⟩, ?_⟩, ?_⟩, ?_⟩ <;> (rintro rfl; revert h; decide)

theorem isPlainText_of_isSymbol {text : String} (h : isSymbol text) : isPlainText text := by
  unfold isSymbol at h
  unfold isPlainText
  rw [List.all_eq_true] at h ⊢
  exact fun c hc => isPlainChar_of_isSymbolChar (h c hc)

theorem isPlainText_append {a b : String} :
    isPlainText (a ++ b) ↔ isPlainText a ∧ isPlainText b := by
  simp [isPlainText]

theorem newline_not_mem_of_isPlainText {text : String} (h : isPlainText text) :
    '\n' ∉ text.toList :=
  fun hm => absurd (List.all_eq_true.mp h _ hm) (by decide)

theorem newline_not_mem_append {a b : String} :
    '\n' ∉ (a ++ b).toList ↔ '\n' ∉ a.toList ∧ '\n' ∉ b.toList := by
  rw [String.toList_append, List.mem_append, not_or]

theorem references_plain {text rest : List Char} (h : text.all isPlainChar) :
    references false (text ++ rest) = references false rest := by
  induction text with
  | nil => rfl
  | cons c text ih =>
      rw [List.all_cons, Bool.and_eq_true] at h
      have hc := h.1
      simp only [isPlainChar, Bool.and_eq_true, bne_iff_ne, ne_eq] at hc
      obtain ⟨⟨⟨⟨h₁, h₂⟩, h₃⟩, h₄⟩, _⟩ := hc
      rw [List.cons_append, references, if_neg h₁, if_neg h₂, if_neg h₃, beq_false_of_ne h₄]
      exact ih h.2

/-- What may follow a name: nothing that a name can hold. -/
def Apart (rest : List Char) : Prop := ∀ c ∈ rest.head?, isSymbolChar c = false

theorem symbolAt_append {name : String} (h : isSymbol name) {rest : List Char}
    (hr : Apart rest) : symbolAt (name.toList ++ rest) = name := by
  unfold symbolAt
  unfold isSymbol at h
  rw [List.all_eq_true] at h
  rw [List.takeWhile_append_of_pos h]
  cases rest with
  | nil => simp
  | cons c rest => simp [hr c rfl]

theorem labelAt?_append {name : String} (h : isSymbol name) :
    labelAt? (name ++ ":") = some name := by
  have hdrop : (name ++ ":").toList.dropWhile isSymbolChar = [':'] := by
    rw [String.toList_append, List.dropWhile_append_of_pos (List.all_eq_true.mp h)]
    rfl
  unfold labelAt?
  rw [if_pos hdrop, String.toList_append, symbolAt_append h]
  exact fun c hc => by cases hc; rfl

theorem references_symbol {name : String} (h : isSymbol name) {rest : List Char}
    (hr : Apart rest) :
    references false ('@' :: (name.toList ++ rest)) = .symbol name :: references false rest := by
  rw [references, if_neg (by decide), if_pos rfl, symbolAt_append h hr,
    references_plain (isPlainText_of_isSymbol h)]

theorem references_inner {name : String} (h : isSymbol name) {rest : List Char}
    (hr : Apart rest) :
    references false ('%' :: (name.toList ++ rest)) = .inner name :: references false rest := by
  rw [references, if_neg (by decide), if_neg (by decide), if_pos rfl, symbolAt_append h hr,
    references_plain (isPlainText_of_isSymbol h)]

theorem introduced_data (rest : String) : introduced ("@" ++ rest) = some .data := by
  unfold introduced
  rw [String.toList_append]
  rfl

theorem introduced_declaration (rest : String) :
    introduced ("declare " ++ rest) = some .declaration := by
  unfold introduced
  rw [String.toList_append]
  rfl

theorem introduced_definition (rest : String) :
    introduced ("define " ++ rest) = some .definition := by
  unfold introduced
  rw [String.toList_append]
  rfl

theorem labelAt?_definition (rest : String) : labelAt? ("define " ++ rest) = none := by
  have hdrop : ("define " ++ rest).toList.dropWhile isSymbolChar = ' ' :: rest.toList := by
    rw [String.toList_append]
    rfl
  unfold labelAt?
  rw [hdrop]
  exact if_neg fun heq => absurd (List.cons.inj heq).1 (by decide)

/-- A part of a line. In front of any text, it adds no references but those of `P`. -/
structure Mentions (P : Reference → Prop) (text : String) : Prop where
  whole : '\n' ∉ text.toList
  adds : ∀ rest, (∀ r ∈ references false rest, P r) →
    ∀ r ∈ references false (text.toList ++ rest), P r

/-- The same in front of a text that does not continue the name at the end. -/
structure MentionsLast (P : Reference → Prop) (text : String) : Prop where
  whole : '\n' ∉ text.toList
  adds : ∀ rest, Apart rest → (∀ r ∈ references false rest, P r) →
    ∀ r ∈ references false (text.toList ++ rest), P r

/-- The text begins with a character that no name can hold. -/
def isApart (text : String) : Bool := text.toList.head?.any fun c => !isSymbolChar c

theorem apart_append {text : String} (h : isApart text) (rest : List Char) :
    Apart (text.toList ++ rest) := by
  unfold isApart at h
  cases hl : text.toList with
  | nil =>
      rw [hl] at h
      cases h
  | cons first chars =>
      rw [hl] at h
      intro c hc
      cases hc
      simpa using h

theorem isApart_append {text : String} (h : isApart text) (rest : String) :
    isApart (text ++ rest) := by
  unfold isApart at h ⊢
  rw [String.toList_append]
  cases hl : text.toList with
  | nil =>
      rw [hl] at h
      cases h
  | cons first chars => rwa [hl] at h

/-- The symbol that a line introduces is the first behind a mark. -/
theorem introduction?_eq_some (front rest : String) {name line : String} {way : Introduction}
    (hline : line = front ++ "@" ++ name ++ rest) (hfront : isPlainText front)
    (hname : isSymbol name) (hrest : isApart rest) (hway : introduced line = some way) :
    introduction? line = some (way, name) := by
  have hreferences : lineReferences line = .symbol name :: references false rest.toList := by
    unfold lineReferences
    rw [hline, String.toList_append, String.toList_append, String.toList_append,
      List.append_assoc, List.append_assoc, references_plain hfront]
    refine references_symbol hname ?_
    have happart := apart_append hrest []
    rwa [List.append_nil] at happart
  unfold introduction?
  rw [hway, hreferences]
  rfl

section Mentions

variable {P : Reference → Prop} {a b : String}

theorem Mentions.plain (h : isPlainText a) : Mentions P a where
  whole := newline_not_mem_of_isPlainText h
  adds rest hrest := by rwa [references_plain h]

theorem Mentions.append (ha : Mentions P a) (hb : Mentions P b) : Mentions P (a ++ b) where
  whole := newline_not_mem_append.mpr ⟨ha.whole, hb.whole⟩
  adds rest hrest := by
    rw [String.toList_append, List.append_assoc]
    exact ha.adds _ (hb.adds rest hrest)

theorem Mentions.last (ha : Mentions P a) : MentionsLast P a :=
  ⟨ha.whole, fun rest _ => ha.adds rest⟩

theorem Mentions.append_last (ha : Mentions P a) (hb : MentionsLast P b) :
    MentionsLast P (a ++ b) where
  whole := newline_not_mem_append.mpr ⟨ha.whole, hb.whole⟩
  adds rest hapart hrest := by
    rw [String.toList_append, List.append_assoc]
    exact ha.adds _ (hb.adds rest hapart hrest)

theorem MentionsLast.append (ha : MentionsLast P a) (hb : Mentions P b) (h : isApart b) :
    Mentions P (a ++ b) where
  whole := newline_not_mem_append.mpr ⟨ha.whole, hb.whole⟩
  adds rest hrest := by
    rw [String.toList_append, List.append_assoc]
    exact ha.adds _ (apart_append h rest) (hb.adds rest hrest)

theorem MentionsLast.append_last (ha : MentionsLast P a) (hb : MentionsLast P b) (h : isApart b) :
    MentionsLast P (a ++ b) where
  whole := newline_not_mem_append.mpr ⟨ha.whole, hb.whole⟩
  adds rest hapart hrest := by
    rw [String.toList_append, List.append_assoc]
    exact ha.adds _ (apart_append h rest) (hb.adds rest hapart hrest)

/-- A mark and a name behind a plain text stay on the line. -/
theorem newline_not_mem_marked {front mark name : String} (hfront : isPlainText front)
    (hmark : '\n' ∉ mark.toList) (h : isSymbol name) : '\n' ∉ (front ++ mark ++ name).toList :=
  newline_not_mem_append.mpr ⟨newline_not_mem_append.mpr
    ⟨newline_not_mem_of_isPlainText hfront, hmark⟩,
    newline_not_mem_of_isPlainText (isPlainText_of_isSymbol h)⟩

/-- A symbol behind its mark, with a plain text in front. -/
theorem MentionsLast.symbol (front : String) {text name : String} (ht : front ++ "@" = text)
    (hfront : isPlainText front) (h : isSymbol name) (hP : P (.symbol name)) :
    MentionsLast P (text ++ name) := by
  refine ⟨ht ▸ newline_not_mem_marked hfront (by decide) h, fun rest hapart hrest r hr => ?_⟩
  rw [← ht, String.toList_append, String.toList_append, List.append_assoc, List.append_assoc,
    references_plain hfront] at hr
  change r ∈ references false ('@' :: (name.toList ++ rest)) at hr
  rw [references_symbol h hapart] at hr
  rcases List.mem_cons.mp hr with rfl | hr
  · exact hP
  · exact hrest r hr

/-- A name of the function behind its mark, with a plain text in front. -/
theorem MentionsLast.inner (front : String) {text name : String} (ht : front ++ "%" = text)
    (hfront : isPlainText front) (h : isSymbol name) (hP : P (.inner name)) :
    MentionsLast P (text ++ name) := by
  refine ⟨ht ▸ newline_not_mem_marked hfront (by decide) h, fun rest hapart hrest r hr => ?_⟩
  rw [← ht, String.toList_append, String.toList_append, List.append_assoc, List.append_assoc,
    references_plain hfront] at hr
  change r ∈ references false ('%' :: (name.toList ++ rest)) at hr
  rw [references_inner h hapart] at hr
  rcases List.mem_cons.mp hr with rfl | hr
  · exact hP
  · exact hrest r hr

theorem MentionsLast.lineReferences (h : MentionsLast P a) : ∀ r ∈ lineReferences a, P r := by
  have hend := h.adds [] (fun _ hc => absurd hc (by simp)) fun _ hr => absurd hr List.not_mem_nil
  rwa [List.append_nil] at hend

theorem MentionsLast.commaList {items : List String} (h : ∀ item ∈ items, MentionsLast P item) :
    MentionsLast P (Module.commaList items) := by
  unfold Module.commaList
  induction items with
  | nil => exact (Mentions.plain (by decide)).last
  | cons item items ih =>
      cases items with
      | nil =>
          rw [String.intercalate_singleton]
          exact h item (.head _)
      | cons next items =>
          rw [String.intercalate_cons_cons]
          have hcomma := (h item (.head _)).append (Mentions.plain (a := ", ") (by decide))
            (by decide)
          exact hcomma.append_last (ih fun item hm => h item (.tail _ hm))

end Mentions
end BCompiler
