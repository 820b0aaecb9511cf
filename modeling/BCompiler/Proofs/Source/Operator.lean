import BCompiler.Proofs.Source.Number

/-! Reading the marks between and around operands. -/
namespace BCompiler

/-- The characters that operators begin with. -/
def opMarks : List Char := ['+', '-', '*', '/', '%', '<', '>', '&', '|', '=', '!']

namespace Op

theorem begins (op : Op) : ∃ first ∈ opMarks, Begins op.symbol first := by
  rcases op with op | op <;> cases op
  all_goals exact ⟨_, by decide, _, rfl, rfl, by decide⟩

theorem level_bounds (op : Op) : 2 < op.level ∧ op.level < conditionalLevel := by
  rcases op with op | op <;> cases op <;> decide

theorem head?_symbol (op : Op) {text : List Char} (h : Ends text) :
    head? (op.symbol.toList ++ text) = some (op, op.symbol.toList.length) := by
  rcases h with rfl | ⟨rest, rfl⟩ <;> rcases op with op | op <;> cases op <;> rfl

end Op

namespace Connective

theorem afterEquals_equals (level : Nat) {text : List Char} (h : Ends text) :
    afterEquals level ('=' :: text) =
      if (Op.compare .eq).level ≤ level then some (operator (.compare .eq), 2) else none := by
  have hnone : Op.head? ('=' :: text) = none := by rcases h with rfl | ⟨rest, rfl⟩ <;> rfl
  unfold afterEquals
  by_cases hlevel : assignmentLevel ≤ level
  · rw [if_pos hlevel, if_pos (Nat.le_trans (by decide) hlevel), hnone]
    rfl
  · rw [if_neg hlevel]
    rfl

theorem head?_symbol (level : Nat) (op : Op) {text : List Char} (h : Ends text) :
    head? level (op.symbol.toList ++ text) =
      if op.level ≤ level then some (operator op, op.symbol.toList.length) else none := by
  cases op with
  | binary op => rcases h with rfl | ⟨rest, rfl⟩ <;> cases op <;> rfl
  | compare pred =>
      cases pred with
      | eq => exact afterEquals_equals level h
      | ne | lt | le | gt | ge => rcases h with rfl | ⟨rest, rfl⟩ <;> rfl

/-- An equals sign takes the operator behind it to itself where assignments are admitted. -/
theorem head?_assign {level : Nat} (hlevel : assignmentLevel ≤ level) (op : Option Op)
    {text : List Char} (h : Ends text) :
    head? level (("=" ++ (op.map Op.symbol).getD "").toList ++ text) =
      some (assign op, ("=" ++ (op.map Op.symbol).getD "").toList.length) := by
  cases op with
  | none =>
      have hnone : Op.head? text = none := by rcases h with rfl | ⟨rest, rfl⟩ <;> rfl
      change afterEquals level text = _
      unfold afterEquals
      rw [if_pos hlevel, hnone]
      rcases h with rfl | ⟨rest, rfl⟩ <;> rfl
  | some op =>
      change head? level (("=" ++ op.symbol).toList ++ text) =
        some (assign (some op), ("=" ++ op.symbol).toList.length)
      rw [String.toList_append, List.append_assoc]
      change afterEquals level (op.symbol.toList ++ text) = _
      unfold afterEquals
      rw [if_pos hlevel, op.head?_symbol h, List.length_append, Nat.add_comm]
      rfl

end Connective

/-- The loosest level that may stand left of an assignment without parentheses. Behind an operator
that admits an equality to its right, the first two signs of `===` are read as one. -/
def leftLevel : Option Op → Nat
  | some (.compare .eq) => (Op.compare .eq).level
  | _ => conditionalLevel - 1

theorem leftLevel_bounds (op : Option Op) : 0 < leftLevel op ∧ leftLevel op < conditionalLevel := by
  unfold leftLevel
  split <;> decide

/-- An assignment is left alone where its left side ends. -/
theorem Connective.head?_equals {level : Nat} {op : Option Op} (hlevel : level < leftLevel op)
    {text : List Char} (h : Ends text) :
    head? level (("=" ++ (op.map Op.symbol).getD "").toList ++ text) = none := by
  have hassign : ¬assignmentLevel ≤ level := by
    have hlt := (leftLevel_bounds op).2
    have : conditionalLevel < assignmentLevel := by decide
    omega
  rw [String.toList_append, List.append_assoc]
  change afterEquals level (((op.map Op.symbol).getD "").toList ++ text) = none
  unfold afterEquals
  rw [if_neg hassign]
  cases op with
  | none => rcases h with rfl | ⟨rest, rfl⟩ <;> rfl
  | some op =>
      cases op with
      | binary op => cases op <;> rfl
      | compare pred =>
          cases pred with
          | eq => exact if_neg (Nat.not_le_of_lt hlevel)
          | ne | lt | le | gt | ge => rfl

theorem Suffix.head?_symbol (op : Op) {text : List Char} (h : Ends text) :
    head? (op.symbol.toList ++ text) = none := by
  rcases h with rfl | ⟨rest, rfl⟩ <;> rcases op with op | op <;> cases op <;> rfl

section Statement

variable {first : Char} (h : first = '{' ∨ isNameStart first) (rest : List Char)

include h

theorem Suffix.head?_statement : head? (first :: rest) = none := by
  unfold head?
  split
  case h_5 => rfl
  all_goals
    rename_i he
    cases he
    exact absurd h (by decide)

theorem Op.head?_statement : head? (first :: rest) = none := by
  unfold head?
  split
  case h_16 => rfl
  all_goals
    rename_i he
    cases he
    exact absurd h (by decide)

theorem Connective.head?_statement (level : Nat) : head? level (first :: rest) = none := by
  unfold head?
  split
  case h_5 => rw [Op.head?_statement h]
  all_goals
    rename_i he
    cases he
    exact absurd h (by decide)

end Statement

/-- The marks behind an expression. -/
def closers : List String := [")", "]", ";", ":", ","]

/-- An expression whose level is given ends in front of the tokens. -/
inductive Stops (level : Nat) : List String → Prop
  | done : Stops level []
  | close {token : String} {tokens : List String} :
      token ∈ closers → Stops level (token :: tokens)
  | operator {op : Op} {tokens : List String} :
      level < op.level → Stops level (op.symbol :: tokens)
  | conditional {tokens : List String} :
      level < conditionalLevel → Stops level ("?" :: tokens)
  | assignment {op : Option Op} {tokens : List String} :
      level < leftLevel op → Stops level (("=" ++ (op.map Op.symbol).getD "") :: tokens)
  /-- A statement follows that begins with a brace or a name. -/
  | statement {token : String} {first : Char} {tokens : List String} :
      Begins token first → first = '{' ∨ isNameStart first → Stops level (token :: tokens)

theorem Stops.mono {level tighter : Nat} {tokens : List String} (h : Stops level tokens)
    (hle : tighter ≤ level) : Stops tighter tokens := by
  cases h with
  | done => exact .done
  | close hm => exact .close hm
  | operator hlt => exact .operator (Nat.lt_of_le_of_lt hle hlt)
  | conditional hlt => exact .conditional (Nat.lt_of_le_of_lt hle hlt)
  | assignment hlt => exact .assignment (Nat.lt_of_le_of_lt hle hlt)
  | statement hb hf => exact .statement hb hf

theorem Scan.begins_equals (op : Option Op) : Begins ("=" ++ (op.map Op.symbol).getD "") '=' :=
  ⟨((op.map Op.symbol).getD "").toList, String.toList_append, rfl, fun h => absurd h (by decide)⟩

/-- No argument list begins here. -/
def Uncalled (tokens : List String) : Prop :=
  ∀ token ∈ tokens.head?, ∃ first, Begins token first ∧ first ≠ '('

theorem Stops.uncalled {level : Nat} {tokens : List String} (h : Stops level tokens) :
    Uncalled tokens := by
  cases h with
  | done => nofun
  | close hm =>
      rintro _ ⟨⟩
      simp only [closers, List.mem_cons, List.not_mem_nil, or_false] at hm
      rcases hm with rfl | rfl | rfl | rfl | rfl
      all_goals exact ⟨_, begins_of_mark rfl rfl, by decide⟩
  | operator =>
      rintro _ ⟨⟩
      rename_i op _ _
      obtain ⟨first, hm, hb⟩ := op.begins
      refine ⟨first, hb, ?_⟩
      rintro rfl
      exact absurd hm (by decide)
  | conditional =>
      rintro _ ⟨⟩
      exact ⟨_, begins_of_mark rfl rfl, by decide⟩
  | assignment =>
      rintro _ ⟨⟩
      exact ⟨_, Scan.begins_equals _, by decide⟩
  | statement hb hf =>
      rintro _ ⟨⟩
      refine ⟨_, hb, ?_⟩
      rintro rfl
      exact absurd hf (by decide)

namespace Scan

variable {token : String} {first : Char} {tokens : List String} {level : Nat}

theorem head?_nil {α : Type} {recognize : List Char → Option (α × Nat)}
    (hr : recognize [] = none) : Reads (do blanks; head? recognize) [] none [] := by
  intro c hc
  obtain ⟨h, hu⟩ := blanks_nil c hc
  refine ⟨c, bind_eq_ok_iff.mpr ⟨(), c, h, ?_⟩, hc⟩
  rw [head?, hu, hr]

theorem suffix_assign (op : Option Op) :
    Reads suffix (("=" ++ (op.map Op.symbol).getD "") :: tokens) none
      (("=" ++ (op.map Op.symbol).getD "") :: tokens) := by
  refine head?_none (begins_equals op) ?_
  rw [String.toList_append]
  rfl

theorem suffix_stops (h : Stops level tokens) : Reads suffix tokens none tokens := by
  cases h with
  | done => exact head?_nil rfl
  | close hm =>
      simp only [closers, List.mem_cons, List.not_mem_nil, or_false] at hm
      rcases hm with rfl | rfl | rfl | rfl | rfl
      all_goals exact head?_none (begins_of_mark rfl rfl) rfl
  | operator =>
      rename_i op tokens _
      obtain ⟨_, _, hbegins⟩ := op.begins
      exact head?_none hbegins (Suffix.head?_symbol op (ends_spaced tokens))
  | conditional => exact head?_none (begins_of_mark rfl rfl) rfl
  | assignment => exact suffix_assign _
  | statement hb hf =>
      refine head?_none hb ?_
      obtain ⟨rest, he, _⟩ := hb
      rw [he]
      exact Suffix.head?_statement hf _

theorem suffix_increment : Reads suffix ("++" :: tokens) (some .increment) tokens :=
  head?_token ⟨['+'], rfl, rfl, by decide⟩ rfl

theorem suffix_decrement : Reads suffix ("--" :: tokens) (some .decrement) tokens :=
  head?_token ⟨['-'], rfl, rfl, by decide⟩ rfl

theorem connective_stops (h : Stops level tokens) :
    Reads (connective level) tokens none tokens := by
  cases h with
  | done => exact head?_nil rfl
  | close hm =>
      simp only [closers, List.mem_cons, List.not_mem_nil, or_false] at hm
      rcases hm with rfl | rfl | rfl | rfl | rfl
      all_goals exact head?_none (begins_of_mark rfl rfl) rfl
  | operator hlt =>
      rename_i op tokens
      obtain ⟨_, _, hbegins⟩ := op.begins
      refine head?_none hbegins ?_
      rw [Connective.head?_symbol level op (ends_spaced tokens), if_neg (Nat.not_le_of_lt hlt)]
  | conditional hlt =>
      exact head?_none (begins_of_mark rfl rfl) (if_neg (Nat.not_le_of_lt hlt))
  | assignment hlt =>
      exact head?_none (begins_equals _) (Connective.head?_equals hlt (ends_spaced _))
  | statement hb hf =>
      refine head?_none hb ?_
      obtain ⟨rest, he, _⟩ := hb
      rw [he]
      exact Connective.head?_statement hf _ level

theorem connective_operator {op : Op} (h : op.level ≤ level) :
    Reads (connective level) (op.symbol :: tokens) (some (.operator op)) tokens := by
  obtain ⟨_, _, hbegins⟩ := op.begins
  refine head?_token hbegins ?_
  rw [Connective.head?_symbol level op (ends_spaced tokens), if_pos h]

theorem connective_conditional (h : conditionalLevel ≤ level) :
    Reads (connective level) ("?" :: tokens) (some .conditional) tokens :=
  head?_token (begins_of_mark rfl rfl) (if_pos h)

theorem connective_assign (h : assignmentLevel ≤ level) (op : Option Op) :
    Reads (connective level) (("=" ++ (op.map Op.symbol).getD "") :: tokens) (some (.assign op))
      tokens :=
  head?_token (begins_equals op) (Connective.head?_assign h op (ends_spaced tokens))

theorem sign_token {s : Sign} (hb : Begins token first)
    (h : Sign.head? (token.toList ++ spaced tokens) = some (s, token.toList.length)) :
    Reads sign (token :: tokens) (some s) tokens := by
  unfold sign
  rw [← bind_assoc]
  exact (head?_token hb h).bind (.pure _)

theorem sign_not : Reads sign ("!" :: tokens) (some .not) tokens :=
  sign_token (begins_of_mark rfl rfl) rfl

theorem sign_negate : Reads sign ("-" :: tokens) (some .negate) tokens := by
  refine sign_token (begins_of_mark rfl rfl) ?_
  rcases ends_spaced tokens with he | ⟨rest, he⟩ <;> rw [he] <;> rfl

theorem sign_increment : Reads sign ("++" :: tokens) (some .increment) tokens :=
  sign_token ⟨['+'], rfl, rfl, by decide⟩ rfl

theorem sign_decrement : Reads sign ("--" :: tokens) (some .decrement) tokens :=
  sign_token ⟨['-'], rfl, rfl, by decide⟩ rfl

/-- Something else than a sign comes next. -/
theorem sign_solid {c c₁ : Cursor} (hb : blanks c = .ok () c₁)
    (hu : c₁.unread.head? = some first) (hf : first ∉ ['!', '*', '&', '+', '-']) :
    sign c = .ok none c₁ := by
  simp only [List.mem_cons, List.not_mem_nil, or_false, not_or] at hf
  have hhead : head? Sign.head? c₁ = .ok none c₁ := by
    obtain ⟨rest, he⟩ := List.head?_eq_some_iff.mp hu
    rw [head?, he]
    simp [Sign.head?, hf]
  have hpeek : peek c₁ = .ok (some first) c₁ := congrArg (EStateM.Result.ok · c₁) hu
  refine bind_eq_ok_iff.mpr ⟨(), c₁, hb, bind_eq_ok_iff.mpr ⟨none, c₁, hhead, ?_⟩⟩
  refine bind_eq_ok_iff.mpr ⟨some first, c₁, hpeek, ?_⟩
  obtain ⟨_, _, _, hplus, _⟩ := hf
  simp only
  rfl

/-- The token begins an operand. -/
theorem sign_none (hb : Begins token first) (hf : first ∉ ['!', '*', '&', '+', '-']) :
    Reads sign (token :: tokens) none (token :: tokens) := by
  intro c hc
  obtain ⟨c₁, h₁, hu⟩ := blanks_token hb c hc
  obtain ⟨rest, he, _⟩ := hb
  exact ⟨c₁, sign_solid h₁ (by rw [hu, he]; rfl) hf, at_of_unread hu⟩

theorem constant?_of_number {w : Word} (hb : Begins token first) (hd : isDigit first)
    (h : Reads number (token :: tokens) w tokens) :
    Reads constant? (token :: tokens) (some w) tokens := by
  refine (peekMark_token hb).bind ?_
  have hquote : first ≠ '\'' := by
    rintro rfl
    cases hd
  simp only [hd, if_true]
  exact h.bind (.pure _)

theorem constant?_none (hb : Begins token first) (hd : isDigit first = false)
    (hq : first ≠ '\'') (c : Cursor) (hc : c.At (token :: tokens)) :
    ∃ c', constant? c = .ok none c' ∧ c'.unread = token.toList ++ spaced tokens := by
  obtain ⟨c₁, h₁, hu⟩ := peekMark_solid hb c hc
  refine ⟨c₁, bind_eq_ok_iff.mpr ⟨some first, c₁, h₁, ?_⟩, hu⟩
  simp only [hd]
  rfl

theorem atom_group : Reads atom ("(" :: tokens) .group tokens := by
  intro c hc
  have hb : Begins "(" '(' := begins_of_mark rfl rfl
  obtain ⟨c₁, h₁, hu⟩ := constant?_none hb rfl (by decide) c hc
  obtain ⟨c₂, h₂, hc₂⟩ := read_mark rfl hu
  refine ⟨c₂, bind_eq_ok_iff.mpr ⟨none, c₁, h₁, ?_⟩, hc₂⟩
  refine bind_eq_ok_iff.mpr ⟨some '(', c₁, by rw [peek, hu]; rfl, ?_⟩
  exact bind_eq_ok_iff.mpr ⟨some '(', c₂, h₂, rfl⟩

/-- After a name there may be an argument list. -/
theorem atom_solid {x : Name} {text : List Char} {c c₁ c₂ : Cursor} {mark : Option Char}
    (hb : blanks c = .ok () c₁) (hu : c₁.unread = x.text.toList ++ text)
    (ht : ∀ ch ∈ text.head?, isNameChar ch = false)
    (hmark : peekMark (c₁.skip x.text.toList.length) = .ok mark c₂) :
    atom c = .ok (.name x.text (mark == some '(')) c₂ := by
  obtain ⟨first, ⟨rest, he, _⟩, hstart⟩ := x.begins
  have hd := isDigit_eq_false_of_isNameStart hstart
  have hquote : first ≠ '\'' := ne_of_isNameStart hstart rfl
  have hpeek : peek c₁ = .ok (some first) c₁ := by
    rw [peek, hu, he]
    rfl
  have hconstant : constant? c = .ok none c₁ := by
    refine bind_eq_ok_iff.mpr ⟨some first, c₁, bind_eq_ok_iff.mpr ⟨(), c₁, hb, hpeek⟩, ?_⟩
    simp only [hd]
    rfl
  refine bind_eq_ok_iff.mpr ⟨none, c₁, hconstant, ?_⟩
  refine bind_eq_ok_iff.mpr ⟨some first, c₁, hpeek, ?_⟩
  rw [if_pos (show (some first).any isNameStart from hstart)]
  refine bind_eq_ok_iff.mpr ⟨x.text, _, name_solid (blanks_name hu) hu ht, ?_⟩
  exact bind_eq_ok_iff.mpr ⟨mark, c₂, hmark, rfl⟩

theorem peekMark_uncalled (h : Uncalled tokens) (c : Cursor) (hc : c.At tokens) :
    ∃ mark c', peekMark c = .ok mark c' ∧ c'.At tokens ∧ mark ≠ some '(' := by
  cases tokens with
  | nil =>
      obtain ⟨c', h', hc'⟩ := peekMark_nil c hc
      exact ⟨none, c', h', hc', nofun⟩
  | cons token tokens =>
      obtain ⟨mark, hmark, hne⟩ := h token rfl
      obtain ⟨c', h', hc'⟩ := peekMark_token hmark c hc
      exact ⟨some mark, c', h', hc', by simpa using hne⟩

/-- A name that no argument list follows. -/
theorem atom_name (x : Name) (h : Uncalled tokens) :
    Reads atom (x.text :: tokens) (.name x.text false) tokens := by
  intro c hc
  obtain ⟨_, hb, _⟩ := x.begins
  obtain ⟨c₁, h₁, hu⟩ := blanks_token hb c hc
  have hbehind : (c₁.skip x.text.toList.length).At tokens := by
    refine .inl ?_
    rw [Cursor.unread_skip, hu, List.drop_left]
  obtain ⟨mark, c₂, h₂, hc₂, hne⟩ := peekMark_uncalled h _ hbehind
  refine ⟨c₂, ?_, hc₂⟩
  rw [atom_solid h₁ hu (fun _ => isNameChar_spaced) h₂, beq_false_of_ne hne]

end Scan
end BCompiler
