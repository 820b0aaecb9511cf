import BCompiler.Proofs.Phrase.Term

/-!
Reading the tokens of a term.

The pass over the tokens of a term does to the draft just what the code of the term does, and it
fails as that code fails. As a term is read from left to right, what stands in front of a suffix or
a connective is only the left part of what follows, so its reading goes on with whatever is read
there.
-/
namespace BCompiler

theorem Cursor.At.depth {c : Cursor} {tokens : List String} (h : c.At tokens) :
    4 * tokens.length + 4 ≤ c.depth := by
  have hlength := length_le_spaced tokens
  unfold Cursor.depth
  rcases h with h | h
  · rw [← h] at hlength
    omega
  · rw [← h, List.length_cons] at hlength
    omega

/-- Tokens that do not close an argument list. -/
def Opens (tokens : List String) : Prop :=
  ∃ token rest first, tokens = token :: rest ∧ Begins token first ∧ first ≠ ')'

theorem Opens.append {tokens : List String} (h : Opens tokens) (rest : List String) :
    Opens (tokens ++ rest) := by
  obtain ⟨token, tail, first, rfl, hb, hne⟩ := h
  exact ⟨token, tail ++ rest, first, rfl, hb, hne⟩

theorem opens_of_begins {p : Char → Bool} {token : String} {first : Char} {tokens : List String}
    (hb : Begins token first) (h : p first) (hp : p ')' = false) : Opens (token :: tokens) := by
  refine ⟨token, tokens, first, rfl, hb, ?_⟩
  rintro rfl
  rw [hp] at h
  cases h

theorem not_mem_signs {p : Char → Bool} {first : Char} (h : p first)
    (hp : ['!', '*', '&', '+', '-'].any p = false) : first ∉ ['!', '*', '&', '+', '-'] :=
  fun hm => List.any_eq_false.mp hp first hm h

/-- No suffix begins here. -/
structure Unsuffixed (tokens : List String) : Prop where
  uncalled : Uncalled tokens
  suffix : Scan.suffix.Reads tokens none tokens

theorem Stops.unsuffixed {level : Nat} {tokens : List String} (h : Stops level tokens) :
    Unsuffixed tokens :=
  ⟨h.uncalled, Scan.suffix_stops h⟩

theorem uncalled_of_begins {token : String} {first : Char} (h : Begins token first)
    (hne : first ≠ '(') (tokens : List String) : Uncalled (token :: tokens) := by
  rintro _ ⟨⟩
  exact ⟨first, h, hne⟩

theorem Count.begins (k : Count) : ∃ first, Begins k.symbol first ∧ first ∈ ['+', '-'] := by
  cases k
  · exact ⟨'+', ⟨['+'], rfl, rfl, by decide⟩, by decide⟩
  · exact ⟨'-', ⟨['-'], rfl, rfl, by decide⟩, by decide⟩

theorem bracketed_append (tokens inner rest : List String) (opening closing : String) :
    tokens ++ opening :: inner ++ [closing] ++ rest =
      tokens ++ opening :: (inner ++ closing :: rest) := by simp

theorem length_bracketed (tokens inner : List String) (opening closing : String) :
    (tokens ++ opening :: inner ++ [closing]).length = tokens.length + inner.length + 2 := by
  simp only [List.length_append, List.length_cons, List.length_nil]
  omega

namespace Digits

variable (n : Digits)

theorem spells : Spells n.text.toList n.word := by
  have h := n.isNumber
  simp only [BCompiler.isNumber, Bool.and_eq_true, Bool.not_eq_true', List.isEmpty_eq_false_iff,
    List.all_eq_true, Bool.or_eq_true, bne_iff_ne] at h
  obtain ⟨⟨hne, hdigits⟩, hoctal⟩ := h
  exact ⟨hne, hdigits, fun hzero => hoctal.resolve_left fun h => h hzero, rfl⟩

theorem begins : ∃ first, Begins n.text first ∧ isDigit first := n.spells.begins

end Digits

theorem Sign.begins (s : Sign) :
    ∃ first, Begins s.symbol first ∧ first ∈ ['!', '*', '&', '+', '-'] := by
  cases s with
  | not => exact ⟨'!', begins_of_mark rfl rfl, by decide⟩
  | negate => exact ⟨'-', begins_of_mark rfl rfl, by decide⟩
  | increment => exact ⟨'+', ⟨['+'], rfl, rfl, by decide⟩, by decide⟩
  | decrement => exact ⟨'-', ⟨['-'], rfl, rfl, by decide⟩, by decide⟩
  | dereference => exact ⟨'*', begins_of_mark rfl rfl, by decide⟩
  | addressOf => exact ⟨'&', begins_of_mark rfl rfl, by decide⟩

/-- Whether a constant may begin with the character. -/
def startsLiteral (c : Char) : Bool := isDigit c || c == '\''

theorem Literal.begins {size : Nat} (l : Literal size) :
    ∃ first, Begins l.token first ∧ startsLiteral first := by
  cases l with
  | number n =>
      obtain ⟨first, hb, hd⟩ := n.begins
      exact ⟨first, hb, Bool.or_eq_true_iff.mpr (.inl hd)⟩
  | character l => exact ⟨'\'', begins_quoted _ rfl (by decide), rfl⟩

namespace Scan

variable {size : Nat} {tokens : List String}

theorem number_digits (n : Digits) : Reads number (n.text :: tokens) n.word tokens :=
  number_reads n.spells

theorem constant?_literal (l : Literal size) :
    Takes size constant? (l.token :: tokens) (some l.word) tokens := by
  cases l with
  | number n =>
      obtain ⟨first, hb, hd⟩ := n.begins
      exact (constant?_of_number hb hd (number_digits n)).takes keepsSize_constant?
  | character l => exact constant?_character l

theorem atom_literal (l : Literal size) :
    Takes size atom (l.token :: tokens) (.word l.word) tokens := by
  intro c hc
  obtain ⟨c', h', hc'⟩ := constant?_literal l c hc
  exact ⟨c', bind_eq_ok_iff.mpr ⟨some l.word, c', h', rfl⟩, hc'⟩

theorem sign_symbol (s : Sign) : Reads sign (s.symbol :: tokens) (some s) tokens := by
  cases s with
  | not => exact sign_not
  | negate => exact sign_negate
  | increment => exact sign_increment
  | decrement => exact sign_decrement
  | dereference => exact sign_dereference
  | addressOf => exact sign_addressOf

end Scan

namespace Pass

variable {σ α β : Type} {size : Nat} {before between after rest : List String}

/-- Over the tokens `before` the pass does to the target what `act` does. It gets to `after`, unless
`act` fails. -/
structure Mirrors (size : Nat) (step : Pass σ α) (before : List String) (act : EStateM Error σ α)
    (after : List String) : Prop where
  ok : ∀ {c : Cursor} {d d' : σ} {a : α}, c.Faces size before → act d = .ok a d' →
    ∃ c', step ⟨c, d⟩ = .ok a ⟨c', d'⟩ ∧ c'.Faces size after
  error : ∀ {c : Cursor} {d d' : σ} {e : Error}, c.Faces size before → act d = .error e d' →
    ∃ c', step ⟨c, d⟩ = .error e ⟨c', d'⟩

namespace Mirrors

theorem pure (a : α) : Mirrors size (Pure.pure a : Pass σ α) before (Pure.pure a) before where
  ok {c _ _ _} hc h := by
    obtain ⟨rfl, rfl⟩ := pure_eq_ok_iff.mp h
    exact ⟨c, rfl, hc⟩
  error _ h := nomatch h

theorem throw (e : Error) :
    Mirrors size (MonadExcept.throw e : Pass σ α) before (MonadExcept.throw e) after where
  ok _ h := absurd h throw_ne_ok
  error {c _ _ _} _ h := by
    cases h
    exact ⟨c, rfl⟩

theorem build (act : EStateM Error σ α) : Mirrors size (Pass.build act) before act before where
  ok {c _ _ _} hc h := ⟨c, build_eq_ok_iff.mpr ⟨h, rfl⟩, hc⟩
  error {c _ _ _} _ h := ⟨c, build_eq_error_iff.mpr ⟨h, rfl⟩⟩

theorem bind {x : Pass σ α} {f : α → Pass σ β} {act : EStateM Error σ α}
    {next : α → EStateM Error σ β} (hx : Mirrors size x before act between)
    (hf : ∀ a, Mirrors size (f a) between (next a) after) :
    Mirrors size (x >>= f) before (act >>= next) after where
  ok hc h := by
    obtain ⟨a, d₁, ha, hb⟩ := bind_eq_ok_iff.mp h
    obtain ⟨c₁, h₁, hc₁⟩ := hx.ok hc ha
    obtain ⟨c₂, h₂, hc₂⟩ := (hf a).ok hc₁ hb
    exact ⟨c₂, bind_eq_ok_iff.mpr ⟨a, _, h₁, h₂⟩, hc₂⟩
  error hc h := by
    rcases bind_eq_error_iff.mp h with ha | ⟨a, d₁, ha, hb⟩
    · obtain ⟨c₁, h₁⟩ := hx.error hc ha
      exact ⟨c₁, bind_of_error h₁⟩
    · obtain ⟨c₁, h₁, hc₁⟩ := hx.ok hc ha
      obtain ⟨c₂, h₂⟩ := (hf a).error hc₁ hb
      exact ⟨c₂, bind_eq_error_iff.mpr (.inr ⟨a, _, h₁, h₂⟩)⟩

/-- Go on at the place that the first part of a pass leads to. -/
theorem of_reach {step next : Pass σ α} {act : EStateM Error σ α}
    (h : ∀ (c : Cursor) (d : σ), c.Faces size before →
      ∃ c' : Cursor, c'.Faces size between ∧ step ⟨c, d⟩ = next ⟨c', d⟩)
    (hnext : Mirrors size next between act after) : Mirrors size step before act after where
  ok {c d _ _} hc ha := by
    obtain ⟨c', hc', he⟩ := h c d hc
    rw [he]
    exact hnext.ok hc' ha
  error {c d _ _} hc ha := by
    obtain ⟨c', hc', he⟩ := h c d hc
    rw [he]
    exact hnext.error hc' ha

/-- Go on after tokens that were read. -/
theorem scan {step : Scan α} {f : α → Pass σ β} {a : α} {act : EStateM Error σ β}
    (h : step.Takes size before a between) (hf : Mirrors size (f a) between act after) :
    Mirrors size (Pass.scan step >>= f) before act after := by
  refine .of_reach (fun c d hc => ?_) hf
  obtain ⟨c₁, h₁, hc₁⟩ := h c hc
  exact ⟨c₁, hc₁, bind_of_ok (scan_of_ok h₁)⟩

/-- Read a mark that must follow, and go on. -/
theorem expect {mark : Char} {token place : String} {f : Unit → Pass σ β} {act : EStateM Error σ β}
    (h : token.toList = [mark]) (hb : isBlank mark = false)
    (hf : Mirrors size (f ()) between act after) :
    Mirrors size (Pass.scan (Scan.expect mark place) >>= f) (token :: between) act after :=
  .scan ((Scan.expect_token h hb _).takes (Scan.keepsSize_expect _ _)) hf

/-- A pass that succeeds whatever the target is. -/
theorem of_ok {step : Pass σ α} {f : σ → α} {g : σ → σ}
    (h : ∀ (c : Cursor) (d : σ), c.Faces size before →
      ∃ c', step ⟨c, d⟩ = .ok (f d) ⟨c', g d⟩ ∧ c'.Faces size after) :
    Mirrors size step before (fun d => .ok (f d) (g d)) after where
  ok {c d _ _} hc ha := by
    cases ha
    exact h c d hc
  error _ he := by cases he

/-- The bound that the unread text sets is enough for its tokens. -/
theorem bounded {step : Nat → Pass σ α} {act : EStateM Error σ α}
    (h : ∀ n, 4 * before.length + 4 ≤ n → Mirrors size (step n) before act after) :
    Mirrors size (Pass.bounded step) before act after where
  ok {c _ _ _} hc := (h c.depth hc.at_tokens.depth).ok hc
  error {c _ _ _} hc := (h c.depth hc.at_tokens.depth).error hc

end Mirrors
end Pass

namespace Term

open Pass

variable {size n : Nat}

/-- How the tokens of a term are read at the level where it stands. The bounds grow with the
tokens. -/
structure Parsed (t : Term size (.level n)) : Prop where
  opens : Opens t.tokens
  /-- In front of whatever suffixes follow, except that a name must not be called. -/
  postfixed : n ≤ 1 → ∀ {rest after : List String} {bound : Nat}
    {next : Denotation → Build Denotation}, n = 0 ∨ Uncalled rest →
    (∀ a m, bound ≤ m → Mirrors size (suffixes m a) rest (next a) after) →
    ∀ k, bound + 4 * t.tokens.length ≤ k + 2 →
      Mirrors size (unary k) (t.tokens ++ rest) (t.denote >>= next) after
  operand : n ≤ 2 → ∀ {rest : List String}, Unsuffixed rest →
    ∀ k, 4 * t.tokens.length ≤ k + 1 → Mirrors size (unary k) (t.tokens ++ rest) t.denote rest
  /-- In front of whatever connectives follow. -/
  tight : n < conditionalLevel → ∀ {admitted bound : Nat} {rest after : List String}
    {next : Denotation → Build Operand}, n ≤ admitted → Stops (n - 1) rest →
    (∀ a m, bound ≤ m → Mirrors size (climb m admitted a) rest (next a) after) →
    ∀ k, bound + 4 * t.tokens.length ≤ k →
      Mirrors size (expressionAt k admitted) (t.tokens ++ rest) (t.denote >>= next) after
  loose : ∀ {admitted : Nat} (rest : List String), n ≤ admitted → Stops admitted rest →
    ∀ k, 4 * t.tokens.length < k →
      Mirrors size (expressionAt k admitted) (t.tokens ++ rest) t.value rest

/-- How the tokens of arguments are read up to the end of their list. -/
structure Listed (t : Term size .arguments) : Prop where
  opens : Opens t.tokens
  items : ∀ (rest : List String) (place : String) (k m : Nat), 4 * t.tokens.length < k →
    t.tokens.length ≤ m →
    Mirrors size (items ')' place (expressionAt k fullLevel) m) (t.tokens ++ ")" :: rest) t.denote
      rest

def Readable : {r : Rank} → Term size r → Prop
  | .level _, t => t.Parsed
  | .arguments, t => t = .none ∨ t.Listed

/-- No suffix is read where none follows. -/
theorem suffixes_end {rest : List String} (h : Unsuffixed rest) (a : Denotation) (m : Nat)
    (hm : 1 ≤ m) : Mirrors size (suffixes m a) rest (pure a) rest := by
  obtain ⟨m, rfl⟩ : ∃ k, m = k + 1 := ⟨m - 1, by omega⟩
  exact .scan (h.suffix.takes Scan.keepsSize_suffix) (.pure a)

/-- Climbing ends where nothing more is admitted, and takes the word of what was read. -/
theorem climb_end {level : Nat} {rest : List String} (h : Stops level rest) (a : Denotation)
    (m : Nat) (hm : 1 ≤ m) : Mirrors size (climb m level a) rest (Build.rvalue a) rest := by
  obtain ⟨m, rfl⟩ : ∃ k, m = k + 1 := ⟨m - 1, by omega⟩
  exact .scan ((Scan.connective_stops h).takes (Scan.keepsSize_connective level)) (.build _)

namespace Parsed

variable {t : Term size (.level n)}

theorem of_loose (ho : Opens t.tokens) (hn : conditionalLevel ≤ n)
    (h : ∀ {admitted : Nat} (rest : List String), n ≤ admitted → Stops admitted rest →
      ∀ k, 4 * t.tokens.length < k →
        Mirrors size (expressionAt k admitted) (t.tokens ++ rest) t.value rest) : t.Parsed where
  opens := ho
  postfixed h1 := absurd (Nat.le_trans hn h1) (by decide)
  operand h2 := absurd (Nat.le_trans hn h2) (by decide)
  tight hlt := absurd hlt (Nat.not_lt_of_le hn)
  loose := h

theorem of_tight (ho : Opens t.tokens) (hn : 2 < n)
    (h : ∀ {admitted bound : Nat} {rest after : List String} {next : Denotation → Build Operand},
      n ≤ admitted → Stops (n - 1) rest →
      (∀ a m, bound ≤ m → Mirrors size (climb m admitted a) rest (next a) after) →
      ∀ k, bound + 4 * t.tokens.length ≤ k →
        Mirrors size (expressionAt k admitted) (t.tokens ++ rest) (t.denote >>= next) after) :
    t.Parsed where
  opens := ho
  postfixed h1 := by omega
  operand h2 := by omega
  tight _ := h
  loose _ hle hs k hk := h hle (hs.mono (by omega)) (fun a m => climb_end hs a m) k (by omega)

/-- Climbing goes on after an operand. -/
theorem climb_operand {admitted bound : Nat} {rest after : List String}
    {next : Denotation → Build Operand}
    (h : ∀ k, 4 * t.tokens.length ≤ k + 1 → Mirrors size (unary k) (t.tokens ++ rest) t.denote rest)
    (hclimb : ∀ a m, bound ≤ m → Mirrors size (climb m admitted a) rest (next a) after) (k : Nat)
    (hk : bound + 4 * t.tokens.length ≤ k) :
    Mirrors size (expressionAt k admitted) (t.tokens ++ rest) (t.denote >>= next) after := by
  have hpos := t.length_tokens_pos
  obtain ⟨k, rfl⟩ : ∃ j, k = j + 1 := ⟨k - 1, by omega⟩
  exact .bind (h k (by omega)) fun a => hclimb a k (by omega)

theorem of_operand (ho : Opens t.tokens) (hn : 2 ≤ n)
    (h : ∀ {rest : List String}, Unsuffixed rest → ∀ k, 4 * t.tokens.length ≤ k + 1 →
      Mirrors size (unary k) (t.tokens ++ rest) t.denote rest) : t.Parsed where
  opens := ho
  postfixed h1 := by omega
  operand _ := h
  tight _ _ _ _ _ _ _ hs hclimb := climb_operand (h hs.unsuffixed) hclimb
  loose _ _ hs k hk :=
    climb_operand (h hs.unsuffixed) (fun a m => climb_end hs a m) k (by omega)

theorem of_postfixed (ho : Opens t.tokens)
    (h : ∀ {rest after : List String} {bound : Nat} {next : Denotation → Build Denotation},
      n = 0 ∨ Uncalled rest →
      (∀ a m, bound ≤ m → Mirrors size (suffixes m a) rest (next a) after) →
      ∀ k, bound + 4 * t.tokens.length ≤ k + 2 →
        Mirrors size (unary k) (t.tokens ++ rest) (t.denote >>= next) after) : t.Parsed := by
  have hoperand : ∀ {rest : List String}, Unsuffixed rest → ∀ k, 4 * t.tokens.length ≤ k + 1 →
      Mirrors size (unary k) (t.tokens ++ rest) t.denote rest := by
    intro rest hr k hk
    have hread := h (.inr hr.uncalled) (fun a m => suffixes_end hr a m) k (by omega)
    rwa [bind_pure] at hread
  exact
    { opens := ho
      postfixed := fun _ => h
      operand := fun _ => hoperand
      tight := fun _ _ _ _ _ _ _ hs hclimb => climb_operand (hoperand hs.unsuffixed) hclimb
      loose := fun _ _ hs k hk => climb_operand (hoperand hs.unsuffixed)
        (fun a m => climb_end hs a m) k (by omega) }

end Parsed

end Term
end BCompiler
