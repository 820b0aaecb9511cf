import BCompiler.Proofs.Phrase.Parse
import BCompiler.Proofs.Phrase.Statement
import BCompiler.Proofs.Source.Heading

/-!
Reading the text of a statement.

The pass over the tokens of a statement does to the draft what the code of the statement does, and
fails as it fails. What may stand behind a statement depends on how its text ends.
-/
namespace BCompiler

open Pass

namespace Term

variable {size : Nat}

/-- The first token of a term is a plain name in front of a mark, or no name at all. -/
theorem opening {r : Rank} (t : Term size r) (hr : r ≠ .arguments) (hp : t.isPlain) {next : String}
    (hd : Divides next) (rest : List String) : Opening (t.tokens ++ next :: rest) := by
  induction t generalizing next rest with
  | literal l =>
      obtain ⟨first, hb, hfirst⟩ := l.begins
      refine .mark hb ?_ fun hm => ?_
      · rw [Bool.eq_false_iff]
        intro hs
        rcases Bool.or_eq_true_iff.mp hfirst with hdigit | hquote
        · rw [isDigit_eq_false_of_isNameStart hs] at hdigit
          cases hdigit
        · rw [beq_iff_eq.mp hquote] at hs
          cases hs
      · simp only [List.mem_cons, List.not_mem_nil, or_false] at hm
        rcases hm with rfl | rfl | rfl <;> cases hfirst
  | string letters => exact .mark (begins_quoted _ rfl (by decide)) rfl (by decide)
  | name _ x => exact .name hp hd
  | group t _ => exact .mark (begins_of_mark rfl rfl) rfl (by decide)
  | sign _ s t _ =>
      obtain ⟨first, hb, hm⟩ := s.begins
      simp only [List.mem_cons, List.not_mem_nil, or_false] at hm
      rcases hm with rfl | rfl | rfl | rfl | rfl <;> exact .mark hb rfl (by decide)
  | step k t ih =>
      rw [tokens, List.append_assoc]
      refine ih (Rank.level_ne_arguments _) hp ?_ _
      cases k
      · exact ⟨'+', ⟨['+'], rfl, rfl, by decide⟩, rfl, by decide⟩
      · exact ⟨'-', ⟨['-'], rfl, rfl, by decide⟩, rfl, by decide⟩
  | subscript base index ih _ =>
      rw [tokens, bracketed_append]
      exact ih (Rank.level_ne_arguments _) hp (divides_of_mark rfl rfl rfl (by decide)) _
  | call f arguments _ => exact .name hp (divides_of_mark rfl rfl rfl (by decide))
  | callThrough callee arguments ih _ =>
      rw [tokens, bracketed_append]
      exact ih (Rank.level_ne_arguments _) hp (divides_of_mark rfl rfl rfl (by decide)) _
  | binary op _ l r ih _ =>
      rw [tokens, List.append_assoc]
      exact ih (Rank.level_ne_arguments _) hp op.divides _
  | conditional _ c t e ih _ _ =>
      rw [tokens, List.append_assoc, List.append_assoc]
      exact ih (Rank.level_ne_arguments _) hp (divides_of_mark rfl rfl rfl (by decide)) _
  | assign op _ l r ih _ =>
      rw [tokens, List.append_assoc]
      exact ih (Rank.level_ne_arguments _) hp ⟨'=', Scan.begins_equals op, rfl, by decide⟩ _
  | none | cons => exact absurd rfl hr

end Term

namespace Scan

variable {size : Nat} {rest : List String}

theorem caseConstant_literal (l : Literal size) :
    Takes size caseConstant (l.token :: ":" :: rest) l.word rest :=
  .bind (constant?_literal l) (.expect rfl rfl (.pure _))

theorem arraySize_literal (l : Literal size) :
    Takes size (arraySize do if ← accept '\'' then character else number)
      (l.token :: "]" :: rest) l.word rest := by
  obtain ⟨first, hb, hfirst⟩ := l.begins
  have hne : first ≠ ']' := by
    rintro rfl
    cases hfirst
  have hsize : Takes size (do if ← accept '\'' then character else number)
      (l.token :: "]" :: rest) l.word ("]" :: rest) := by
    cases l with
    | number n =>
        obtain ⟨digit, hb, hd⟩ := n.begins
        have hquote : digit ≠ '\'' := by
          rintro rfl
          cases hd
        exact .bind ((accept_other hb hquote).takes (keepsSize_accept _))
          ((number_digits n).takes keepsSize_number)
    | character l => exact character_accepted l number
  refine .bind ((accept_other hb hne).takes (keepsSize_accept _)) (.bind hsize ?_)
  exact .expect rfl rfl (.pure _)

/-- An item of an auto declaration, where something other than a bracket follows. -/
theorem autoItem_item (item : AutoItem size) {next : String} {first : Char} (hb : Begins next first)
    (hne : first ≠ '[') :
    Takes size autoItem (item.tokens ++ next :: rest) item.entry (next :: rest) := by
  have hname : ∀ (x : Name) (tokens : List String),
      Takes size (someName "name in auto declaration") (x.text :: tokens) x.text tokens :=
    fun x _ => (someName_token x _).takes (keepsSize_someName _)
  have hbracket : ∀ tokens : List String, Takes size (accept '[') ("[" :: tokens) true tokens :=
    fun _ => (accept_token rfl rfl).takes (keepsSize_accept _)
  cases item with
  | scalar x =>
      exact .bind (hname x _) (.bind ((accept_other hb hne).takes (keepsSize_accept _)) (.pure _))
  | array x length =>
      cases length with
      | none =>
          have hsize : Takes size (arraySize do if ← accept '\'' then character else number)
              ("]" :: next :: rest) 0 (next :: rest) :=
            .bind ((accept_token rfl rfl).takes (keepsSize_accept _)) (.pure _)
          exact .bind (hname x _) (.bind (hbracket _) (.bind hsize (.pure _)))
      | some l =>
          exact .bind (hname x _) (.bind (hbracket _) (.bind (arraySize_literal l) (.pure _)))

end Scan

namespace Pass

theorem scan_congr {σ α : Type} {step : Scan α} {c c' : Cursor} {d : σ} (h : step c = step c') :
    scan step ⟨c, d⟩ = scan step ⟨c', d⟩ := by
  unfold scan
  rw [h]

/-- A variable that was pushed back is read as if a blank followed it. -/
theorem expressionAt_joined {x : Name} {next : String} (hd : Divides next) {c : Cursor}
    {tokens : List String} {n : Nat}
    (hc : c.unread = x.text.toList ++ (next.toList ++ spaced tokens)) (level : Nat) (d : Draft) :
    expressionAt (n + 3) level ⟨c, d⟩ =
      expressionAt (n + 3) level
        ⟨{ c with unread := x.text.toList ++ spaced (next :: tokens) }, d⟩ := by
  refine bind_congr_state ?_
  have hsign : ∀ {c : Cursor} {text : List Char}, c.unread = x.text.toList ++ text →
      scan Scan.sign ⟨c, d⟩ = .ok none ⟨c, d⟩ :=
    fun hc => scan_eq_ok_iff.mpr ⟨Scan.sign_name hc, rfl⟩
  unfold unary
  rw [bind_of_ok (hsign hc), bind_of_ok (hsign rfl)]
  exact bind_congr_state (bind_congr_state (scan_congr (Scan.atom_joined hd hc)))

end Pass

theorem auto_mirrors {size : Nat} (item : AutoItem size) {next : String} {first : Char}
    (hb : Begins next first) (hne : first ≠ '[') (rest : List String) :
    Mirrors size Pass.auto (item.tokens ++ next :: rest) item.declare (next :: rest) :=
  .scan (Scan.autoItem_item item hb hne) (.build _)

theorem length_separated {α : Type} (tokens : α → List String) (a : α) (as : List α) :
    as.length ≤ (separated tokens a as).length := by
  induction as generalizing a with
  | nil => exact Nat.zero_le _
  | cons b bs ih =>
      have := ih b
      simp only [separated, List.length_append, List.length_cons]
      omega

/-- Items with commas between them and a mark behind them, by induction on the items that are
left. -/
theorem items_mirrors {size : Nat} {σ α β : Type} {item : Pass σ β} {tokens : α → List String}
    {act : α → EStateM Error σ β} {close : Char} {mark : String} (hm : mark.toList = [close])
    (hb : isBlank close = false) (hc : close ≠ ',') (place : String)
    (hitem : ∀ (a : α) (next : String) (rest : List String), next ∈ [",", mark] →
      Mirrors size item (tokens a ++ next :: rest) (act a) (next :: rest))
    (a : α) (as : List α) (rest : List String) (n : Nat) (hn : as.length < n) :
    Mirrors size (items close place item n) (separated tokens a as ++ mark :: rest)
      ((a :: as).mapM act) rest := by
  induction as generalizing a n with
  | nil =>
      obtain ⟨n, rfl⟩ : ∃ k, n = k + 1 := ⟨n - 1, by omega⟩
      simp only [List.mapM_cons, List.mapM_nil, pure_bind]
      refine .bind (hitem a mark rest (.tail _ (.head _))) fun b => ?_
      exact .scan ((Scan.another_close hm hb hc place).takes (Scan.keepsSize_another _ _)) (.pure _)
  | cons b bs ih =>
      rw [List.length_cons] at hn
      obtain ⟨n, rfl⟩ : ∃ k, n = k + 1 := ⟨n - 1, by omega⟩
      rw [List.mapM_cons, separated, List.append_assoc]
      refine .bind (hitem a "," _ (.head _)) fun c => ?_
      refine .scan ((Scan.another_comma close place).takes (Scan.keepsSize_another _ _)) ?_
      exact .bind (ih b n (by omega)) fun _ => .pure _

/-- The step of the pass that reads statements of a shape. -/
def Shape.parse : Shape → Nat → Body
  | single, n => statementAt n
  | block, n => statements n
  | labelled, n => Pass.labelled (statementAt n)
  | alternative, n => elsePart (statementAt n)

namespace Statement

variable {size : Nat} {rest : List String}

/-- The tokens may stand behind the statement. -/
structure Fits {f : Shape} (t : Statement size f) (rest : List String) : Prop where
  bare : t.endsBare → ∃ tail, rest = "\x7d" :: tail
  closed : t.endsOpen → (Scan.keyword "else").Reads rest false rest

theorem fits_brace {f : Shape} (t : Statement size f) (rest : List String) :
    t.Fits ("\x7d" :: rest) :=
  ⟨fun _ => ⟨rest, rfl⟩,
    fun _ => Scan.keyword_mark ⟨"else", by decide⟩ (begins_of_mark rfl rfl) rfl⟩

theorem fits_block (t : Statement size .block) (rest : List String) : t.Fits rest := by
  cases t <;> exact ⟨nofun, nofun⟩

/-- A statement begins with a brace or a semicolon, with a name that is not `else`, or as an
expression does. -/
theorem starts (s : Statement size .single) (rest : List String) : Starts (s.tokens ++ rest) := by
  cases s with
  | null => exact starts_mark (begins_of_mark rfl rfl) rfl (by decide)
  | expression t h =>
      rw [tokens, List.append_assoc]
      exact (t.opening (Rank.level_ne_arguments _) h divides_semicolon rest).starts
  | compound body => exact starts_mark (begins_of_mark rfl rfl) rfl (by decide)
  | ifElse => exact starts_name ⟨"if", by decide⟩ (by decide)
  | whileLoop => exact starts_name ⟨"while", by decide⟩ (by decide)
  | switch => exact starts_name ⟨"switch", by decide⟩ (by decide)
  | case => exact starts_name ⟨"case", by decide⟩ (by decide)
  | label x h body => exact starts_name x (Name.isPlain_iff.mp h).2
  | goto => exact starts_name ⟨"goto", by decide⟩ (by decide)
  | auto => exact starts_name ⟨"auto", by decide⟩ (by decide)
  | extrn => exact starts_name ⟨"extrn", by decide⟩ (by decide)
  | ret value => cases value <;> exact starts_name ⟨"return", by decide⟩ (by decide)

theorem starts_fenced (s : Statement size .single) (needed : Bool) (rest : List String) :
    Starts (fenced needed s.tokens ++ rest) := by
  cases needed with
  | true => exact starts_mark (begins_of_mark rfl rfl) rfl (by decide)
  | false => exact s.starts rest

theorem stops_name {level : Nat} (x : Name) (rest : List String) :
    Stops level (x.text :: rest) := by
  obtain ⟨first, hb, hs⟩ := x.begins
  exact .statement hb (.inr hs)

/-- The body of a switch does not go on with the value in front of it. -/
theorem stops_fenced {level : Nat} (s : Statement size .single) (rest : List String) :
    Stops level (fenced s.isExpression s.tokens ++ rest) := by
  cases s with
  | null => exact .close (by decide)
  | expression t h => exact .statement (begins_of_mark rfl rfl) (.inl rfl)
  | compound body => exact .statement (begins_of_mark rfl rfl) (.inl rfl)
  | ifElse => exact stops_name ⟨"if", by decide⟩ _
  | whileLoop => exact stops_name ⟨"while", by decide⟩ _
  | switch => exact stops_name ⟨"switch", by decide⟩ _
  | case => exact stops_name ⟨"case", by decide⟩ _
  | label x => exact stops_name x _
  | goto => exact stops_name ⟨"goto", by decide⟩ _
  | auto => exact stops_name ⟨"auto", by decide⟩ _
  | extrn => exact stops_name ⟨"extrn", by decide⟩ _
  | ret value => cases value <;> exact stops_name ⟨"return", by decide⟩ _

/-- How the tokens of a statement are read in front of tokens that fit. -/
def Mirrored {f : Shape} (t : Statement size f) : Prop :=
  ∀ {rest : List String}, t.Fits rest → ∀ n, 4 * t.tokens.length ≤ n → ∀ enclosing,
    Mirrors size (f.parse n enclosing) (t.tokens ++ rest) (t.emit enclosing) rest

theorem head_mirrors {x : Name} {head : StatementHead} {tokens after : List String} {α : Type}
    {f : StatementHead → Pass Draft α} {act : Build α}
    (hx : StatementHead.ofKeyword? x.text = some head)
    (h : Mirrors size (f head) tokens act after) :
    Mirrors size (Pass.scan Scan.statementHead >>= f) (x.text :: tokens) act after :=
  .scan ((Scan.statementHead_keyword x hx).takes Scan.keepsSize_statementHead) h

/-- One statement after the other. -/
theorem statements_mirrors {tokens between after : List String} {n : Nat}
    {enclosing : Option Switch} {act : Build (Option Switch)}
    {next : Option Switch → Build (Option Switch)} (hs : Starts tokens)
    (h : Mirrors size (statementAt n enclosing) tokens act between)
    (hnext : ∀ e, Mirrors size (statements n e) between (next e) after) :
    Mirrors size (statements (n + 1) enclosing) tokens (act >>= next) after := by
  obtain ⟨token, tail, first, rfl, hb, hne⟩ := hs.begins
  refine .scan ((Scan.accept_other hb hne).takes (Scan.keepsSize_accept _)) ?_
  exact .scan ((Scan.atEnd_token hb).takes Scan.keepsSize_atEnd) (.bind h hnext)

theorem statements_close (n : Nat) (enclosing : Option Switch) :
    Mirrors size (statements (n + 1) enclosing) ("\x7d" :: rest) (pure enclosing) rest :=
  .scan ((Scan.accept_token rfl rfl).takes (Scan.keepsSize_accept _)) (.pure _)

theorem compound_mirrors {tokens after : List String} {n : Nat} {enclosing : Option Switch}
    {act : Build (Option Switch)} (h : Mirrors size (statements n enclosing) tokens act after) :
    Mirrors size (statementAt (n + 1) enclosing) ("\x7b" :: tokens) act after :=
  .scan (Scan.statementHead_compound.takes Scan.keepsSize_statementHead) h

/-- Braces around a statement change nothing but what may stand behind it. -/
theorem Mirrored.fenced {s : Statement size .single} (h : s.Mirrored) {needed : Bool}
    (hfits : needed = false → s.Fits rest) (n : Nat)
    (hn : 4 * (fenced needed s.tokens).length ≤ n) (enclosing : Option Switch) :
    Mirrors size (statementAt n enclosing) (BCompiler.fenced needed s.tokens ++ rest)
      (s.emit enclosing) rest := by
  cases needed with
  | false => exact h (hfits rfl) n hn enclosing
  | true =>
      simp only [BCompiler.fenced, if_true, List.length_append, List.length_cons,
        List.length_nil] at hn
      obtain ⟨n, rfl⟩ : ∃ k, n = k + 3 := ⟨n - 3, by omega⟩
      simp only [BCompiler.fenced, if_true, List.cons_append, List.append_assoc, List.nil_append]
      rw [← bind_pure (s.emit enclosing)]
      refine compound_mirrors (statements_mirrors (s.starts _) ?_ fun e => statements_close n e)
      exact h (s.fits_brace rest) (n + 1) (by omega) enclosing

/-- An expression with a semicolon behind it. A name at its beginning is read twice. -/
theorem expression_mirrors {tokens : List String} {n : Nat} {act : Build Operand}
    (ho : Opening tokens)
    (h : Mirrors size (expressionAt (n + 3) fullLevel) tokens act (";" :: rest))
    (enclosing : Option Switch) :
    Mirrors size (statementAt (n + 4) enclosing) tokens (do let _ ← act; return enclosing)
      rest := by
  have hrest : Mirrors size (expressionAt (n + 3) fullLevel >>= fun _ => do
      scan (Scan.expect ';' "after expression statement")
      return enclosing) tokens (do let _ ← act; return enclosing) rest :=
    .bind h fun _ => .expect rfl rfl (.pure _)
  cases ho with
  | mark hb hn hf =>
      exact .scan ((Scan.statementHead_mark hb hn hf).takes Scan.keepsSize_statementHead) hrest
  | @name x next tokens hx hd =>
      refine .of_reach (fun c d hc => ?_) hrest
      obtain ⟨c₁, h₁, hu⟩ := Scan.statementHead_name x hx hd hc.at_tokens
      have hsize := (Scan.keepsSize_statementHead c _ c₁ h₁).trans hc.wordSize
      refine ⟨{ c₁ with unread := x.text.toList ++ spaced (next :: tokens) }, ⟨.inr rfl, hsize⟩, ?_⟩
      have hhead : scan Scan.statementHead ⟨c, d⟩ = .ok .expression ⟨c₁, d⟩ := scan_of_ok h₁
      exact (bind_of_ok hhead).trans (bind_congr_state (expressionAt_joined hd hu fullLevel d))

namespace Mirrored

theorem null : (null : Statement size .single).Mirrored := by
  intro rest _ n hn enclosing
  obtain ⟨n, rfl⟩ : ∃ k, n = k + 1 := ⟨n - 1, by simp only [tokens, List.length_cons] at hn; omega⟩
  exact .scan (Scan.statementHead_empty.takes Scan.keepsSize_statementHead) (.pure _)

theorem expression (t : Term size (.level fullLevel)) (h : t.isPlain) :
    (expression t h).Mirrored := by
  intro rest _ n hn enclosing
  rw [tokens, List.length_append, List.length_singleton] at hn
  have hpos := t.length_tokens_pos
  obtain ⟨n, rfl⟩ : ∃ k, n = k + 4 := ⟨n - 4, by omega⟩
  rw [tokens, List.append_assoc]
  have hopening := t.opening (Rank.level_ne_arguments _) h divides_semicolon rest
  refine expression_mirrors hopening ?_ enclosing
  exact t.parsed.loose (";" :: rest) (Nat.le_refl _) (.close (by decide)) (n + 3) (by omega)

theorem compound {body : Statement size .block} (h : body.Mirrored) :
    (compound body).Mirrored := by
  intro rest _ n hn enclosing
  rw [tokens, List.length_cons] at hn
  obtain ⟨n, rfl⟩ : ∃ k, n = k + 1 := ⟨n - 1, by omega⟩
  exact compound_mirrors (h (body.fits_block rest) n (by omega) enclosing)

theorem ifElse {c : Term size (.level fullLevel)} {t : Statement size .single}
    {e : Statement size .alternative} (ht : t.Mirrored) (he : e.Mirrored) :
    (ifElse c t e).Mirrored := by
  intro rest hfits n hn enclosing
  simp only [tokens, List.length_append, List.length_cons] at hn
  obtain ⟨n, rfl⟩ : ∃ k, n = k + 1 := ⟨n - 1, by omega⟩
  simp only [tokens, List.cons_append, List.append_assoc]
  -- The first arm needs no braces if it is not cut short by the other one.
  have harm : (!e.isEmpty && (t.endsBare || t.endsOpen)) = false → t.Fits (e.tokens ++ rest) := by
    intro hneeded
    cases e with
    | noElse => exact ⟨hfits.bare, fun _ => hfits.closed rfl⟩
    | otherwise s =>
        obtain ⟨hbare, hopen⟩ := Bool.or_eq_false_iff.mp hneeded
        exact ⟨fun h => absurd (hbare.symm.trans h) (by decide),
          fun h => absurd (hopen.symm.trans h) (by decide)⟩
  have hother : e.Fits rest := by
    refine ⟨fun hbare => ?_, hfits.closed⟩
    cases e with
    | noElse => cases hbare
    | otherwise s => exact hfits.bare hbare
  refine head_mirrors (x := ⟨"if", by decide⟩) rfl (.expect rfl rfl ?_)
  refine .bind (c.parsed.loose _ (Nat.le_refl _) (.close (by decide)) n (by omega)) fun word => ?_
  refine .expect rfl rfl (.bind (.build _) fun group => ?_)
  refine .bind (ht.fenced harm n (by omega) enclosing) fun enclosing => ?_
  refine .bind (.build _) fun _ => .bind (he hother n (by omega) enclosing) fun enclosing => ?_
  exact .bind (.build _) fun _ => .pure _

theorem whileLoop {c : Term size (.level fullLevel)} {body : Statement size .single}
    (h : body.Mirrored) : (whileLoop c body).Mirrored := by
  intro rest hfits n hn enclosing
  simp only [tokens, List.length_append, List.length_cons] at hn
  obtain ⟨n, rfl⟩ : ∃ k, n = k + 1 := ⟨n - 1, by omega⟩
  simp only [tokens, List.cons_append, List.append_assoc]
  refine head_mirrors (x := ⟨"while", by decide⟩) rfl (.bind (.build _) fun group => ?_)
  refine .expect rfl rfl (.bind (c.parsed.loose _ (Nat.le_refl _) (.close (by decide)) n (by omega))
    fun word => .expect rfl rfl (.bind (.build _) fun _ => ?_))
  refine .bind (h ⟨hfits.bare, hfits.closed⟩ n (by omega) enclosing) fun enclosing => ?_
  exact .bind (.build _) fun _ => .pure _

theorem switch {value : Term size (.level fullLevel)} {body : Statement size .single}
    (h : body.Mirrored) : (switch value body).Mirrored := by
  intro rest hfits n hn enclosing
  simp only [tokens, List.length_append, List.length_cons] at hn
  obtain ⟨n, rfl⟩ : ∃ k, n = k + 1 := ⟨n - 1, by omega⟩
  simp only [tokens, List.cons_append, List.append_assoc]
  refine head_mirrors (x := ⟨"switch", by decide⟩) rfl ?_
  have hvalue := value.parsed.loose _ (Nat.le_refl _) (body.stops_fenced rest) n (by omega)
  have hbehind : body.isExpression = false → body.Fits rest := fun _ => ⟨hfits.bare, hfits.closed⟩
  simp only [Pass.switch, bind_assoc]
  refine .bind hvalue fun word => .bind (.build _) fun group => ?_
  refine .bind (h.fenced hbehind n (by omega) _) fun inner => ?_
  exact .bind (.build _) fun _ => .pure _

theorem case {value : Literal size} {body : Statement size .labelled} (h : body.Mirrored) :
    (case value body).Mirrored := by
  intro rest hfits n hn enclosing
  simp only [tokens, List.length_cons] at hn
  obtain ⟨n, rfl⟩ : ∃ k, n = k + 1 := ⟨n - 1, by omega⟩
  refine head_mirrors (x := ⟨"case", by decide⟩) rfl ?_
  cases enclosing with
  | none => exact .throw _
  | some enclosing =>
      refine .scan (Scan.caseConstant_literal value) ?_
      unfold emit
      split
      · exact .throw _
      · exact .bind (.build _) fun block => h ⟨hfits.bare, hfits.closed⟩ n (by omega) _

theorem label {x : Name} (hx : x.isPlain) {body : Statement size .labelled} (h : body.Mirrored) :
    (label x hx body).Mirrored := by
  intro rest hfits n hn enclosing
  simp only [tokens, List.length_cons] at hn
  obtain ⟨n, rfl⟩ : ∃ k, n = k + 1 := ⟨n - 1, by omega⟩
  refine .scan ((Scan.statementHead_label x hx).takes Scan.keepsSize_statementHead) ?_
  exact .bind (.build _) fun _ => h ⟨hfits.bare, hfits.closed⟩ n (by omega) enclosing

theorem goto (x : Name) : (goto x : Statement size .single).Mirrored := by
  intro rest _ n hn enclosing
  obtain ⟨n, rfl⟩ : ∃ k, n = k + 1 := ⟨n - 1, by simp only [tokens, List.length_cons] at hn; omega⟩
  refine head_mirrors (x := ⟨"goto", by decide⟩) rfl ?_
  simp only [Pass.goto, bind_assoc]
  refine .scan ((Scan.someName_token x _).takes (Scan.keepsSize_someName _)) ?_
  exact .bind (.build _) fun _ => .expect rfl rfl (.pure _)

/-- What stands between the items of a declaration. -/
theorem begins_divider {next : String} (h : next ∈ [",", ";"]) :
    ∃ first, Begins next first ∧ first ≠ '[' := by
  simp only [List.mem_cons, List.not_mem_nil, or_false] at h
  rcases h with rfl | rfl
  · exact ⟨',', begins_of_mark rfl rfl, by decide⟩
  · exact ⟨';', begins_of_mark rfl rfl, by decide⟩

theorem auto (item : AutoItem size) (items : List (AutoItem size)) :
    (auto item items).Mirrored := by
  intro rest _ n hn enclosing
  have hlength := length_separated AutoItem.tokens item items
  simp only [tokens, List.length_append, List.length_cons] at hn
  obtain ⟨n, rfl⟩ : ∃ k, n = k + 1 := ⟨n - 1, by omega⟩
  simp only [tokens, List.cons_append, List.append_assoc, List.nil_append]
  refine head_mirrors (x := ⟨"auto", by decide⟩) rfl ?_
  refine .bind (items_mirrors rfl rfl (by decide) _ (fun item next rest hnext => ?_) item items rest
    n (by omega)) fun _ => .pure _
  obtain ⟨first, hb, hne⟩ := begins_divider hnext
  exact auto_mirrors item hb hne rest

theorem extrn (x : Name) (xs : List Name) : (extrn x xs : Statement size .single).Mirrored := by
  intro rest _ n hn enclosing
  have hlength := length_separated (fun x : Name => [x.text]) x xs
  simp only [tokens, List.length_append, List.length_cons] at hn
  obtain ⟨n, rfl⟩ : ∃ k, n = k + 1 := ⟨n - 1, by omega⟩
  simp only [tokens, List.cons_append, List.append_assoc, List.nil_append]
  refine head_mirrors (x := ⟨"extrn", by decide⟩) rfl ?_
  refine .bind (items_mirrors rfl rfl (by decide) _ (fun x next rest _ => ?_) x xs rest n
    (by omega)) fun _ => .pure _
  exact .scan ((Scan.someName_token x _).takes (Scan.keepsSize_someName _)) (.build _)

theorem ret (value : Option (Term size (.level fullLevel))) :
    (ret value : Statement size .single).Mirrored := by
  intro rest _ n hn enclosing
  have hmark : ∀ {m : Char} {w : String} (tokens : List String), w.toList = [m] →
      isBlank m = false → Scan.readMark.Takes size (w :: tokens) (some m) tokens :=
    fun _ h hb => (Scan.readMark_token h hb).takes Scan.keepsSize_readMark
  cases value with
  | none =>
      obtain ⟨n, rfl⟩ : ∃ k, n = k + 1 :=
        ⟨n - 1, by simp only [tokens, List.length_cons] at hn; omega⟩
      refine head_mirrors (x := ⟨"return", by decide⟩) rfl ?_
      exact .bind (.scan (hmark (m := ';') rest rfl rfl) (.build _)) fun _ => .pure _
  | some t =>
      simp only [tokens, List.length_append, List.length_cons] at hn
      obtain ⟨n, rfl⟩ : ∃ k, n = k + 1 := ⟨n - 1, by omega⟩
      simp only [tokens, List.cons_append, List.append_assoc, List.nil_append, emit]
      refine head_mirrors (x := ⟨"return", by decide⟩) rfl ?_
      simp only [step_eq, Pass.ret, bind_assoc]
      refine .scan (hmark (m := '(') (w := "(") _ rfl rfl) ?_
      have hvalue := t.parsed.loose (")" :: ";" :: rest) (Nat.le_refl _) (.close (by decide)) n
        (by omega)
      simp only [bind_assoc]
      refine .bind hvalue fun _ => .expect rfl rfl (.expect rfl rfl ?_)
      exact .bind (.build _) fun _ => .pure _

theorem done : (done : Statement size .block).Mirrored := by
  intro rest _ n hn enclosing
  obtain ⟨n, rfl⟩ : ∃ k, n = k + 1 := ⟨n - 1, by simp only [tokens, List.length_cons] at hn; omega⟩
  exact statements_close n enclosing

theorem cons {s : Statement size .single} {t : Statement size .block} (hs : s.Mirrored)
    (ht : t.Mirrored) : (cons s t).Mirrored := by
  intro rest _ n hn enclosing
  have hhead := s.length_tokens_pos (by decide)
  have hbraces := length_le_fenced (s.endsBare && !t.isEmpty) s.tokens
  have htail := t.length_tokens_pos (by decide)
  rw [tokens, List.length_append] at hn
  obtain ⟨n, rfl⟩ : ∃ k, n = k + 1 := ⟨n - 1, by omega⟩
  rw [tokens, List.append_assoc]
  have hfits : (s.endsBare && !t.isEmpty) = false → s.Fits (t.tokens ++ rest) := by
    intro hneeded
    cases t with
    | done => exact s.fits_brace rest
    | cons s' t =>
        change (s.endsBare && true) = false at hneeded
        rw [Bool.and_true] at hneeded
        refine ⟨fun h => absurd (hneeded.symm.trans h) (by decide), fun _ => ?_⟩
        rw [tokens, List.append_assoc]
        exact (s'.starts_fenced _ _).noElse
  refine statements_mirrors (s.starts_fenced _ _) (hs.fenced hfits n (by omega) enclosing) ?_
  exact fun e => ht (t.fits_block rest) n (by omega) e

theorem nothing : (nothing : Statement size .labelled).Mirrored := by
  intro rest hfits n _ enclosing
  obtain ⟨tail, rfl⟩ := hfits.bare rfl
  have hb : Begins "\x7d" '}' := begins_of_mark rfl rfl
  exact .scan ((Scan.peekMark_token hb).takes Scan.keepsSize_peekMark) (.pure _)

theorem stated {s : Statement size .single} (h : s.Mirrored) : (stated s).Mirrored := by
  intro rest hfits n hn enclosing
  have hbehind : s.Fits rest := ⟨hfits.bare, hfits.closed⟩
  have hbody := h hbehind n hn enclosing
  obtain ⟨token, tail, first, ht, hb, hne⟩ := (s.starts rest).begins
  change Mirrors size (Pass.labelled (statementAt n) enclosing) (s.tokens ++ rest)
    (s.emit enclosing) rest
  rw [ht] at hbody ⊢
  refine .scan ((Scan.peekMark_token hb).takes Scan.keepsSize_peekMark) ?_
  rw [if_neg (by simpa using hne)]
  exact hbody

theorem noElse : (noElse : Statement size .alternative).Mirrored := by
  intro rest hfits n _ enclosing
  exact .scan ((hfits.closed rfl).takes (Scan.keepsSize_keyword _)) (.pure _)

theorem otherwise {s : Statement size .single} (h : s.Mirrored) : (otherwise s).Mirrored := by
  intro rest hfits n hn enclosing
  rw [tokens, List.length_cons] at hn
  refine .scan ((Scan.keyword_token ⟨"else", by decide⟩).takes (Scan.keepsSize_keyword _)) ?_
  exact h ⟨hfits.bare, hfits.closed⟩ n (by omega) enclosing

end Mirrored

/-- Every statement is read as what it is. -/
theorem mirrored {f : Shape} (t : Statement size f) : t.Mirrored := by
  induction t with
  | null => exact Mirrored.null
  | expression t h => exact Mirrored.expression t h
  | compound _ ih => exact Mirrored.compound ih
  | ifElse _ _ _ iht ihe => exact Mirrored.ifElse iht ihe
  | whileLoop _ _ ih => exact Mirrored.whileLoop ih
  | switch _ _ ih => exact Mirrored.switch ih
  | case _ _ ih => exact Mirrored.case ih
  | label _ h _ ih => exact Mirrored.label h ih
  | goto x => exact Mirrored.goto x
  | auto item items => exact Mirrored.auto item items
  | extrn x xs => exact Mirrored.extrn x xs
  | ret value => exact Mirrored.ret value
  | done => exact Mirrored.done
  | cons _ _ ihs iht => exact Mirrored.cons ihs iht
  | nothing => exact Mirrored.nothing
  | stated _ ih => exact Mirrored.stated ih
  | noElse => exact Mirrored.noElse
  | otherwise _ ih => exact Mirrored.otherwise ih

/-- A statement outside of any switch. -/
theorem statement_mirrors (t : Statement size .single) {rest : List String}
    (hfits : t.endsBare = false → t.Fits rest) :
    Mirrors size Pass.statement (fenced t.endsBare t.tokens ++ rest) (do let _ ← t.emit none)
      rest := by
  refine .bounded fun n hn => ?_
  rw [List.length_append] at hn
  exact .bind (Mirrored.fenced t.mirrored hfits n (by omega) none) fun _ => .pure _

theorem alone_mirrors (t : Statement size .single) :
    Mirrors size Pass.statement (fenced t.endsBare t.tokens) (do let _ ← t.emit none) [] := by
  have hfits : t.endsBare = false → t.Fits [] := fun hbare =>
    ⟨fun h => absurd (hbare.symm.trans h) (by decide),
      fun _ => Scan.keyword_nil ⟨"else", by decide⟩⟩
  have hread := t.statement_mirrors hfits
  rwa [List.append_nil] at hread

end Statement
end BCompiler
