import BCompiler.Proofs.Phrase.Reading

/-!
Reading each kind of term.

There is one lemma for each way to form a term, and an induction on the term.
-/
namespace BCompiler

namespace Term

open Pass

variable {size n : Nat}

attribute [local simp] tokens denote

/-- Go on with the word of a term that was read. -/
theorem bind_value {β : Type} {t : Term size (.level n)} {x : Pass Draft Operand}
    {f : Operand → Pass Draft β} {next : Operand → Build β} {before between after : List String}
    (hx : Mirrors size x before t.value between)
    (hf : ∀ v, Mirrors size (f v) between (next v) after) :
    Mirrors size (x >>= f) before (t.denote >>= fun a => Build.rvalue a >>= next) after := by
  rw [← bind_assoc]
  exact .bind hx hf

namespace Parsed

/-- A term that is read without a sign, in front of whatever suffixes follow. -/
theorem of_primary {t : Term size (.level n)} {token : String} {first : Char} {tail : List String}
    (ht : t.tokens = token :: tail) (hb : Begins token first) (hne : first ≠ ')')
    (hf : first ∉ ['!', '*', '&', '+', '-'])
    (h : ∀ {rest : List String} (k : Nat), n = 0 ∨ Uncalled rest → 4 * tail.length ≤ k →
      Mirrors size (primary (k + 1)) (token :: tail ++ rest) t.denote rest) : t.Parsed := by
  refine of_postfixed ⟨token, tail, first, ht, hb, hne⟩ fun hr hnext k hk => ?_
  rw [ht] at hk ⊢
  rw [List.length_cons] at hk
  obtain ⟨k, rfl⟩ : ∃ j, k = j + 2 := ⟨k - 2, by omega⟩
  refine .scan ((Scan.sign_none hb hf).takes Scan.keepsSize_sign) ?_
  exact .bind (h k hr (by omega)) fun a => hnext a (k + 1) (by omega)

theorem literal (l : Literal size) : (Term.literal l : Term size (.level n)).Parsed := by
  obtain ⟨first, hb, hfirst⟩ := l.begins
  have hne : first ≠ ')' := by
    rintro rfl
    cases hfirst
  exact of_primary rfl hb hne (not_mem_signs hfirst rfl) fun k _ _ =>
    .scan (Scan.atom_literal l) (.pure _)

theorem string (letters : List (Letter '"')) :
    (Term.string letters : Term size (.level n)).Parsed := by
  have hb : Begins (quoted letters) '"' := begins_quoted _ rfl (by decide)
  refine of_primary rfl hb (by decide) (by decide) fun k _ _ => ?_
  refine .scan ((Scan.atom_string letters).takes Scan.keepsSize_atom) ?_
  exact .bind (.build _) fun _ => .pure _

theorem name (hn : 1 ≤ n) (x : Name) : (Term.name hn x : Term size (.level n)).Parsed := by
  obtain ⟨first, hb, hs⟩ := x.begins
  have hne : first ≠ ')' := by
    rintro rfl
    cases hs
  refine of_primary rfl hb hne (not_mem_signs hs rfl) fun k hr _ => ?_
  have huncalled := hr.resolve_left (by omega)
  exact .scan ((Scan.atom_name x huncalled).takes Scan.keepsSize_atom) (.build _)

theorem group {t : Term size (.level fullLevel)} (h : t.Parsed) :
    (Term.group t : Term size (.level n)).Parsed := by
  have hb : Begins "(" '(' := begins_of_mark rfl rfl
  have htokens : (Term.group t : Term size (.level n)).tokens = "(" :: (t.tokens ++ [")"]) := rfl
  refine of_primary htokens hb (by decide) (by decide) fun {rest} k _ hk => ?_
  rw [List.length_append, List.length_singleton] at hk
  rw [List.cons_append, List.append_assoc]
  refine .scan (Scan.atom_group.takes Scan.keepsSize_atom) ?_
  have hvalue := h.loose (")" :: rest) (Nat.le_refl _) (.close (by decide)) k (by omega)
  exact bind_value hvalue fun _ => .expect rfl rfl (.pure _)

theorem sign {t : Term size (.level 2)} (h : t.Parsed) (hn : 2 ≤ n) (s : Sign) :
    (Term.sign hn s t : Term size (.level n)).Parsed := by
  have hopens : Opens (s.symbol :: t.tokens) := by
    obtain ⟨first, hb, hm⟩ := s.begins
    refine ⟨_, _, first, rfl, hb, ?_⟩
    rintro rfl
    exact absurd hm (by decide)
  refine of_operand hopens hn fun hr k hk => ?_
  change 4 * (t.tokens.length + 1) ≤ k + 1 at hk
  obtain ⟨k, rfl⟩ : ∃ j, k = j + 1 := ⟨k - 1, by omega⟩
  refine .scan ((Scan.sign_symbol s).takes Scan.keepsSize_sign) ?_
  exact .bind (h.operand (Nat.le_refl 2) hr k (by omega)) fun _ => .build _

theorem suffixes_step {rest after : List String} {next : Denotation → Build Denotation} (k : Count)
    (a : Denotation) (m : Nat)
    (hnext : ∀ b, Mirrors size (suffixes m b) rest (next b) after) :
    Mirrors size (suffixes (m + 1) a) (k.symbol :: rest)
      (Build.step k.op k.symbol a >>= fun r => next (.word r.1)) after := by
  cases k
  · exact .scan (Scan.suffix_increment.takes Scan.keepsSize_suffix)
      (.bind (.build _) fun _ => hnext _)
  · exact .scan (Scan.suffix_decrement.takes Scan.keepsSize_suffix)
      (.bind (.build _) fun _ => hnext _)

theorem step {t : Term size (.level 1)} (h : t.Parsed) (k : Count) :
    (Term.step k t : Term size (.level n)).Parsed := by
  refine of_postfixed (h.opens.append _) fun {rest _ bound _} _ hnext m hm => ?_
  rw [tokens, List.length_append, List.length_singleton] at hm
  obtain ⟨first, hb, hfirst⟩ := k.begins
  have huncalled : Uncalled (k.symbol :: rest) :=
    uncalled_of_begins hb (by rintro rfl; exact absurd hfirst (by decide)) rest
  simp only [tokens, List.append_assoc, denote, bind_assoc, pure_bind]
  refine h.postfixed (Nat.le_refl 1) (.inr huncalled) (fun a m (hm : bound + 1 ≤ m) => ?_) m
    (by omega)
  obtain ⟨m, rfl⟩ : ∃ j, m = j + 1 := ⟨m - 1, by omega⟩
  exact suffixes_step k a m fun b => hnext b m (by omega)

theorem subscript {base : Term size (.level 1)} {index : Term size (.level fullLevel)}
    (hb : base.Parsed) (hi : index.Parsed) :
    (Term.subscript base index : Term size (.level n)).Parsed := by
  refine of_postfixed ((hb.opens.append _).append _) fun {rest _ bound _} _ hnext m hm => ?_
  rw [tokens, length_bracketed] at hm
  simp only [tokens, bracketed_append, denote, bind_assoc, pure_bind]
  have huncalled : Uncalled ("[" :: (index.tokens ++ "]" :: rest)) :=
    uncalled_of_begins (begins_of_mark rfl rfl) (by decide) _
  refine hb.postfixed (Nat.le_refl 1) (.inr huncalled)
    (fun a m (hm : bound + 4 * index.tokens.length + 2 ≤ m) => ?_) m (by omega)
  obtain ⟨m, rfl⟩ : ∃ j, m = j + 1 := ⟨m - 1, by omega⟩
  have hindex := hi.loose ("]" :: rest) (Nat.le_refl _) (.close (by decide)) m (by omega)
  refine .scan (Scan.suffix_subscript.takes Scan.keepsSize_suffix) (.bind (.build _) fun _ => ?_)
  exact bind_value hindex fun _ => .expect rfl rfl (.bind (.build _) fun _ => hnext _ m (by omega))

/-- Arguments are read up to the end of their list. -/
theorem arguments_read {arguments : Term size .arguments} (h : arguments.Readable)
    (rest : List String) (place : String) (k : Nat) (hk : 4 * arguments.tokens.length < k) :
    Mirrors size (anyItems ')' place (expressionAt k fullLevel) k)
      (arguments.tokens ++ ")" :: rest) arguments.denote rest := by
  rcases h with rfl | h
  · exact .scan ((Scan.accept_token rfl rfl).takes (Scan.keepsSize_accept _)) (.pure _)
  · have hitems := h.items rest place k k hk (by omega)
    obtain ⟨token, tail, first, ht, hb, hne⟩ := h.opens
    rw [ht] at hitems ⊢
    exact .scan ((Scan.accept_other hb hne).takes (Scan.keepsSize_accept _)) hitems

/-- A call of whatever was read in front of the arguments. -/
theorem suffixes_call {arguments : Term size .arguments} (h : arguments.Readable)
    {rest after : List String} {next : Denotation → Build Denotation} {bound : Nat}
    (hnext : ∀ b m, bound ≤ m → Mirrors size (suffixes m b) rest (next b) after) (a : Denotation)
    (m : Nat) (hm : bound + 4 * arguments.tokens.length + 2 ≤ m) :
    Mirrors size (suffixes m a) ("(" :: (arguments.tokens ++ ")" :: rest))
      (Build.callee a >>= fun callee => arguments.denote >>= fun values =>
        Build.call callee values >>= fun v => next (.word v)) after := by
  obtain ⟨m, rfl⟩ : ∃ j, m = j + 1 := ⟨m - 1, by omega⟩
  refine .scan (Scan.suffix_call.takes Scan.keepsSize_suffix) (.bind (.build _) fun _ => ?_)
  refine .bind (arguments_read h rest _ m (by omega)) fun _ => ?_
  exact .bind (.build _) fun _ => hnext _ m (by omega)

theorem callThrough {callee : Term size (.level 0)} {arguments : Term size .arguments}
    (hc : callee.Parsed) (ha : arguments.Readable) :
    (Term.callThrough callee arguments : Term size (.level n)).Parsed := by
  refine of_postfixed ((hc.opens.append _).append _) fun {rest _ bound _} _ hnext m hm => ?_
  rw [tokens, length_bracketed] at hm
  simp only [tokens, bracketed_append, denote, bind_assoc, pure_bind]
  exact hc.postfixed (Nat.zero_le 1) (.inl rfl) (fun a m => suffixes_call ha hnext a m) m
    (by omega)

theorem call {arguments : Term size .arguments} (ha : arguments.Readable) (f : Name) :
    (Term.call f arguments : Term size (.level n)).Parsed := by
  obtain ⟨first, hb, hstart⟩ := f.begins
  refine of_postfixed (opens_of_begins hb hstart rfl)
    fun {rest _ bound next} _ hnext m hm => ?_
  have hlength : (Term.call f arguments : Term size (.level n)).tokens.length =
      arguments.tokens.length + 3 := by simp
  rw [hlength] at hm
  obtain ⟨m, rfl⟩ : ∃ j, m = j + 2 := ⟨m - 2, by omega⟩
  have hsign : first ∉ ['!', '*', '&', '+', '-'] := not_mem_signs hstart rfl
  simp only [tokens, List.cons_append, List.append_assoc, List.nil_append, denote, bind_assoc,
    pure_bind]
  -- The parenthesis behind the name is seen first: the name is resolved as a callee.
  refine .scan ((Scan.sign_none hb hsign).takes Scan.keepsSize_sign) ?_
  have hprimary : Mirrors size (primary (m + 1))
      (f.text :: "(" :: (arguments.tokens ++ ")" :: rest)) (Build.resolveCallee f.text)
      ("(" :: (arguments.tokens ++ ")" :: rest)) :=
    .scan ((Scan.atom_callee f).takes Scan.keepsSize_atom) (.build _)
  exact .bind hprimary fun a => suffixes_call ha hnext a (m + 1) (by omega)

theorem binary {op : Op} {l : Term size (.level op.level)} {r : Term size (.level (op.level - 1))}
    (hl : l.Parsed) (hr : r.Parsed) (hn : op.level ≤ n) :
    (Term.binary op hn l r : Term size (.level n)).Parsed := by
  obtain ⟨h2, h13⟩ := op.level_bounds
  refine of_tight (hl.opens.append _) (Nat.lt_of_lt_of_le h2 hn)
    fun {admitted bound rest _ _} hle hs hclimb k hk => ?_
  rw [tokens, List.length_append, List.length_cons] at hk
  simp only [tokens, List.append_assoc, List.cons_append, denote, bind_assoc, pure_bind]
  -- Climbing finds the operator behind the left operand, and goes on after the right one.
  refine hl.tight h13 (Nat.le_trans hn hle) (.operator (Nat.sub_one_lt (by omega)))
    (fun a m (hm : bound + 4 * r.tokens.length + 2 ≤ m) => ?_) k (by omega)
  obtain ⟨m, rfl⟩ : ∃ j, m = j + 1 := ⟨m - 1, by omega⟩
  refine .scan ((Scan.connective_operator (Nat.le_trans hn hle)).takes
    (Scan.keepsSize_connective _)) (.bind (.build _) fun _ => ?_)
  have hright := hr.loose rest (Nat.le_refl _) (hs.mono (by omega)) m (by omega)
  exact bind_value hright fun _ => .bind (.build _) fun _ => hclimb _ m (by omega)

theorem conditional {c t : Term size (.level (conditionalLevel - 1))}
    {e : Term size (.level conditionalLevel)} (hc : c.Parsed) (ht : t.Parsed) (he : e.Parsed)
    (hn : conditionalLevel ≤ n) : (Term.conditional hn c t e : Term size (.level n)).Parsed := by
  refine of_loose ((hc.opens.append _).append _) hn fun {admitted} rest hle hs k hk => ?_
  have hlength : (Term.conditional hn c t e).tokens.length =
      c.tokens.length + t.tokens.length + e.tokens.length + 2 := by
    simp only [tokens, List.length_append, List.length_cons]
    omega
  rw [hlength] at hk
  have hadmitted : conditionalLevel ≤ admitted := Nat.le_trans hn hle
  simp only [tokens, List.append_assoc, List.cons_append, value, denote, bind_assoc, pure_bind]
  refine hc.tight (by decide) (Nat.le_trans (by decide) hadmitted) (.conditional (by decide))
    (fun a m (hm : 4 * t.tokens.length + 4 * e.tokens.length + 2 ≤ m) => ?_) k (by omega)
  obtain ⟨m, rfl⟩ : ∃ j, m = j + 1 := ⟨m - 1, by omega⟩
  refine .scan ((Scan.connective_conditional hadmitted).takes (Scan.keepsSize_connective _)) ?_
  have hthen := ht.loose (":" :: (e.tokens ++ rest)) (Nat.le_refl _) (.close (by decide)) m
    (by omega)
  have helse := he.loose rest (Nat.le_refl _) (hs.mono hadmitted) m (by omega)
  rw [← bind_assoc]
  refine .bind (.build _) fun group => bind_value hthen fun thenValue => ?_
  refine .bind (.build _) fun thenExit => .expect rfl rfl (.bind (.build _) fun _ => ?_)
  refine bind_value helse fun elseValue => ?_
  have hjoin : (Build.join group.last thenValue thenExit elseValue >>= fun v =>
      Build.rvalue (.word v)) = Build.join group.last thenValue thenExit elseValue := bind_pure _
  rw [hjoin]
  exact .build _

theorem assign {op : Option Op} {l : Term size (.level (leftLevel op))}
    {r : Term size (.level assignmentLevel)} (hl : l.Parsed) (hr : r.Parsed)
    (hn : assignmentLevel ≤ n) : (Term.assign op hn l r : Term size (.level n)).Parsed := by
  refine of_loose (hl.opens.append _) (Nat.le_trans (by decide) hn)
    fun {admitted} rest hle hs k hk => ?_
  rw [tokens, List.length_append, List.length_cons] at hk
  have hadmitted : assignmentLevel ≤ admitted := Nat.le_trans hn hle
  obtain ⟨hpos, hlevel⟩ := leftLevel_bounds op
  simp only [tokens, List.append_assoc, List.cons_append, value, denote, bind_assoc]
  -- Climbing finds the equals sign behind the left side, which may itself have connectives.
  refine hl.tight hlevel (Nat.le_trans (Nat.le_of_lt hlevel) (Nat.le_trans (by decide) hadmitted))
    (.assignment (Nat.sub_one_lt (by omega)))
    (fun a m (hm : 4 * r.tokens.length + 2 ≤ m) => ?_) k (by omega)
  obtain ⟨m, rfl⟩ : ∃ j, m = j + 1 := ⟨m - 1, by omega⟩
  refine .scan ((Scan.connective_assign hadmitted op).takes (Scan.keepsSize_connective _)) ?_
  have hright := hr.loose rest (Nat.le_refl _) (hs.mono hadmitted) m (by omega)
  cases a with
  | address address =>
      simp only [bind_assoc, pure_bind]
      refine bind_value hright fun v => ?_
      have hassign : (Build.assign op address v >>= fun w => Build.rvalue (.word w)) =
          Build.assign op address v := bind_pure _
      rw [hassign]
      exact .build _
  | word v => exact .throw _
  | function f => exact .throw _

end Parsed

namespace Listed

variable {t next : Term size (.level fullLevel)} {rest : Term size .arguments}

theorem one (h : t.Parsed) : (Term.cons t .none).Listed := by
  refine ⟨h.opens, fun rest place k m hk hm => ?_⟩
  have hpos := t.length_tokens_pos
  change 4 * t.tokens.length < k at hk
  change t.tokens.length ≤ m at hm
  obtain ⟨m, rfl⟩ : ∃ j, m = j + 1 := ⟨m - 1, by omega⟩
  have hread := h.loose (")" :: rest) (Nat.le_refl _) (.close (by decide)) k hk
  refine bind_value hread fun v => ?_
  exact .scan ((Scan.another_close rfl rfl (by decide) place).takes (Scan.keepsSize_another _ _))
    (.pure _)

theorem tokens_more : (Term.cons t (.cons next rest)).tokens =
    t.tokens ++ "," :: (Term.cons next rest).tokens := rfl

theorem more (hr : (Term.cons next rest).Listed) (h : t.Parsed) :
    (Term.cons t (.cons next rest)).Listed := by
  refine ⟨h.opens.append _, fun after place k m hk hm => ?_⟩
  have hpos := t.length_tokens_pos
  rw [tokens_more, List.length_append, List.length_cons] at hk hm
  obtain ⟨m, rfl⟩ : ∃ j, m = j + 1 := ⟨m - 1, by omega⟩
  rw [tokens_more, List.append_assoc, denote]
  have hread := h.loose ("," :: ((Term.cons next rest).tokens ++ ")" :: after)) (Nat.le_refl _)
    (.close (by decide)) k (by omega)
  refine bind_value hread fun v => ?_
  refine .scan ((Scan.another_comma ')' place).takes (Scan.keepsSize_another _ _)) ?_
  exact .bind (hr.items after place k m (by omega) (by omega)) fun _ => .pure _

end Listed

/-- Every term is read as what it denotes. -/
theorem readable {r : Rank} (t : Term size r) : t.Readable := by
  induction t with
  | literal l => exact Parsed.literal l
  | string letters => exact Parsed.string letters
  | name h x => exact Parsed.name h x
  | group t ih => exact Parsed.group ih
  | sign h s t ih => exact Parsed.sign ih h s
  | step k t ih => exact Parsed.step ih k
  | subscript base index ihb ihi => exact Parsed.subscript ihb ihi
  | call f arguments ih => exact Parsed.call ih f
  | callThrough callee arguments ihc iha => exact Parsed.callThrough ihc iha
  | binary op h l r ihl ihr => exact Parsed.binary ihl ihr h
  | conditional h c t e ihc iht ihe => exact Parsed.conditional ihc iht ihe h
  | assign op h l r ihl ihr => exact Parsed.assign ihl ihr h
  | none => exact .inl rfl
  | cons t rest iht ihr =>
      cases rest with
      | none => exact .inr (.one iht)
      | cons next rest => exact .inr ((ihr.resolve_left nofun).more iht)

theorem parsed (t : Term size (.level n)) : t.Parsed := t.readable

/-- The text of a term and of what stands behind it. -/
theorem faces {c : Cursor} (t : Term size (.level n)) {rest : List String}
    (htext : c.unread = (" ".intercalate (t.tokens ++ rest)).toList) :
    c.Faces c.wordSize (t.tokens ++ rest) := by
  obtain ⟨token, tail, _, htokens, _⟩ := t.parsed.opens
  rw [htokens] at htext ⊢
  exact ⟨.inr (htext ▸ spaced_intercalate token (tail ++ rest)), rfl⟩

end Term

/-- The text of a term is read as what the term denotes. -/
theorem Pass.expression_mirrors {size : Nat} (t : Term size (.level fullLevel))
    {rest : List String} (hrest : Stops fullLevel rest) :
    Mirrors size expression (t.tokens ++ rest) t.value rest := by
  refine .bounded fun n hn => ?_
  rw [List.length_append] at hn
  exact t.parsed.loose rest (Nat.le_refl _) hrest n (by omega)

end BCompiler
