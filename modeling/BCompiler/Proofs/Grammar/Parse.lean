import BCompiler.Proofs.Draft.Name
import BCompiler.Proofs.Phrase.Parse

/-!
Reading a spelling of a tree.

A spelling of a tree is the text of a term, with the parentheses that the tree does not keep, and
the term stands for what the tree stands for. So a spelling is read as that term is, and builds the
code of the tree.
-/
namespace BCompiler

theorem Build.resolve_ne_function {x : String} {a : Denotation} {d d' : Draft}
    (h : resolve x d = .ok a d') (name : String) : a ≠ .function name := by
  rintro rfl
  rcases resolve_cases x d with ⟨_, _, he⟩ | ⟨_, he⟩ | ⟨_, he⟩ | he
  · cases he.symm.trans h
  · obtain ⟨_, _, _, hp⟩ := bind_eq_ok_iff.mp (he.symm.trans h)
    cases (pure_eq_ok_iff.mp hp).1
  · cases he.symm.trans h
  · cases he.symm.trans h

/-- A word that is in hand is not loaded. -/
theorem Build.bind_rvalue_of_word {x : Build Denotation} {code : Build Operand}
    (h : x = do return .word (← code)) : x >>= rvalue = code := by
  rw [h, bind_assoc]
  exact bind_pure code

theorem Spells.exists_digits {text : String} {w : Word} (h : Spells text.toList w) :
    ∃ n : Digits, n.text = text ∧ n.word = w := by
  have hnumber : isNumber text := by
    simp only [isNumber, Bool.and_eq_true, Bool.not_eq_true', List.isEmpty_eq_false_iff,
      List.all_eq_true, Bool.or_eq_true, bne_iff_ne]
    refine ⟨⟨h.ne_nil, h.digits⟩, ?_⟩
    by_cases h0 : text.toList.head? = some '0'
    · exact .inr (h.octal h0)
    · exact .inl h0
  exact ⟨⟨text, hnumber⟩, rfl, h.value⟩

namespace Term

variable {size m n : Nat}

/-- A term may stand where a looser level is admitted. -/
theorem exists_loosened (t : Term size (.level m)) (h : m ≤ n) :
    ∃ t' : Term size (.level n), t'.tokens = t.tokens ∧ t'.denote = t.denote := by
  cases t with
  | literal l => exact ⟨.literal l, rfl, rfl⟩
  | string letters => exact ⟨.string letters, rfl, rfl⟩
  | name h' x => exact ⟨.name (Nat.le_trans h' h) x, rfl, rfl⟩
  | group t => exact ⟨.group t, rfl, rfl⟩
  | sign h' s t => exact ⟨.sign (Nat.le_trans h' h) s t, rfl, rfl⟩
  | step k t => exact ⟨.step k t, rfl, rfl⟩
  | subscript base index => exact ⟨.subscript base index, rfl, rfl⟩
  | call f arguments => exact ⟨.call f arguments, rfl, rfl⟩
  | callThrough callee arguments => exact ⟨.callThrough callee arguments, rfl, rfl⟩
  | binary op h' l r => exact ⟨.binary op (Nat.le_trans h' h) l r, rfl, rfl⟩
  | conditional h' c t e => exact ⟨.conditional (Nat.le_trans h' h) c t e, rfl, rfl⟩
  | assign op h' l r => exact ⟨.assign op (Nat.le_trans h' h) l r, rfl, rfl⟩

/-- An operand with its suffixes may be called through if it is not just a name. -/
theorem exists_callee (t : Term size (.level 1)) (h : ∀ x : Name, t.tokens ≠ [x.text]) :
    ∃ t' : Term size (.level 0), t'.tokens = t.tokens ∧ t'.denote = t.denote := by
  cases t with
  | literal l => exact ⟨.literal l, rfl, rfl⟩
  | string letters => exact ⟨.string letters, rfl, rfl⟩
  | name _ x => exact absurd rfl (h x)
  | group t => exact ⟨.group t, rfl, rfl⟩
  | sign h' => exact absurd h' (by decide)
  | step k t => exact ⟨.step k t, rfl, rfl⟩
  | subscript base index => exact ⟨.subscript base index, rfl, rfl⟩
  | call f arguments => exact ⟨.call f arguments, rfl, rfl⟩
  | callThrough callee arguments => exact ⟨.callThrough callee arguments, rfl, rfl⟩
  | binary op h' =>
      have := op.level_bounds.1
      omega
  | conditional h' => exact absurd h' (by decide)
  | assign _ h' => exact absurd h' (by decide)

/-- Only a name at its beginning keeps a term from beginning a statement. -/
theorem isPlain_of_head {r : Rank} (t : Term size r)
    (h : ∀ x : Name, t.tokens.head? = some x.text → x.isPlain) : t.isPlain := by
  have hhead : ∀ {n : Nat} (t : Term size (.level n)) (rest : List String),
      (t.tokens ++ rest).head? = t.tokens.head? := by
    intro n t rest
    obtain ⟨token, tail, ht⟩ := List.exists_cons_of_length_pos t.length_tokens_pos
    rw [ht]
    rfl
  induction t with
  | literal | string | group | sign | none | cons => rfl
  | name _ x => exact h x rfl
  | call f => exact h f rfl
  | step k t ih => exact ih fun x hx => h x ((hhead t _).trans hx)
  | subscript base index ih _ =>
      exact ih fun x hx => h x (by rwa [tokens, List.append_assoc, hhead])
  | callThrough callee arguments ih _ =>
      exact ih fun x hx => h x (by rwa [tokens, List.append_assoc, hhead])
  | binary op _ l r ih _ => exact ih fun x hx => h x ((hhead l _).trans hx)
  | conditional _ c t e ih _ _ =>
      exact ih fun x hx => h x (by rwa [tokens, List.append_assoc, hhead])
  | assign op _ l r ih _ => exact ih fun x hx => h x ((hhead l _).trans hx)

/-- The term stands for the word that the code computes, and the word may be called through. -/
structure Computes (t : Term size (.level n)) (code : Build Operand) : Prop where
  value : t.value = code
  callee : t.denote >>= Build.callee = do return .indirect (← Build.toPointer (← code))

namespace Computes

variable {t : Term size (.level n)} {code : Build Operand}

theorem of_word (h : t.denote = do return .word (← code)) : t.Computes code := by
  refine ⟨Build.bind_rvalue_of_word h, ?_⟩
  rw [h, bind_assoc]
  rfl

/-- A place stands for its word, which is loaded when the next token needs it. -/
theorem of_place (h : ∀ d a d', t.denote d = .ok a d' → ∀ name, a ≠ .function name) :
    t.Computes t.value := by
  refine ⟨rfl, funext fun d => ?_⟩
  rw [Term.value, bind_assoc]
  cases ha : t.denote d with
  | error e d' => rw [bind_of_error ha, bind_of_error ha]
  | ok a d' =>
      rw [bind_of_ok ha, bind_of_ok ha]
      cases a with
      | word | address => rfl
      | function name => exact absurd rfl (h d _ d' ha name)

theorem bind_rvalue {β : Type} (h : t.Computes code) (f : Operand → Build β) :
    (t.denote >>= fun a => Build.rvalue a >>= f) = code >>= f := by
  rw [← h.value, Term.value, bind_assoc]

end Computes
end Term

namespace Tree

variable {size level : Nat} {tokens inner : List String}

/-- A place is never a function to be called by its name. -/
theorem code_ne_function {signed : Bool} {p : Tree size (.place signed)} {d d' : Draft}
    {a : Denotation} (h : p.code d = .ok a d') (name : String) : a ≠ .function name := by
  rintro rfl
  cases p with
  | name x => exact Build.resolve_ne_function h name rfl
  | subscript base index =>
      obtain ⟨_, _, _, h⟩ := bind_eq_ok_iff.mp h
      obtain ⟨_, _, _, h⟩ := bind_eq_ok_iff.mp h
      obtain ⟨_, _, _, h⟩ := bind_eq_ok_iff.mp h
      obtain ⟨_, _, _, h⟩ := bind_eq_ok_iff.mp h
      cases (pure_eq_ok_iff.mp h).1
  | dereference e =>
      obtain ⟨_, _, _, h⟩ := bind_eq_ok_iff.mp h
      obtain ⟨_, _, _, h⟩ := bind_eq_ok_iff.mp h
      cases (pure_eq_ok_iff.mp h).1
  | stepBefore k p =>
      obtain ⟨_, _, _, h⟩ := bind_eq_ok_iff.mp h
      obtain ⟨_, _, _, h⟩ := bind_eq_ok_iff.mp h
      cases (pure_eq_ok_iff.mp h).1

/-- The tokens are those of a term that stands for what the tree stands for. -/
def Written : {k : Kind} → Nat → Tree size k → List String → Prop
  | .word, level, e, tokens => ∃ t : Term size (.level level), t.tokens = tokens ∧ t.Computes e.code
  | .place _, level, p, tokens =>
    ∃ t : Term size (.level level), t.tokens = tokens ∧ t.denote = p.code
  | .list, _, arguments, tokens => ∃ t : Term size .arguments, t.tokens = tokens ∧
      t.denote = arguments.code ∧ (t = .none → arguments = .none)

theorem written_constant {n : Numeral} {text : String} (h : Spells text.toList n.word) :
    Written level (constant n : Tree size .word) [text] := by
  obtain ⟨digits, rfl, hword⟩ := h.exists_digits
  refine ⟨.literal (.number digits), rfl, .of_word ?_⟩
  rw [Term.denote, Literal.word, hword]
  rfl

section Words

variable {e : Tree size .word}

theorem Written.group (h : Written fullLevel e tokens) :
    Written level e ("(" :: tokens ++ [")"]) := by
  obtain ⟨t, rfl, ht⟩ := h
  exact ⟨.group t, rfl, .of_word (ht.bind_rvalue _)⟩

theorem Written.negate (h : Written 2 e tokens) (hlevel : 2 ≤ level) :
    Written level e.negate ("-" :: tokens) := by
  obtain ⟨t, rfl, ht⟩ := h
  refine ⟨.sign hlevel .negate t, rfl, .of_word ?_⟩
  rw [code, bind_assoc]
  exact ht.bind_rvalue _

theorem Written.not (h : Written 2 e tokens) (hlevel : 2 ≤ level) :
    Written level e.not ("!" :: tokens) := by
  obtain ⟨t, rfl, ht⟩ := h
  refine ⟨.sign hlevel .not t, rfl, .of_word ?_⟩
  rw [code, bind_assoc]
  exact ht.bind_rvalue _

theorem Written.dereference (h : Written 2 e tokens) (hlevel : 2 ≤ level) :
    Written level e.dereference ("*" :: tokens) := by
  obtain ⟨t, rfl, ht⟩ := h
  exact ⟨.sign hlevel .dereference t, rfl, ht.bind_rvalue _⟩

theorem Written.subscript {index : Tree size .word} (h : Written 1 e tokens)
    (hi : Written fullLevel index inner) :
    Written level (e.subscript index) (tokens ++ "[" :: inner ++ ["]"]) := by
  obtain ⟨b, rfl, hb⟩ := h
  obtain ⟨i, rfl, hi⟩ := hi
  refine ⟨.subscript b i, rfl, ?_⟩
  simp only [Term.denote, code, Build.base, bind_assoc, hb.bind_rvalue, hi.bind_rvalue]

theorem Written.callThrough {arguments : Tree size .list} (h : Written 1 e tokens)
    (hne : ∀ x : Name, tokens ≠ [x.text]) (ha : Written fullLevel arguments inner) :
    Written level (e.callThrough arguments) (tokens ++ "(" :: inner ++ [")"]) := by
  obtain ⟨t, rfl, ht⟩ := h
  obtain ⟨callee, htokens, hdenote⟩ := t.exists_callee hne
  obtain ⟨a, rfl, ha, _⟩ := ha
  refine ⟨.callThrough callee a, by rw [Term.tokens, htokens], .of_word ?_⟩
  have hcallee := ht.callee
  rw [← hdenote] at hcallee
  rw [Term.denote, ← bind_assoc, hcallee, ha]
  simp only [code, bind_assoc, pure_bind]

theorem Written.binary {r : Tree size .word} {op : Op} (h : Written op.level e tokens)
    (hr : Written (op.level - 1) r inner) (hlevel : op.level ≤ level) :
    Written level (.binary op e r) (tokens ++ op.symbol :: inner) := by
  obtain ⟨lhs, rfl, hl⟩ := h
  obtain ⟨rhs, rfl, hr⟩ := hr
  refine ⟨.binary op hlevel lhs rhs, rfl, .of_word ?_⟩
  simp only [Term.denote, code, bind_assoc, hl.bind_rvalue, hr.bind_rvalue]

theorem Written.conditional {c t : Tree size .word} {condition thenArm : List String}
    (hc : Written (conditionalLevel - 1) c condition)
    (ht : Written (conditionalLevel - 1) t thenArm) (he : Written conditionalLevel e tokens)
    (hlevel : conditionalLevel ≤ level) :
    Written level (.conditional c t e) (condition ++ "?" :: thenArm ++ ":" :: tokens) := by
  obtain ⟨c', rfl, hc⟩ := hc
  obtain ⟨t', rfl, ht⟩ := ht
  obtain ⟨e', rfl, he⟩ := he
  refine ⟨.conditional hlevel c' t' e', rfl, .of_word ?_⟩
  simp only [Term.denote, code, bind_assoc, hc.bind_rvalue, ht.bind_rvalue, he.bind_rvalue]

end Words

section Places

variable {signed : Bool} {p : Tree size (.place signed)}

theorem Written.read (h : Written level p tokens) : Written level p.read tokens := by
  obtain ⟨t, rfl, ht⟩ := h
  have hvalue : p.read.code = t.value := by rw [code, Term.value, ht]
  refine ⟨t, rfl, ?_⟩
  rw [hvalue]
  exact .of_place fun d a d' ha => code_ne_function (ht ▸ ha)

theorem Written.addressOf (h : Written 2 p tokens) (hlevel : 2 ≤ level) :
    Written level p.addressOf ("&" :: tokens) := by
  obtain ⟨t, rfl, ht⟩ := h
  refine ⟨.sign hlevel .addressOf t, rfl, .of_word ?_⟩
  rw [Term.denote, ht, code, bind_assoc]
  refine congrArg (p.code >>= ·) (funext fun a => ?_)
  cases a <;> rfl

theorem apply_count (k : Count) (a : Denotation) :
    k.sign.apply a = (do return .address (← Build.step k.op k.symbol a).2) := by
  cases k <;> rfl

theorem Written.stepBefore (h : Written 2 p tokens) (k : Count) (hlevel : 2 ≤ level) :
    Written level (.stepBefore k p) (k.symbol :: tokens) := by
  obtain ⟨t, rfl, ht⟩ := h
  have hsymbol : k.sign.symbol = k.symbol := by cases k <;> rfl
  refine ⟨.sign hlevel k.sign t, by rw [Term.tokens, hsymbol], ?_⟩
  rw [Term.denote, ht]
  exact congrArg (p.code >>= ·) (funext fun a => apply_count k a)

theorem Written.stepAfter {p : Tree size (.place false)} (h : Written 1 p tokens) (k : Count) :
    Written level (.stepAfter k p) (tokens ++ [k.symbol]) := by
  obtain ⟨t, rfl, ht⟩ := h
  refine ⟨.step k t, rfl, .of_word ?_⟩
  simp only [Term.denote, ht, code, bind_assoc, pure_bind]

theorem Written.assign {e : Tree size .word} (h : Written 2 p tokens)
    (he : Written assignmentLevel e inner) (op : Option Op) (hlevel : assignmentLevel ≤ level) :
    Written level (.assign op p e) (tokens ++ equals op :: inner) := by
  obtain ⟨t, rfl, ht⟩ := h
  obtain ⟨right, rfl, he⟩ := he
  have hleft : 2 ≤ leftLevel op := by
    unfold leftLevel
    split <;> decide
  obtain ⟨left, htokens, hdenote⟩ := t.exists_loosened hleft
  refine ⟨.assign op hlevel left right, by rw [Term.tokens, htokens], .of_word ?_⟩
  rw [Term.denote, hdenote, ht, code, bind_assoc]
  refine congrArg (p.code >>= ·) (funext fun a => ?_)
  cases a with
  | address address =>
      simp only [he.bind_rvalue, Build.lvalue, pure_bind, bind_assoc]
  | word | function => rfl

end Places

theorem Written.cons {e next : Tree size .word} {rest : Tree size .list}
    (h : Written fullLevel e tokens) (hr : Written level (cons next rest) inner) :
    Written level (cons e (cons next rest)) (tokens ++ "," :: inner) := by
  obtain ⟨t, rfl, ht⟩ := h
  obtain ⟨others, rfl, hothers, hnone⟩ := hr
  cases others with
  | none => cases hnone rfl
  | cons u us =>
      refine ⟨.cons t (.cons u us), rfl, ?_, nofun⟩
      rw [Term.denote, ht.bind_rvalue, hothers]
      rfl

end Tree

/-- Every spelling is that of a term. -/
theorem Spelled.written {size level : Nat} {k : Kind} {e : Tree size k} {tokens : List String}
    (h : Spelled level e tokens) (hlevel : 1 ≤ level) : e.Written level tokens := by
  induction h with
  | constant n => exact Tree.written_constant n.spells_decimal
  | octal n => exact Tree.written_constant n.spells_octal
  | character l => exact ⟨.literal (.character l), rfl, .of_word rfl⟩
  | string letters => exact ⟨.string letters, rfl, .of_word rfl⟩
  | group _ ih => exact Tree.Written.group (ih (by decide))
  | read _ ih => exact Tree.Written.read (ih hlevel)
  | addressOf h2 _ ih => exact Tree.Written.addressOf (ih (by decide)) h2
  | negate h2 _ ih => exact Tree.Written.negate (ih (by decide)) h2
  | not h2 _ ih => exact Tree.Written.not (ih (by decide)) h2
  | stepAfter k _ ih => exact Tree.Written.stepAfter (ih (by decide)) k
  | call f _ ih =>
      obtain ⟨t, rfl, ht, _⟩ := ih (by decide)
      refine ⟨.call f t, rfl, .of_word ?_⟩
      simp only [Term.denote, Tree.code, ht, bind_assoc]
  | callThrough _ hne _ ihc iha =>
      exact Tree.Written.callThrough (ihc (by decide)) hne (iha (by decide))
  | binary op hop _ _ ihl ihr =>
      have := op.level_bounds.1
      exact Tree.Written.binary (ihl (by omega)) (ihr (by omega)) hop
  | conditional hc _ _ _ ihc iht ihe =>
      exact Tree.Written.conditional (ihc (by decide)) (iht (by decide)) (ihe (by decide)) hc
  | assign op ha _ _ ihp ihe => exact Tree.Written.assign (ihp (by decide)) (ihe (by decide)) op ha
  | name x => exact ⟨.name hlevel x, rfl, rfl⟩
  | subscript _ _ ihb ihi => exact Tree.Written.subscript (ihb (by decide)) (ihi (by decide))
  | dereference h2 _ ih => exact Tree.Written.dereference (ih (by decide)) h2
  | stepBefore k h2 _ ih => exact Tree.Written.stepBefore (ih (by decide)) k h2
  | none => exact ⟨.none, rfl, rfl, fun _ => rfl⟩
  | one _ ih =>
      obtain ⟨t, rfl, ht⟩ := ih (by decide)
      exact ⟨.cons t .none, rfl, ht.bind_rvalue _, nofun⟩
  | more _ _ ihe ihr => exact Tree.Written.cons (ihe (by decide)) (ihr hlevel)

theorem Spelled.exists_term {size : Nat} {e : Tree size .word} {tokens : List String}
    (h : Spelled fullLevel e tokens) :
    ∃ t : Term size (.level fullLevel), t.tokens = tokens ∧ t.value = e.code := by
  obtain ⟨t, ht, hcomputes⟩ := h.written (by decide)
  exact ⟨t, ht, hcomputes.value⟩

end BCompiler
