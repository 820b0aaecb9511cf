import BCompiler.Proofs.Definition
import BCompiler.Proofs.Line
import BCompiler.Proofs.Source.Seam

/-!
The word in front of a statement.

A statement that begins with a word may be a labelled one. So the word is read, with the blanks and
comments behind it, and pushed back if no colon follows. It then stands directly in front of what
comes next. That changes nothing unless what comes next could go on with the word: then the two are
read as one name.
-/
namespace BCompiler

namespace Cursor

theorem pushBackAll_eq {word : List Char} (h : '\n' ∉ word) (c : Cursor) :
    c.pushBackAll word = { c with unread := word ++ c.unread } := by
  induction word with
  | nil => rfl
  | cons ch word ih =>
      obtain ⟨hne, hword⟩ : '\n' ≠ ch ∧ '\n' ∉ word := by simpa using h
      change (c.pushBackAll word).pushBack ch = _
      rw [ih hword, pushBack, if_neg (Ne.symm hne)]
      rfl

theorem skip_pushBackAll {word : List Char} (h : '\n' ∉ word) (c : Cursor) :
    (c.pushBackAll word).skip word.length = c := by
  rw [pushBackAll_eq h, skip]
  simp only [List.drop_left, List.take_left, foldl_lineAfter, List.count_eq_zero.mpr h]
  rfl

end Cursor

theorem Name.newline_notMem (x : Name) : '\n' ∉ x.text.toList :=
  fun h => absurd (isNameChar_of_isName x.isName h) (by decide)

/-- A name directly in front of a text goes on as far as the text does. -/
theorem leadingName_joined (x : Name) (text : List Char) :
    leadingName (x.text.toList ++ text) = x.text.toList ++ text.takeWhile isNameChar := by
  have hname := x.isName
  unfold isName at hname
  cases hl : x.text.toList with
  | nil =>
      rw [hl] at hname
      cases hname
  | cons first rest =>
      rw [hl, Bool.and_eq_true, List.all_eq_true] at hname
      rw [List.cons_append, leadingName, if_pos hname.1, List.takeWhile_append_of_pos hname.2]
      rfl

namespace Scan

variable {x : Name} {c c₁ : Cursor}

theorem head?_of_leadingName (h : leadingName c.unread = x.text.toList) :
    ∃ first, c.unread.head? = some first ∧ isNameStart first := by
  obtain ⟨rest, hu, _⟩ := leadingName_eq_iff.mp h
  obtain ⟨first, ⟨letters, he, _⟩, hstart⟩ := x.begins
  exact ⟨first, by rw [hu, he]; rfl, hstart⟩

theorem name_leadingName (h : leadingName c.unread = x.text.toList) :
    name c = .ok x.text (c.skip x.text.toList.length) := by
  obtain ⟨first, hf, hstart⟩ := head?_of_leadingName h
  have hname := (name_of_isNameStart (c := c) (by rw [hf]; exact hstart)).1
  rwa [h, String.ofList_toList] at hname

theorem sign_leadingName (hb : blanks c = .ok () c₁)
    (h : leadingName c₁.unread = x.text.toList) : sign c = .ok none c₁ := by
  obtain ⟨first, hf, hstart⟩ := head?_of_leadingName h
  refine sign_solid hb hf fun hm => ?_
  simp only [List.mem_cons, List.not_mem_nil, or_false] at hm
  rcases hm with rfl | rfl | rfl | rfl | rfl <;> cases hstart

/-- After a name, as far as an operand is concerned, comes an argument list or something else. -/
theorem atom_leadingName (h : leadingName c.unread = x.text.toList) :
    atom c = (do return .name x.text ((← peekMark) == some '(') : Scan Atom)
      (c.skip x.text.toList.length) := by
  obtain ⟨first, hf, hstart⟩ := head?_of_leadingName h
  have hd := isDigit_eq_false_of_isNameStart hstart
  have hquote : first ≠ '\'' := ne_of_isNameStart hstart rfl
  have hpeek : peek c = .ok (some first) c := congrArg (EStateM.Result.ok · c) hf
  have hblanks : blanks c = .ok () c := blanks_of_isNameStart (by rw [hf]; exact hstart)
  have hconstant : constant? c = .ok none c := by
    refine bind_eq_ok_iff.mpr ⟨some first, c, bind_eq_ok_iff.mpr ⟨(), c, hblanks, hpeek⟩, ?_⟩
    simp only [hd]
    rfl
  refine (bind_of_ok hconstant).trans ((bind_of_ok hpeek).trans ?_)
  rw [if_pos (show (some first).any isNameStart from hstart)]
  exact bind_of_ok (name_leadingName h)

theorem statementHead_leadingName (hb : blanks c = .ok () c₁)
    (h : leadingName c₁.unread = x.text.toList)
    (hk : StatementHead.ofKeyword? x.text = none) :
    statementHead c = (do
      if ← accept ':' then return .label x.text
      else
        unreadAll x.text
        return .expression : Scan StatementHead) (c₁.skip x.text.toList.length) := by
  obtain ⟨first, hf, hstart⟩ := head?_of_leadingName h
  have hopen : first ≠ '{' := ne_of_isNameStart hstart rfl
  have hsemicolon : first ≠ ';' := ne_of_isNameStart hstart rfl
  have hpeek : peekMark c = .ok (some first) c₁ :=
    (bind_of_ok hb).trans (congrArg (EStateM.Result.ok · c₁) hf)
  refine (bind_of_ok hpeek).trans ?_
  simp only [hstart, if_true]
  refine (bind_of_ok (name_leadingName h)).trans ?_
  rw [hk]

/-- What has been peeked at once can be peeked at again. -/
theorem peekMark_peekMark {mark : Option Char} (h : peekMark c = .ok mark c₁) :
    peekMark c₁ = .ok mark c₁ := by
  obtain ⟨_, c₂, hb, hp⟩ := bind_eq_ok_iff.mp h
  cases hp
  exact bind_of_ok (solid_of_afterBlanks (afterBlanks_of_blanks hb).1).blanks

end Scan

namespace Pass

/-- A statement inside the innermost enclosing switch, if any. -/
def statementIn (enclosing : Option Switch) : Pass Draft (Option Switch) :=
  bounded fun depth => statementAt depth enclosing

/-- An expression that is known to stand as a statement. -/
def expressionStatement (enclosing : Option Switch) : Pass Draft (Option Switch) := do
  let _ ← expression
  scan (Scan.expect ';' "after expression statement")
  return enclosing

/-- An expression after its first operand, which is a name. -/
def afterName (depth level : Nat) (x : Name) : Pass Draft Operand := do
  let mark ← scan Scan.peekMark
  let operand ← build
    (if mark = some '(' then Build.resolveCallee x.text else Build.resolve x.text)
  climb (depth + 2) level (← suffixes (depth + 1) operand)

variable {x : Name} {c c₁ : Cursor}

theorem primary_leadingName (depth : Nat) (h : leadingName c.unread = x.text.toList) (d : Draft) :
    primary (depth + 1) ⟨c, d⟩ = (do
      let mark ← scan Scan.peekMark
      build (if mark = some '(' then Build.resolveCallee x.text else Build.resolve x.text) :
        Pass Draft Denotation) ⟨c.skip x.text.toList.length, d⟩ := by
  have hatom := Scan.atom_leadingName h
  cases hp : Scan.peekMark (c.skip x.text.toList.length) with
  | error e c₂ =>
      rw [bind_of_error hp] at hatom
      exact (bind_of_error (scan_of_error hatom)).trans (bind_of_error (scan_of_error hp)).symm
  | ok mark c₂ =>
      rw [bind_of_ok hp] at hatom
      refine (bind_of_ok (scan_of_ok hatom)).trans (.trans ?_ (bind_of_ok (scan_of_ok hp)).symm)
      by_cases hmark : mark = some '('
      · subst hmark
        rfl
      · rw [if_neg hmark, beq_false_of_ne hmark]

theorem expressionAt_leadingName (depth level : Nat) (hb : Scan.blanks c = .ok () c₁)
    (h : leadingName c₁.unread = x.text.toList) (d : Draft) :
    expressionAt (depth + 3) level ⟨c, d⟩ =
      afterName depth level x ⟨c₁.skip x.text.toList.length, d⟩ := by
  have hunary : unary (depth + 2) ⟨c, d⟩ =
      (primary (depth + 1) >>= suffixes (depth + 1)) ⟨c₁, d⟩ :=
    bind_of_ok (scan_of_ok (Scan.sign_leadingName hb h))
  calc
    _ = ((primary (depth + 1) >>= suffixes (depth + 1)) >>= climb (depth + 2) level) ⟨c₁, d⟩ :=
      bind_congr_state hunary
    _ = (primary (depth + 1) >>= fun a => suffixes (depth + 1) a >>= climb (depth + 2) level)
        ⟨c₁, d⟩ := by rw [bind_assoc]
    _ = _ := bind_congr_state (primary_leadingName depth h d)
    _ = afterName depth level x ⟨c₁.skip x.text.toList.length, d⟩ := by rw [bind_assoc]; rfl

/-- A greater bound than the text needs makes no difference to an expression. -/
theorem expressionAt_eq_of_le {s : Site Draft} {depth depth' : Nat} (level : Nat)
    (hd : 4 * (s.cursor.unread.length + 1) ≤ depth + 1) (hle : depth ≤ depth') :
    expressionAt depth level s = expressionAt depth' level s :=
  ((Refines.grammatical.expressive.expressions Refines.deep hle).1 level).eq_of_fits
    ((expressions_fit depth).1 _ level hd) (Nat.lt_succ_self _)

/-- Where no colon follows the word, an expression is read with the word directly in front of what
comes next. -/
theorem statementIn_pushedBack {mark : Option Char} {c₂ : Cursor} (hb : Scan.blanks c = .ok () c₁)
    (h : leadingName c₁.unread = x.text.toList) (hk : StatementHead.ofKeyword? x.text = none)
    (hp : Scan.peekMark (c₁.skip x.text.toList.length) = .ok mark c₂) (hcolon : mark ≠ some ':')
    (enclosing : Option Switch) (d : Draft) :
    statementIn enclosing ⟨c, d⟩ = (do
      let _ ← expressionAt c.depth fullLevel
      scan (Scan.expect ';' "after expression statement")
      return enclosing : Pass Draft (Option Switch)) ⟨c₂.pushBackAll x.text.toList, d⟩ := by
  have haccept : Scan.accept ':' (c₁.skip x.text.toList.length) = .ok false c₂ := by
    refine (bind_of_ok hp).trans ?_
    rw [if_neg hcolon]
    rfl
  have hhead : Scan.statementHead c = .ok .expression (c₂.pushBackAll x.text.toList) :=
    (Scan.statementHead_leadingName hb h hk).trans (bind_of_ok haccept)
  have hlength : (c₂.pushBackAll x.text.toList).unread.length ≤ c.unread.length := by
    have hspent := Scan.statementHead_spends c
    rw [hhead] at hspent
    exact hspent.1.length
  refine (bind_of_ok (scan_of_ok hhead)).trans (bind_congr_state (expressionAt_eq_of_le _ ?_ ?_))
  · dsimp only
    omega
  · exact Nat.le_succ _

theorem Travels.afterName (depth level : Nat) (x : Name) : Travels (afterName depth level x) := by
  have hgrammar := Travels.grammatical.expressive.expressions Travels.deep (Nat.le_refl (depth + 2))
  have hgrammar' :=
    Travels.grammatical.expressive.expressions Travels.deep (Nat.le_refl (depth + 1))
  exact .bind (.scan .peekMark) fun _ => .bind (.build _) fun _ =>
    .bind (hgrammar'.2.2.2.1 _) fun _ => hgrammar.2.1 level _

/-- The word is pushed back in front of something that ends it. -/
theorem statementIn_eq_expressionStatement (hb : Scan.blanks c = .ok () c₁)
    (h : leadingName c₁.unread = x.text.toList) (hk : StatementHead.ofKeyword? x.text = none)
    (hcolon : ∀ c₂, Scan.peekMark (c₁.skip x.text.toList.length) ≠ .ok (some ':') c₂)
    (hnext : ∀ ch c₂, Scan.peekMark (c₁.skip x.text.toList.length) = .ok (some ch) c₂ →
      isNameChar ch = false) (enclosing : Option Switch) (d : Draft) :
    statementIn enclosing ⟨c, d⟩ = expressionStatement enclosing ⟨c, d⟩ := by
  have hdirect : expression ⟨c, d⟩ =
      afterName (4 * c.unread.length + 5) fullLevel x ⟨c₁.skip x.text.toList.length, d⟩ :=
    expressionAt_leadingName _ fullLevel hb h d
  cases hp : Scan.peekMark (c₁.skip x.text.toList.length) with
  | error e c₂ =>
      have haccept : Scan.accept ':' (c₁.skip x.text.toList.length) = .error e c₂ :=
        bind_of_error hp
      have hhead : Scan.statementHead c = .error e c₂ :=
        (Scan.statementHead_leadingName hb h hk).trans (bind_of_error haccept)
      refine (bind_of_error (scan_of_error hhead)).trans (bind_of_error ?_).symm
      exact hdirect.trans (bind_of_error (scan_of_error hp))
  | ok mark c₂ =>
      have hmark : mark ≠ some ':' := by
        rintro rfl
        exact hcolon c₂ hp
      rw [statementIn_pushedBack hb h hk hp hmark]
      refine bind_congr_state (.trans ?_ hdirect.symm)
      have hjoined : leadingName (c₂.pushBackAll x.text.toList).unread = x.text.toList := by
        refine leadingName_eq_iff.mpr ⟨c₂.unread, Cursor.unread_pushBackAll _ _, fun ch hch => ?_⟩
        rw [Scan.peekMark_head hp] at hch
        cases hch
        exact hnext ch c₂ hp
      obtain ⟨first, hf, hstart⟩ := Scan.head?_of_leadingName hjoined
      have hblanks := Scan.blanks_of_isNameStart (c := c₂.pushBackAll x.text.toList)
        (by rw [hf]; exact hstart)
      refine (expressionAt_leadingName _ fullLevel hblanks hjoined d).trans ?_
      rw [Cursor.skip_pushBackAll x.newline_notMem]
      exact bind_congr_state
        ((scan_of_ok (Scan.peekMark_peekMark hp)).trans (scan_of_ok hp).symm)

/-- The name that an expression begins with is not given back. -/
theorem length_of_leadingName {depth : Nat} {enclosing : Option Switch} {d : Draft} {e : Error}
    {t : Site Draft} (hb : Scan.blanks c = .ok () c₁)
    (h : leadingName c₁.unread = x.text.toList)
    (herror : (do
      let _ ← expressionAt (depth + 3) fullLevel
      scan (Scan.expect ';' "after expression statement")
      return enclosing : Pass Draft (Option Switch)) ⟨c, d⟩ = .error e t) :
    t.cursor.unread.length ≤ (c₁.skip x.text.toList.length).unread.length := by
  rw [bind_congr_state (expressionAt_leadingName depth fullLevel hb h d)] at herror
  have htravels : Travels (do
      let _ ← afterName depth fullLevel x
      scan (Scan.expect ';' "after expression statement")
      return enclosing) :=
    .bind (.afterName depth fullLevel x) fun _ => .bind (.scan (.expect _ _)) fun _ =>
      Travels.congruence.pure enclosing
  exact (htravels.error herror).follows.length

/-- A draft in which no name is known. -/
def blankDraft : Draft := .ofFunction (.empty "b" 8) 0 (.entered "f" [])

/-- The word is pushed back in front of something that goes on with it. -/
theorem statementIn_ne_expressionStatement {ch : Char} {c₂ : Cursor}
    (hb : Scan.blanks c = .ok () c₁) (h : leadingName c₁.unread = x.text.toList)
    (hk : StatementHead.ofKeyword? x.text = none)
    (hp : Scan.peekMark (c₁.skip x.text.toList.length) = .ok (some ch) c₂)
    (hch : isNameChar ch) :
    statementIn none ⟨c, blankDraft⟩ ≠ expressionStatement none ⟨c, blankDraft⟩ := by
  have hne : ∀ mark, isNameChar mark = false → some ch ≠ some mark := by
    rintro mark hm ⟨⟩
    exact Bool.false_ne_true (hm.symm.trans hch)
  -- read apart, the word is not known, and what follows it is left over
  have hdirect : expressionStatement none ⟨c, blankDraft⟩ =
      .error (.undefinedName x.text) ⟨c₂, blankDraft⟩ := by
    refine bind_of_error ((expressionAt_leadingName _ fullLevel hb h _).trans ?_)
    refine (bind_of_ok (scan_of_ok hp)).trans (bind_of_error ?_)
    rw [if_neg (hne '(' rfl)]
    rfl
  -- read together, at least one more character is gone
  obtain ⟨rest, hrest⟩ := List.head?_eq_some_iff.mp (Scan.peekMark_head hp)
  have hjoined : leadingName (c₂.pushBackAll x.text.toList).unread =
      x.text.toList ++ ch :: rest.takeWhile isNameChar := by
    rw [Cursor.unread_pushBackAll, leadingName_joined, hrest, List.takeWhile_cons_of_pos hch]
  obtain ⟨y, hy⟩ : ∃ y : Name,
      y.text.toList = x.text.toList ++ ch :: rest.takeWhile isNameChar := by
    refine ⟨⟨_, (Scan.isName_leadingName (c₂.pushBackAll x.text.toList).unread).resolve_left ?_⟩,
      ?_⟩
    · rw [hjoined, String.ofList_eq_empty_iff]
      simp
    · rw [String.toList_ofList, hjoined]
  obtain ⟨first, hf, hstart⟩ := Scan.head?_of_leadingName (hjoined.trans hy.symm)
  have hblanks := Scan.blanks_of_isNameStart (c := c₂.pushBackAll x.text.toList)
    (by rw [hf]; exact hstart)
  intro heq
  rw [hdirect, statementIn_pushedBack hb h hk hp (hne ':' rfl)] at heq
  have hlength := length_of_leadingName hblanks (hjoined.trans hy.symm) heq
  simp only [Cursor.unread_skip, Cursor.unread_pushBackAll, List.length_drop, List.length_append,
    hy, List.length_cons, hrest] at hlength
  omega

/-- The lookahead for a label changes nothing if and only if what follows the word, blanks and
comments apart, cannot go on with it. -/
theorem lookahead_transparent_iff (hb : Scan.blanks c = .ok () c₁)
    (h : leadingName c₁.unread = x.text.toList) (hk : StatementHead.ofKeyword? x.text = none)
    (hcolon : ∀ c₂, Scan.peekMark (c₁.skip x.text.toList.length) ≠ .ok (some ':') c₂) :
    (∀ enclosing d, statementIn enclosing ⟨c, d⟩ = expressionStatement enclosing ⟨c, d⟩) ↔
      ∀ ch c₂, Scan.peekMark (c₁.skip x.text.toList.length) = .ok (some ch) c₂ →
        isNameChar ch = false := by
  constructor
  · intro hsame ch c₂ hp
    rw [Bool.eq_false_iff]
    exact fun hch => statementIn_ne_expressionStatement hb h hk hp hch (hsame none blankDraft)
  · exact fun hnext enclosing d =>
      statementIn_eq_expressionStatement hb h hk hcolon hnext enclosing d

theorem lookahead_transparent_comment :
    Scan.blanks (.ofText "/**/ x /*:*/- y;" 8) = .ok () ⟨"x /*:*/- y;".toList, 1, 8⟩ ∧
    ∀ enclosing d, statementIn enclosing ⟨.ofText "/**/ x /*:*/- y;" 8, d⟩ =
      expressionStatement enclosing ⟨.ofText "/**/ x /*:*/- y;" 8, d⟩ := by
  refine ⟨rfl, (@lookahead_transparent_iff ⟨"x", by decide⟩ _ ⟨"x /*:*/- y;".toList, 1, 8⟩ rfl rfl
    rfl fun c₂ h => ?_).mpr fun ch c₂ h => ?_⟩
  · cases h
  · cases h
    rfl

/-- Two names with a blank between them are read as one, also in a whole source. -/
theorem lookahead_joins_names :
    (∃ d t t', statementIn none ⟨.ofText "x y;" 8, d⟩ = .ok none t ∧
      expressionStatement none ⟨.ofText "x y;" 8, d⟩ = .error (.undefinedName "x") t') ∧
    (Session.new "b" 8).accepts "<input>" "f() \x7b auto xy; x y; \x7d" := by
  refine ⟨⟨{ blankDraft with locals := [("xy", .const 0)] }, ?_⟩, by decide +kernel⟩
  have hjoined : (match statementIn none
      ⟨.ofText "x y;" 8, { blankDraft with locals := [("xy", .const 0)] }⟩ with
    | .ok none _ => true
    | _ => false) = true := by decide +kernel
  have hapart : (match expressionStatement none
      ⟨.ofText "x y;" 8, { blankDraft with locals := [("xy", .const 0)] }⟩ with
    | .error e _ => decide (e = .undefinedName "x")
    | _ => false) = true := by decide +kernel
  split at hjoined
  · next t ht =>
      split at hapart
      · next e t' ht' =>
          obtain rfl := of_decide_eq_true hapart
          exact ⟨t, t', ht, ht'⟩
      · cases hapart
  · cases hjoined

end Pass
end BCompiler
