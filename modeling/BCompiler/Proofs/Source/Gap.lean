import BCompiler.Proofs.Source.Zone

/-!
Blanks and comments.

A comment reaches from its opening to the first place behind it that closes it. Every text begins
with a sequence of blanks and comments and then goes on with something else, or with a comment that
nothing closes. The reader of blanks leaves exactly what comes behind such a sequence.
-/
namespace BCompiler

/-- What may stand between two parts of a source: a blank, or a comment from its opening to the
first place that closes it. -/
inductive Gap where
  | blank (c : Char) (isBlank : isBlank c)
  | comment (body : List Char) (unclosed : ¬ ['*', '/'] <:+: body)

def Gap.text : Gap → List Char
  | blank c _ => [c]
  | comment body _ => '/' :: '*' :: (body ++ ['*', '/'])

/-- The reader stays in a comment as long as nothing closes it. -/
theorem afterBlanks_body {body : List Char} (h : ¬ ['*', '/'] <:+: body) (star : Bool)
    (hstar : star → body.head? ≠ some '/') (rest : List Char) :
    ∃ star', afterBlanks (.comment star) (body ++ rest) = afterBlanks (.comment star') rest := by
  induction body generalizing star with
  | nil => exact ⟨star, rfl⟩
  | cons c body ih =>
      have hopen : ¬ (star && c == '/') := by
        simp only [Bool.and_eq_true, beq_iff_eq]
        rintro ⟨hs, rfl⟩
        exact hstar hs rfl
      rw [List.cons_append, afterBlanks, if_neg hopen]
      refine ih (fun hbody => h (hbody.trans (List.suffix_cons c body).isInfix)) _ ?_
      intro hc hslash
      obtain ⟨body, rfl⟩ := List.head?_eq_some_iff.mp hslash
      cases beq_iff_eq.mp hc
      exact h (List.prefix_append ['*', '/'] body).isInfix

/-- A comment is skipped up to the place that closes it. -/
theorem afterBlanks_comment {body : List Char} (h : ¬ ['*', '/'] <:+: body) (rest : List Char) :
    afterBlanks (.comment false) (body ++ '*' :: '/' :: rest) = afterBlanks .text rest := by
  obtain ⟨star, hbody⟩ :=
    afterBlanks_body h false (absurd · Bool.false_ne_true) ('*' :: '/' :: rest)
  rw [hbody]
  cases star <;> rfl

theorem afterBlanks_unclosed {body : List Char} (h : ¬ ['*', '/'] <:+: body) :
    afterBlanks .text ('/' :: '*' :: body) = none := by
  obtain ⟨star, hbody⟩ := afterBlanks_body h false (absurd · Bool.false_ne_true) []
  rw [List.append_nil] at hbody
  rw [afterBlanks, hbody, afterBlanks]

theorem afterBlanks_gap (gap : Gap) (rest : List Char) :
    afterBlanks .text (gap.text ++ rest) = afterBlanks .text rest := by
  cases gap with
  | blank c hc =>
      change afterBlanks .text (c :: rest) = _
      rw [afterBlanks, if_pos hc]
      rintro v rfl
      cases hc
  | comment body h =>
      change afterBlanks (.comment false) (body ++ ['*', '/'] ++ rest) = _
      rw [List.append_assoc]
      exact afterBlanks_comment h rest

theorem afterBlanks_gaps (gaps : List Gap) (rest : List Char) :
    afterBlanks .text (gaps.flatMap Gap.text ++ rest) = afterBlanks .text rest := by
  induction gaps with
  | nil => rfl
  | cons gap gaps ih => rw [List.flatMap_cons, List.append_assoc, afterBlanks_gap, ih]

/-- A text that closes a comment anywhere has a first place where it does. -/
theorem exists_closing {text : List Char} (h : ['*', '/'] <:+: text) :
    ∃ body rest, text = body ++ '*' :: '/' :: rest ∧ ¬ ['*', '/'] <:+: body := by
  induction text with
  | nil => cases List.infix_nil.mp h
  | cons c text ih =>
      by_cases hfirst : ['*', '/'] <+: c :: text
      · obtain ⟨rest, hrest⟩ := hfirst
        exact ⟨[], rest, hrest.symm, fun hnil => by cases List.infix_nil.mp hnil⟩
      · obtain ⟨body, rest, rfl, hbody⟩ := ih ((List.infix_cons_iff.mp h).resolve_left hfirst)
        refine ⟨c :: body, rest, rfl, fun hclose => ?_⟩
        rcases List.infix_cons_iff.mp hclose with hclose | hclose
        · exact hfirst (hclose.trans (List.prefix_append (c :: body) _))
        · exact hbody hclose

theorem unopened_iff {text : List Char} : Unopened text ↔ ¬ ['/', '*'] <+: text := by
  constructor
  · rintro h ⟨rest, rfl⟩
    exact h rfl rfl
  · intro h hslash hstar
    obtain ⟨rest, rfl⟩ := List.head?_eq_some_iff.mp hslash
    obtain ⟨body, rfl⟩ := List.head?_eq_some_iff.mp hstar
    exact h (List.prefix_append ['/', '*'] body)

theorem solid_iff {text : List Char} :
    Solid text ↔ (∀ c ∈ text.head?, isBlank c = false) ∧ ¬ ['/', '*'] <+: text := by
  cases text with
  | nil => exact iff_of_true rfl ⟨fun c hc => (by cases hc), by decide⟩
  | cons c rest =>
      rw [Solid.cons_iff, unopened_iff]
      simp

/-- How a text begins: with gaps, and then with something else or with a comment that is not
closed. -/
inductive Lead : List Char → Prop
  | solid (gaps : List Gap) (rest : List Char) (h : Solid rest) :
      Lead (gaps.flatMap Gap.text ++ rest)
  | unclosed (gaps : List Gap) (body : List Char) (h : ¬ ['*', '/'] <:+: body) :
      Lead (gaps.flatMap Gap.text ++ '/' :: '*' :: body)

namespace Lead

theorem gap (gap : Gap) {text : List Char} (h : Lead text) : Lead (gap.text ++ text) := by
  cases h with
  | solid gaps rest hrest =>
      rw [← List.append_assoc]
      exact .solid (gap :: gaps) rest hrest
  | unclosed gaps body hbody =>
      rw [← List.append_assoc]
      exact .unclosed (gap :: gaps) body hbody

/-- The induction is on the length of the text, since a comment is taken off as a whole. -/
theorem of_text (text : List Char) : Lead text := by
  induction hn : text.length using Nat.strongRecOn generalizing text with
  | _ n ih =>
      subst hn
      by_cases hopen : ['/', '*'] <+: text
      · obtain ⟨body, rfl⟩ := hopen
        by_cases hclose : ['*', '/'] <:+: body
        · obtain ⟨body, rest, rfl, hbody⟩ := exists_closing hclose
          have hrest : Lead rest := ih rest.length (by simp; omega) rest rfl
          have htext : ['/', '*'] ++ (body ++ '*' :: '/' :: rest) =
              (Gap.comment body hbody).text ++ rest := by simp [Gap.text]
          rw [htext]
          exact gap _ hrest
        · exact .unclosed [] body hclose
      · cases text with
        | nil => exact .solid [] [] rfl
        | cons c rest =>
            by_cases hblank : isBlank c
            · exact gap (.blank c hblank) (ih rest.length (Nat.lt_succ_self _) rest rfl)
            · exact .solid [] _
                (solid_cons (Bool.eq_false_iff.mpr hblank) (unopened_iff.mpr hopen))

end Lead

theorem afterBlanks_eq_some_iff {text rest : List Char} :
    afterBlanks .text text = some rest ↔
      ∃ gaps : List Gap, text = gaps.flatMap Gap.text ++ rest ∧ Solid rest := by
  constructor
  · intro h
    cases Lead.of_text text with
    | solid gaps rest' hrest =>
        cases ((afterBlanks_gaps gaps rest').trans hrest).symm.trans h
        exact ⟨gaps, rfl, hrest⟩
    | unclosed gaps body hbody =>
        cases ((afterBlanks_gaps gaps _).trans (afterBlanks_unclosed hbody)).symm.trans h
  · rintro ⟨gaps, rfl, hrest⟩
    exact (afterBlanks_gaps gaps rest).trans hrest

theorem afterBlanks_eq_none_iff {text : List Char} :
    afterBlanks .text text = none ↔
      ∃ (gaps : List Gap) (body : List Char),
        text = gaps.flatMap Gap.text ++ '/' :: '*' :: body ∧ ¬ ['*', '/'] <:+: body := by
  constructor
  · intro h
    cases Lead.of_text text with
    | solid gaps rest hrest => cases ((afterBlanks_gaps gaps rest).trans hrest).symm.trans h
    | unclosed gaps body hbody => exact ⟨gaps, body, rfl, hbody⟩
  · rintro ⟨gaps, body, rfl, hbody⟩
    exact (afterBlanks_gaps gaps _).trans (afterBlanks_unclosed hbody)

namespace Scan

variable {c : Cursor}

/-- Only a comment keeps blanks from being read. -/
theorem error_of_blanksFrom {wordSize line : Nat} {region : Region} {text : List Char} {e : Error}
    (h : blanksFrom wordSize region line text = .error e c) : e = .unclosedComment := by
  fun_induction blanksFrom wordSize region line text with
  | case1 | case4 => cases h
  | case2 _ _ ih | case3 _ _ _ _ _ ih | case6 _ _ _ _ _ ih | case7 _ _ _ _ _ ih => exact ih h
  | case5 =>
      cases h
      rfl

theorem blanks_eq_ok_iff {rest : List Char} :
    (∃ c', blanks c = .ok () c' ∧ c'.unread = rest) ↔ afterBlanks .text c.unread = some rest := by
  constructor
  · rintro ⟨c', h, rfl⟩
    exact (afterBlanks_of_blanks h).1
  · intro h
    obtain ⟨line, h⟩ := afterBlanks_iff.mp h
    exact ⟨_, h, rfl⟩

theorem blanks_eq_error_iff {e : Error} :
    (∃ c', blanks c = .error e c') ↔
      e = .unclosedComment ∧ afterBlanks .text c.unread = none := by
  cases h : blanks c with
  | ok u c' => simp [(afterBlanks_of_blanks h).1]
  | error e' c' =>
      obtain rfl := error_of_blanksFrom h
      have hnone : afterBlanks .text c.unread = none := by
        rw [Option.eq_none_iff_forall_ne_some]
        intro rest hrest
        obtain ⟨_, hok, _⟩ := blanks_eq_ok_iff.mpr hrest
        cases h.symm.trans hok
      simp [hnone, eq_comm]

/-- Blanks are read exactly if the text is a sequence of blanks and comments up to something else,
which is then left as it is. The one error is a comment behind such a sequence that nothing closes.
Where blanks have been read, there are none left. -/
theorem blanks_exact (c : Cursor) :
    (∀ rest, (∃ c', blanks c = .ok () c' ∧ c'.unread = rest) ↔
      ∃ gaps : List Gap, c.unread = gaps.flatMap Gap.text ++ rest ∧
        (∀ ch ∈ rest.head?, isBlank ch = false) ∧ ¬ ['/', '*'] <+: rest) ∧
    (∀ c', blanks c = .ok () c' → blanks c' = .ok () c') ∧
    ∀ e, (∃ c', blanks c = .error e c') ↔
      e = .unclosedComment ∧ ∃ (gaps : List Gap) (body : List Char),
        c.unread = gaps.flatMap Gap.text ++ '/' :: '*' :: body ∧ ¬ ['*', '/'] <:+: body := by
  refine ⟨fun rest => ?_, fun c' h => ?_, fun e => ?_⟩
  · rw [blanks_eq_ok_iff, afterBlanks_eq_some_iff]
    simp only [solid_iff]
  · exact (solid_of_afterBlanks (afterBlanks_of_blanks h).1).blanks
  · rw [blanks_eq_error_iff, afterBlanks_eq_none_iff]

end Scan
end BCompiler
