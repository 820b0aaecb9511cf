import BCompiler.Proofs.Source.Operator
import BCompiler.Proofs.Source.Zone

/-!
Marks in front of a text that is read apart.

A mark is known by its first characters, none of which is a blank. So a recognizer of marks finds
the same one whatever comes behind a text, and what it leaves of the text still ends in code.
-/
namespace BCompiler

/-- The recognizer knows its marks by one or two characters: the first one is among `first`, and
the second one counts only if it is among `second`. -/
structure Knows {β : Type} (recognize : List Char → Option β) (first second : List Char) :
    Prop where
  nil : recognize [] = none
  unknown : ∀ c rest, c ∉ first → recognize (c :: rest) = none
  single : ∀ c ∈ first, ∀ d rest, d ∉ second → recognize (c :: d :: rest) = recognize [c]
  pair : ∀ c ∈ first, ∀ d ∈ second, ∀ rest, recognize (c :: d :: rest) = recognize [c, d]

theorem Knows.append {β : Type} {recognize : List Char → Option β} {first second : List Char}
    (h : Knows recognize first second) (hfirst : first.any isBlank = false)
    (hsecond : second.any isBlank = false) {w : List Char} (hw : Detached w)
    (text : List Char) : recognize (text ++ w) = recognize text := by
  rw [List.any_eq_false] at hfirst hsecond
  rcases text with _ | ⟨c, rest⟩
  · cases w with
    | nil => rfl
    | cons c w =>
        have hc : c ∉ first := fun hm => hfirst c hm (hw c rfl)
        exact (h.unknown c w hc).trans h.nil.symm
  · by_cases hc : c ∈ first
    · rcases rest with _ | ⟨d, rest⟩
      · cases w with
        | nil => rfl
        | cons d w => exact h.single c hc d w fun hm => hsecond d hm (hw d rfl)
      · by_cases hd : d ∈ second
        · exact (h.pair c hc d hd _).trans (h.pair c hc d hd _).symm
        · exact (h.single c hc d _ hd).trans (h.single c hc d _ hd).symm
    · exact (h.unknown c _ hc).trans (h.unknown c _ hc).symm

def signMarks : List Char := ['!', '*', '&', '+', '-']
def suffixMarks : List Char := ['[', '(', '+', '-']

theorem Op.head?_knows : Knows head? opMarks ['<', '=', '>'] where
  nil := rfl
  unknown c rest hc := by
    simp only [opMarks, List.mem_cons, List.not_mem_nil, or_false, not_or] at hc
    simp [head?, hc]
  single c hc d rest hd := by
    simp only [List.mem_cons, List.not_mem_nil, or_false, not_or] at hd
    simp only [opMarks, List.mem_cons, List.not_mem_nil, or_false] at hc
    rcases hc with rfl | rfl | rfl | rfl | rfl | rfl | rfl | rfl | rfl | rfl | rfl
    all_goals simp [head?, hd]
  pair c hc d hd rest := by
    simp only [opMarks, List.mem_cons, List.not_mem_nil, or_false] at hc hd
    rcases hc with rfl | rfl | rfl | rfl | rfl | rfl | rfl | rfl | rfl | rfl | rfl
    all_goals rcases hd with rfl | rfl | rfl <;> rfl

theorem Sign.head?_knows : Knows head? signMarks ['+', '-'] where
  nil := rfl
  unknown c rest hc := by
    simp only [signMarks, List.mem_cons, List.not_mem_nil, or_false, not_or] at hc
    simp [head?, hc]
  single c hc d rest hd := by
    simp only [List.mem_cons, List.not_mem_nil, or_false, not_or] at hd
    simp only [signMarks, List.mem_cons, List.not_mem_nil, or_false] at hc
    rcases hc with rfl | rfl | rfl | rfl | rfl
    all_goals simp [head?, hd]
  pair c hc d hd rest := by
    simp only [signMarks, List.mem_cons, List.not_mem_nil, or_false] at hc hd
    rcases hc with rfl | rfl | rfl | rfl | rfl
    all_goals rcases hd with rfl | rfl <;> rfl

theorem Suffix.head?_knows : Knows head? suffixMarks ['+', '-'] where
  nil := rfl
  unknown c rest hc := by
    simp only [suffixMarks, List.mem_cons, List.not_mem_nil, or_false, not_or] at hc
    simp [head?, hc]
  single c hc d rest hd := by
    simp only [List.mem_cons, List.not_mem_nil, or_false, not_or] at hd
    simp only [suffixMarks, List.mem_cons, List.not_mem_nil, or_false] at hc
    rcases hc with rfl | rfl | rfl | rfl
    all_goals simp [head?, hd]
  pair c hc d hd rest := by
    simp only [suffixMarks, List.mem_cons, List.not_mem_nil, or_false] at hc hd
    rcases hc with rfl | rfl | rfl | rfl
    all_goals rcases hd with rfl | rfl <;> rfl

theorem Op.head?_append {w : List Char} (hw : Detached w) (text : List Char) :
    head? (text ++ w) = head? text :=
  head?_knows.append rfl rfl hw text

namespace Connective

theorem afterEquals_append (level : Nat) {w : List Char} (hw : Detached w) (rest : List Char) :
    afterEquals level (rest ++ w) = afterEquals level rest := by
  unfold afterEquals
  rw [Op.head?_append hw]
  rcases rest with _ | ⟨c, rest⟩
  · cases w with
    | nil => rfl
    | cons c w =>
        have hc : c ≠ '=' := by
          rintro rfl
          exact hw.head?_ne rfl rfl
        have hnone : Op.head? [] = none := rfl
        simp [hc, hnone]
  · by_cases hc : c = '='
    · subst hc
      cases Op.head? ('=' :: rest) <;> rfl
    · cases Op.head? (c :: rest) <;> simp [hc]

/-- Where no mark of its own comes first, a connective is an operator. -/
theorem head?_cons (level : Nat) {c : Char} (hc : c ≠ '?') (hequals : c ≠ '=') (rest : List Char) :
    head? level (c :: rest) =
      if c ∈ ['+', '-'] ∧ rest.head? = some c then none
      else (Op.head? (c :: rest)).bind fun found =>
        if found.1.level ≤ level then some (operator found.1, found.2) else none := by
  by_cases hdouble : c ∈ ['+', '-'] ∧ rest.head? = some c
  · obtain ⟨hsign, hrest⟩ := hdouble
    obtain ⟨rest, rfl⟩ := List.head?_eq_some_iff.mp hrest
    simp only [List.mem_cons, List.not_mem_nil, or_false] at hsign
    rcases hsign with rfl | rfl <;> rfl
  · rw [if_neg hdouble, head?]
    · cases Op.head? (c :: rest) <;> rfl
    · exact fun _ h => hc (List.cons.inj h).1
    · exact fun _ h => hequals (List.cons.inj h).1
    · rintro v ⟨⟩
      exact hdouble ⟨by decide, rfl⟩
    · rintro v ⟨⟩
      exact hdouble ⟨by decide, rfl⟩

theorem head?_append (level : Nat) {w : List Char} (hw : Detached w) (text : List Char) :
    head? level (text ++ w) = head? level text := by
  cases text with
  | nil =>
      cases w with
      | nil => rfl
      | cons c w =>
          have hne : ∀ d, isBlank d = false → c ≠ d := by
            rintro d hd rfl
            exact hw.head?_ne hd rfl
          have hop : Op.head? (c :: w) = none := Op.head?_append hw []
          rw [List.nil_append, head?_cons level (hne _ rfl) (hne _ rfl), hop]
          exact ite_self _
  | cons c rest =>
      rw [List.cons_append]
      by_cases hc : c = '?'
      · subst hc
        rfl
      · by_cases hequals : c = '='
        · subst hequals
          exact afterEquals_append level hw rest
        · rw [head?_cons level hc hequals, head?_cons level hc hequals, ← List.cons_append,
            Op.head?_append hw]
          have : c ∈ ['+', '-'] ∧ (rest ++ w).head? = some c ↔
              c ∈ ['+', '-'] ∧ rest.head? = some c := by
            refine and_congr_right fun hm => hw.head?_append ?_ rest
            simp only [List.mem_cons, List.not_mem_nil, or_false] at hm
            rcases hm with rfl | rfl <;> rfl
          simp only [this]

end Connective

/-- A recognizer takes a mark from the head of a text, whatever comes behind the text, and what it
takes opens neither a comment nor a literal. No mark begins with a letter. -/
structure Steady {α : Type} (recognize : List Char → Option (α × Nat)) : Prop where
  append : ∀ {w}, Detached w → ∀ text, recognize (text ++ w) = recognize text
  ends : ∀ {text a n}, Unopened text → recognize text = some (a, n) →
    endsInCode (.code .text) text → endsInCode (.code .text) (text.drop n)
  bounds : ∀ text a n, recognize text = some (a, n) → 0 < n ∧ n ≤ text.length
  letter : ∀ text, text.head?.any isNameStart → recognize text = none

theorem Steady.nil {α : Type} {recognize : List Char → Option (α × Nat)} (h : Steady recognize) :
    recognize [] = none := by
  cases hr : recognize [] with
  | none => rfl
  | some found =>
      obtain ⟨hpos, hle⟩ := h.bounds _ _ _ hr
      exact absurd hle (Nat.not_le_of_lt hpos)

theorem Knows.letter {β : Type} {recognize : List Char → Option β} {first second : List Char}
    (h : Knows recognize first second) (hfirst : first.any isNameStart = false)
    (text : List Char) (ht : text.head?.any isNameStart) : recognize text = none := by
  cases text with
  | nil => cases ht
  | cons c rest =>
      refine h.unknown c rest fun hm => ?_
      rw [List.head?_cons, Option.any_some] at ht
      exact List.any_eq_false.mp hfirst c hm ht

theorem Op.steady : Steady head? where
  append := head?_append
  ends {text op n} hopen hop h := by
    revert hop
    fun_cases head? text with
    | case8 | case9 | case11 | case12 | case14 | case15 =>
        rintro ⟨⟩
        exact endsInCode_tail (endsInCode_tail h hopen) (unopened_of_ne (by decide) _)
    | case16 => rintro ⟨⟩
    | case1 | case2 | case3 | case4 | case5 | case6 | case7 | case10 | case13 =>
        rintro ⟨⟩
        exact endsInCode_tail h hopen
  bounds := head?_bounds
  letter := head?_knows.letter rfl

theorem Sign.steady : Steady head? where
  append := head?_knows.append rfl rfl
  ends {text op n} hopen hop h := by
    revert hop
    fun_cases head? text with
    | case4 | case5 =>
        rintro ⟨⟩
        exact endsInCode_tail (endsInCode_tail h hopen) (unopened_of_ne (by decide) _)
    | case7 => rintro ⟨⟩
    | case1 | case2 | case3 | case6 =>
        rintro ⟨⟩
        exact endsInCode_tail h hopen
  bounds := head?_bounds
  letter := head?_knows.letter rfl

theorem Suffix.steady : Steady head? where
  append := head?_knows.append rfl rfl
  ends {text op n} hopen hop h := by
    revert hop
    fun_cases head? text with
    | case3 | case4 =>
        rintro ⟨⟩
        exact endsInCode_tail (endsInCode_tail h hopen) (unopened_of_ne (by decide) _)
    | case5 => rintro ⟨⟩
    | case1 | case2 =>
        rintro ⟨⟩
        exact endsInCode_tail h hopen
  bounds := head?_bounds
  letter := head?_knows.letter rfl

namespace Connective

theorem endsInCode_afterEquals {level : Nat} {rest : List Char} {found : Connective} {n : Nat}
    (h : endsInCode (.code .text) ('=' :: rest)) (hf : afterEquals level rest = some (found, n)) :
    endsInCode (.code .text) (('=' :: rest).drop n) := by
  have hopen := unopened_of_equals h
  have hrest : endsInCode (.code .text) rest := endsInCode_tail h (unopened_of_ne (by decide) _)
  unfold afterEquals at hf
  split at hf
  · split at hf
    · next hop =>
        cases hf
        have hdrop := Op.steady.ends hopen hop hrest
        exact hdrop
    · cases hf
      exact endsInCode_tail hrest (unopened_of_ne (by decide) _)
    · cases hf
      exact hrest
  · split at hf
    · split at hf
      · cases hf
        exact endsInCode_tail hrest (unopened_of_ne (by decide) _)
      · cases hf
    · cases hf

theorem steady (level : Nat) : Steady (head? level) where
  append := head?_append level
  ends {text found n} hopen hf h := by
    revert hf
    fun_cases head? level text with
    | case1 =>
        rintro ⟨⟩
        exact endsInCode_tail h hopen
    | case2 => rintro ⟨⟩
    | case3 rest => exact endsInCode_afterEquals h
    | case4 => rintro ⟨⟩
    | case5 => rintro ⟨⟩
    | case6 text _ _ _ _ op length hop hlevel =>
        rintro ⟨⟩
        exact Op.steady.ends hopen hop h
    | case7 => rintro ⟨⟩
    | case8 => rintro ⟨⟩
  bounds := head?_bounds level
  letter text ht := by
    have hop := Op.steady.letter text ht
    cases text with
    | nil => rfl
    | cons c rest =>
        rw [head?_cons level (ne_of_isNameStart ht rfl) (ne_of_isNameStart ht rfl), hop]
        exact ite_self _

end Connective

end BCompiler
