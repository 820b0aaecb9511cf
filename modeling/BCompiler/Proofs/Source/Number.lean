import BCompiler.Proofs.Source.Token

/-!
Reading numbers.

A number is a run of digits, as long as there are any. A leading zero makes it octal, and then a
digit above seven is an error. The value is built up digit by digit in words that wrap, so it is the
number that the run stands for up to a multiple of the number of words.
-/
namespace BCompiler

/-- The base in which a run of digits is read. -/
def runBase (run : List Char) : Nat := if run.head? = some '0' then 8 else 10

theorem foldl_snoc (base : Nat) (digits : List Char) (n : Nat) :
    digits.foldl (Word.snoc base) (Int64.ofNat n) =
      Int64.ofNat (Nat.ofDigitChars base digits n) := by
  induction digits generalizing n with
  | nil => rfl
  | cons digit digits ih =>
      have hstep : Word.snoc base (Int64.ofNat n) digit =
          Int64.ofNat (base * n + (digit.toNat - 48)) := by
        rw [Word.snoc, Int64.ofNat_add, Int64.ofNat_mul, Int64.mul_comm]
      rw [List.foldl_cons, hstep, ih]
      rfl

theorem eq_zero_of_digitChar : ∀ n < 10, n.digitChar = '0' → n = 0 := by decide

/-- Only zero is written with a leading zero. -/
theorem eq_zero_of_head_toDigits (n : Nat) (h : (Nat.toDigits 10 n).head? = some '0') : n = 0 := by
  induction n using Nat.strongRecOn with
  | _ n ih =>
      rw [Nat.toDigits_eq_if (by decide)] at h
      split at h
      · rename_i hlt
        exact eq_zero_of_digitChar n hlt (Option.some.inj h)
      · have hhead : (Nat.toDigits 10 (n / 10)).head? = some '0' := by
          cases hd : Nat.toDigits 10 (n / 10) with
          | nil => exact absurd hd Nat.toDigits_ne_nil
          | cons digit digits => rwa [hd] at h
        have := ih (n / 10) (by omega) hhead
        omega

theorem isOctalDigit_digitChar : ∀ n < 8, isOctalDigit n.digitChar := by decide

theorem isOctalDigit_of_mem {n : Nat} {c : Char} (h : c ∈ Nat.toDigits 8 n) : isOctalDigit c := by
  induction n using Nat.strongRecOn with
  | _ n ih =>
      rw [Nat.toDigits_eq_if (by decide)] at h
      split at h
      · rename_i hlt
        rw [List.mem_singleton.mp h]
        exact isOctalDigit_digitChar n hlt
      · rcases List.mem_append.mp h with h | h
        · exact ih (n / 8) (by omega) h
        · rw [List.mem_singleton.mp h]
          exact isOctalDigit_digitChar _ (Nat.mod_lt _ (by decide))

theorem isDigit_of_isOctalDigit {c : Char} (h : isOctalDigit c) : isDigit c := by
  simp only [isOctalDigit, Bool.and_eq_true, Nat.ble_eq] at h
  exact isDigit_iff.mpr (by omega)

theorem isOctalDigit_iff {c : Char} (h : isDigit c) : isOctalDigit c ↔ c ≤ '7' := by
  have hle : c ≤ '7' ↔ c.toNat ≤ 55 := Iff.rfl
  have hrange := isDigit_iff.mp h
  rw [hle, isOctalDigit, Bool.and_eq_true, Nat.ble_eq, Nat.ble_eq]
  omega

/-- The run is a number with this value. -/
structure Spells (run : List Char) (w : Word) : Prop where
  ne_nil : run ≠ []
  digits : ∀ digit ∈ run, isDigit digit
  octal : run.head? = some '0' → ∀ digit ∈ run, isOctalDigit digit
  value : run.foldl (Word.snoc (runBase run)) 0 = w

theorem Spells.begins {text : String} {w : Word} (h : Spells text.toList w) :
    ∃ first, Begins text first ∧ isDigit first := by
  obtain ⟨first, rest, hl⟩ := List.exists_cons_of_ne_nil h.ne_nil
  have hd : isDigit first := h.digits first (hl ▸ List.mem_cons_self)
  have hrange := isDigit_iff.mp hd
  refine ⟨first, ⟨rest, hl, isBlank_eq_false (by omega) (by omega), ?_⟩, hd⟩
  rintro rfl
  cases hd

namespace Numeral

variable (n : Numeral)

/-- The octal spelling of a word that is written without a sign. -/
def octal : String := String.ofList ('0' :: Nat.toDigits 8 n.word.toInt.toNat)

theorem spells_decimal : Spells n.word.decimal.toList n.word := by
  obtain ⟨k, hk, hw⟩ := n.decimal_toList
  rw [hk, hw]
  refine ⟨Nat.toDigits_ne_nil, fun digit hm => ?_, fun h0 => ?_, ?_⟩
  · rw [isDigit_eq]
    exact Nat.isDigit_of_mem_toDigits (by decide) (by decide) hm
  · obtain rfl := eq_zero_of_head_toDigits k h0
    intro digit hm
    cases List.mem_singleton.mp hm
    rfl
  · by_cases h0 : (Nat.toDigits 10 k).head? = some '0'
    · obtain rfl := eq_zero_of_head_toDigits k h0
      rfl
    · rw [runBase, if_neg h0]
      refine (foldl_snoc 10 _ 0).trans ?_
      rw [Nat.ofDigitChars_toDigits (by decide) (by decide)]

theorem spells_octal : Spells n.octal.toList n.word := by
  have hoctal : ∀ digit ∈ '0' :: Nat.toDigits 8 n.word.toInt.toNat, isOctalDigit digit := by
    intro digit hm
    rcases List.mem_cons.mp hm with rfl | hm
    · rfl
    · exact isOctalDigit_of_mem hm
  rw [octal, String.toList_ofList]
  refine ⟨List.cons_ne_nil _ _, fun digit hm => isDigit_of_isOctalDigit (hoctal digit hm),
    fun _ => hoctal, ?_⟩
  rw [runBase, if_pos List.head?_cons, List.foldl_cons]
  refine (foldl_snoc 8 _ 0).trans ?_
  rw [Nat.ofDigitChars_toDigits (by decide) (by decide)]
  exact Word.ofNat_toNat (Int64.le_iff_toInt_le.mp n.nonneg)

theorem begins : ∃ first, Begins n.word.decimal first ∧ isDigit first := n.spells_decimal.begins

end Numeral

/-- The run has all the digits that the text begins with. -/
structure DigitRun (text run rest : List Char) : Prop where
  split : text = run ++ rest
  digits : ∀ digit ∈ run, isDigit digit
  stops : ∀ ch ∈ rest.head?, isDigit ch = false

namespace DigitRun

variable {text run rest : List Char}

theorem of_text (text : List Char) :
    DigitRun text (text.takeWhile isDigit) (text.dropWhile isDigit) where
  split := List.takeWhile_append_dropWhile.symm
  digits := List.all_eq_true.mp List.all_takeWhile
  stops ch hch := by
    have hstops := List.head?_dropWhile_not isDigit text
    rwa [Option.mem_def.mp hch] at hstops

theorem takeWhile (h : DigitRun text run rest) : text.takeWhile isDigit = run := by
  rw [h.split, List.takeWhile_append_of_pos h.digits]
  cases rest with
  | nil => exact List.append_nil run
  | cons ch rest => simp [h.stops ch rfl]

/-- Which runs of digits are numbers, and of which value. -/
theorem spells_iff (h : DigitRun text run rest) {w : Word} :
    Spells run w ↔ run ≠ [] ∧ (run.head? = some '0' → ∀ digit ∈ run, digit ≤ '7') ∧
      w.toInt % Int64.size = Nat.ofDigitChars (runBase run) run 0 % Int64.size := by
  have hvalue : run.foldl (Word.snoc (runBase run)) 0 =
      Int64.ofNat (Nat.ofDigitChars (runBase run) run 0) := foldl_snoc (runBase run) run 0
  rw [← Word.eq_ofNat_iff, ← hvalue]
  constructor
  · rintro ⟨hne, hdigits, hoctal, rfl⟩
    exact ⟨hne,
      fun hzero digit hm => (isOctalDigit_iff (hdigits digit hm)).mp (hoctal hzero digit hm), rfl⟩
  · rintro ⟨hne, hoctal, rfl⟩
    exact ⟨hne, h.digits,
      fun hzero digit hm => (isOctalDigit_iff (h.digits digit hm)).mpr (hoctal hzero digit hm), rfl⟩

/-- No line ends within a run. -/
theorem skip {c : Cursor} (h : DigitRun c.unread run rest) :
    c.skip run.length = { c with unread := rest } := by
  have hline : '\n' ∉ run := fun hm => absurd (h.digits _ hm) (by decide)
  rw [Cursor.skip, h.split, List.drop_left, List.take_left, foldl_lineAfter,
    List.count_eq_zero.mpr hline]
  rfl

end DigitRun

namespace Scan

variable {tokens : List String} {c c₁ : Cursor} {run rest : List Char}

theorem number_none (hb : blanks c = .ok () c₁) (h : DigitRun c₁.unread [] rest) :
    number c = .error (.unexpected "number" c₁.unread.head?) c₁ := by
  refine (bind_of_ok hb).trans ?_
  simp only [h.takeWhile]
  rfl

theorem number_run {w : Word} (hb : blanks c = .ok () c₁) (h : DigitRun c₁.unread run rest)
    (hw : Spells run w) : number c = .ok w { c₁ with unread := rest } := by
  refine (bind_of_ok hb).trans ?_
  simp only [h.takeWhile]
  rw [if_neg (mt List.isEmpty_iff.mp hw.ne_nil), ← hw.value, ← h.skip, runBase]
  split
  · next hzero =>
      have hwhole : run.takeWhile isOctalDigit = run := by
        rw [← List.append_nil run, List.takeWhile_append_of_pos (hw.octal hzero)]
        rfl
      rw [hwhole, List.drop_length]
  · rfl

/-- Behind a leading zero, the first digit above seven is an error. -/
theorem number_bad {bad : Char} (hb : blanks c = .ok () c₁) (h : DigitRun c₁.unread run rest)
    (hzero : run.head? = some '0') (hfind : run.find? (· > '7') = some bad) :
    ∃ c', number c = .error (.invalidOctalDigit bad) c' := by
  obtain ⟨hbad, good, more, hrun, hgood⟩ := List.find?_eq_some_iff_append.mp hfind
  have hoctal : run.takeWhile isOctalDigit = good := by
    have hkept : ∀ digit ∈ good, isOctalDigit digit := by
      intro digit hm
      have hd := h.digits digit (hrun ▸ List.mem_append_left _ hm)
      exact (isOctalDigit_iff hd).mpr (by simpa using hgood digit hm)
    have hstop : ¬ isOctalDigit bad := by
      have hd := h.digits bad (hrun ▸ List.mem_append_right _ List.mem_cons_self)
      rw [isOctalDigit_iff hd]
      simpa using hbad
    rw [hrun, List.takeWhile_append_of_pos hkept, List.takeWhile_cons_of_neg hstop,
      List.append_nil]
  have hdrop : run.drop good.length = bad :: more := by rw [hrun, List.drop_left]
  have hne : ¬ run.isEmpty := by simp [hrun]
  refine ⟨c₁.skip (good.length + 1), (bind_of_ok hb).trans ?_⟩
  simp only [h.takeWhile, hoctal, hdrop]
  rw [if_neg hne, if_pos hzero]

/-- A number in front of further tokens. -/
theorem number_reads {token : String} {w : Word} (h : Spells token.toList w) :
    Reads number (token :: tokens) w tokens := by
  intro c hc
  obtain ⟨_, hb, _⟩ := h.begins
  obtain ⟨c₁, h₁, hu⟩ := blanks_token hb c hc
  have hrun : DigitRun c₁.unread token.toList (spaced tokens) := by
    refine ⟨hu, h.digits, fun ch hch => ?_⟩
    exact (Bool.or_eq_false_iff.mp (isNameChar_spaced hch)).2
  exact ⟨_, number_run h₁ hrun h, .inl rfl⟩

/-- A run of digits is read as a number, unless it is empty or has a digit too high for its base. -/
theorem number_outcome (hb : blanks c = .ok () c₁) (h : DigitRun c₁.unread run rest) :
    (run = [] ∧ number c = .error (.unexpected "number" rest.head?) c₁) ∨
    (∃ w, Spells run w ∧ number c = .ok w { c₁ with unread := rest }) ∨
    ∃ bad c', (run.head? = some '0' ∧ run.find? (· > '7') = some bad) ∧
      number c = .error (.invalidOctalDigit bad) c' := by
  by_cases hne : run = []
  · subst hne
    have hrest : c₁.unread = rest := h.split
    exact .inl ⟨rfl, hrest ▸ number_none hb h⟩
  · right
    by_cases hvalid : run.head? = some '0' → ∀ digit ∈ run, digit ≤ '7'
    · have hw : Spells run (Int64.ofNat (Nat.ofDigitChars (runBase run) run 0)) :=
        h.spells_iff.mpr ⟨hne, hvalid, Word.eq_ofNat_iff.mp rfl⟩
      exact .inl ⟨_, hw, number_run hb h hw⟩
    · obtain ⟨hzero, hhigh⟩ := Classical.not_imp.mp hvalid
      have hfind : (run.find? (· > '7')).isSome := by
        simpa [List.find?_isSome] using hhigh
      obtain ⟨bad, hbad⟩ := Option.isSome_iff_exists.mp hfind
      obtain ⟨c', hc'⟩ := number_bad hb h hzero hbad
      exact .inr ⟨bad, c', ⟨hzero, hbad⟩, hc'⟩

theorem number_eq_ok_iff {w : Word} {c' : Cursor} (hb : blanks c = .ok () c₁)
    (h : DigitRun c₁.unread run rest) :
    number c = .ok w c' ↔ Spells run w ∧ c' = { c₁ with unread := rest } := by
  constructor
  · intro hok
    rcases number_outcome hb h with ⟨_, hn⟩ | ⟨_, hw, hn⟩ | ⟨_, _, _, hn⟩ <;>
      cases hn.symm.trans hok
    exact ⟨hw, rfl⟩
  · rintro ⟨hw, rfl⟩
    exact number_run hb h hw

theorem number_eq_invalid_iff {bad : Char} (hb : blanks c = .ok () c₁)
    (h : DigitRun c₁.unread run rest) :
    (∃ c', number c = .error (.invalidOctalDigit bad) c') ↔
      run.head? = some '0' ∧ run.find? (· > '7') = some bad := by
  constructor
  · rintro ⟨c', hfail⟩
    rcases number_outcome hb h with ⟨_, hn⟩ | ⟨_, _, hn⟩ | ⟨_, _, hbad, hn⟩ <;>
      cases hn.symm.trans hfail
    exact hbad
  · rintro ⟨hzero, hbad⟩
    exact number_bad hb h hzero hbad

theorem number_eq_unexpected_iff {expected : String} {found : Option Char} {c' : Cursor}
    (hb : blanks c = .ok () c₁) (h : DigitRun c₁.unread run rest) :
    number c = .error (.unexpected expected found) c' ↔
      run = [] ∧ expected = "number" ∧ found = rest.head? ∧ c' = c₁ := by
  constructor
  · intro hfail
    rcases number_outcome hb h with ⟨hempty, hn⟩ | ⟨_, _, hn⟩ | ⟨_, _, _, hn⟩ <;>
      cases hn.symm.trans hfail
    exact ⟨hempty, rfl, rfl, rfl⟩
  · rintro ⟨rfl, rfl, rfl, rfl⟩
    have hrest : c'.unread = rest := h.split
    exact hrest ▸ number_none hb h

/-- The reader of numbers takes the longest run of digits. It gives the word that the run stands
for, in base eight behind a leading zero, up to a multiple of the number of words. It fails for the
first digit above seven behind a leading zero, and where there is no digit, without reading any
further than the blanks. So every spelling of a word is read as that word. -/
theorem number_scans (hb : blanks c = .ok () c₁) :
    ∃ run rest, DigitRun c₁.unread run rest ∧
      (∀ w c', number c = .ok w c' ↔
        (run ≠ [] ∧ (run.head? = some '0' → ∀ digit ∈ run, digit ≤ '7') ∧
          w.toInt % Int64.size = Nat.ofDigitChars (runBase run) run 0 % Int64.size) ∧
        c' = { c₁ with unread := rest }) ∧
      (∀ bad, (∃ c', number c = .error (.invalidOctalDigit bad) c') ↔
        run.head? = some '0' ∧ run.find? (· > '7') = some bad) ∧
      (∀ expected found c', number c = .error (.unexpected expected found) c' ↔
        run = [] ∧ expected = "number" ∧ found = rest.head? ∧ c' = c₁) ∧
      ∀ (n : Numeral) (after : List Char), (∀ ch ∈ after.head?, isDigit ch = false) →
        ∀ text ∈ [n.word.decimal, n.octal], c₁.unread = text.toList ++ after →
          number c = .ok n.word { c₁ with unread := after } := by
  have h := DigitRun.of_text c₁.unread
  refine ⟨_, _, h, fun w c' => ?_, fun bad => number_eq_invalid_iff hb h,
    fun expected found c' => number_eq_unexpected_iff hb h, ?_⟩
  · rw [← h.spells_iff]
    exact number_eq_ok_iff hb h
  · intro n after hafter text htext hu
    have hspells : Spells text.toList n.word := by
      simp only [List.mem_cons, List.not_mem_nil, or_false] at htext
      rcases htext with rfl | rfl
      · exact n.spells_decimal
      · exact n.spells_octal
    exact number_run hb ⟨hu, hspells.digits, hafter⟩ hspells

/-- One more than the number of words is read as one. -/
theorem number_scans_wrapped :
    blanks (.ofText "/* */ 18446744073709551617;" 8) =
        .ok () ⟨"18446744073709551617;".toList, 1, 8⟩ ∧
      number (.ofText "/* */ 18446744073709551617;" 8) = .ok 1 ⟨[';'], 1, 8⟩ := by
  have hb : blanks (.ofText "/* */ 18446744073709551617;" 8) =
      .ok () ⟨"18446744073709551617;".toList, 1, 8⟩ := rfl
  obtain ⟨run, rest, h, hok, _⟩ := number_scans hb
  have hrun : "18446744073709551617".toList = run := by
    rw [← h.takeWhile]
    decide
  subst hrun
  have htext : "18446744073709551617".toList ++ [';'] = "18446744073709551617;".toList := by decide
  have hrest : [';'] = rest := List.append_cancel_left (htext.trans h.split)
  subst hrest
  exact ⟨hb, (hok 1 _).mpr ⟨⟨by decide, by decide, by decide⟩, rfl⟩⟩

end Scan
end BCompiler
