import BCompiler.Proofs.Closure

/-!
The names of blocks.

A block is named after the construct that it belongs to, with a number that no other construct has,
and after its part in the construct. A block of a label is named after the label. Different such
names have different texts: the word in front of the first point tells the kind, and the number ends
at the next one.
-/
namespace BCompiler

/-- The word that begins the name of a numbered block. -/
inductive BlockKind where
  | dead
  | unreachable
  | cond
  | ifElse
  | whileLoop
  | switch
  | case
  deriving DecidableEq, Repr

def BlockKind.word : BlockKind → String
  | dead => "dead"
  | unreachable => "unreachable"
  | cond => "cond"
  | ifElse => "if"
  | whileLoop => "while"
  | switch => "switch"
  | case => "case"

theorem BlockKind.point_not_mem_word (kind : BlockKind) : '.' ∉ kind.word.toList := by
  cases kind <;> decide

theorem BlockKind.head_word (kind : BlockKind) :
    kind.word.toList.head?.any fun c => c != 'v' && c != 'p' := by
  cases kind <;> decide

theorem BlockKind.word_ne_label (kind : BlockKind) : kind.word ≠ "label" := by
  cases kind <;> decide

theorem BlockKind.word_injective {a b : BlockKind} (h : a.word = b.word) : a = b := by
  revert h
  cases a <;> cases b <;> decide

inductive BlockName where
  | entry
  | label (name : String)
  /-- The block of a construct with a number. The part is empty if it has just one block. -/
  | numbered (kind : BlockKind) (number : Nat) (part : String)
  deriving DecidableEq, Repr

namespace BlockName

def text : BlockName → String
  | entry => "entry"
  | label name => "label." ++ name
  | numbered kind number part =>
    kind.word ++ "." ++ toString number ++ if part = "" then "" else "." ++ part

def number? : BlockName → Option Nat
  | numbered _ number _ => some number
  | _ => none

/-- The word in front of the first point. -/
def word : BlockName → String
  | entry => "entry"
  | label _ => "label"
  | numbered kind _ _ => kind.word

/-- What follows that word. -/
def rest : BlockName → List Char
  | entry => []
  | label name => '.' :: name.toList
  | numbered _ number part =>
    '.' :: ((toString number).toList ++ if part = "" then [] else '.' :: part.toList)

theorem toList_text (name : BlockName) : name.text.toList = name.word.toList ++ name.rest := by
  cases name with
  | entry => rfl
  | label name => simp [text, word, rest]
  | numbered kind number part => by_cases hp : part = "" <;> simp [text, word, rest, hp]

end BlockName

/-- A word without points is found again in front of a point or the end. -/
theorem eq_of_append_eq_append {a a' rest rest' : List Char} (ha : '.' ∉ a) (ha' : '.' ∉ a')
    (hrest : ∀ c ∈ rest.head?, c = '.') (hrest' : ∀ c ∈ rest'.head?, c = '.')
    (h : a ++ rest = a' ++ rest') : a = a' ∧ rest = rest' := by
  have htake {a rest : List Char} (ha : '.' ∉ a) (hrest : ∀ c ∈ rest.head?, c = '.') :
      (a ++ rest).takeWhile (· != '.') = a := by
    have hword : ∀ c ∈ a, (c != '.') = true := by
      intro c hc
      refine bne_iff_ne.mpr ?_
      rintro rfl
      exact ha hc
    rw [List.takeWhile_append_of_pos hword]
    cases rest with
    | nil => simp
    | cons c rest => simp [hrest c rfl]
  have hwords := congrArg (List.takeWhile (· != '.')) h
  rw [htake ha hrest, htake ha' hrest'] at hwords
  subst hwords
  exact ⟨rfl, List.append_cancel_left h⟩

theorem point_not_mem_toString (n : Nat) : '.' ∉ (toString n).toList := by
  intro hc
  have hd : '.'.isDigit := Nat.isDigit_of_mem_toDigits (by decide) (by decide)
    (Nat.toList_repr (n := n) ▸ hc)
  revert hd
  decide

namespace BlockName

theorem point_not_mem_word : ∀ name : BlockName, '.' ∉ name.word.toList
  | entry => by decide
  | label _ => (by decide : '.' ∉ "label".toList)
  | numbered kind _ _ => kind.point_not_mem_word

theorem head_rest : ∀ name : BlockName, ∀ c ∈ name.rest.head?, c = '.'
  | entry, _, hc => by cases hc
  | label _, _, hc => (Option.some.inj hc).symm
  | numbered _ _ _, _, hc => (Option.some.inj hc).symm

theorem head_suffix (part : String) :
    ∀ c ∈ (if part = "" then [] else '.' :: part.toList).head?, c = '.' := by
  split
  · exact fun _ hc => by cases hc
  · exact fun _ hc => (Option.some.inj hc).symm

theorem part_injective {part part' : String}
    (h : (if part = "" then [] else '.' :: part.toList) =
      if part' = "" then [] else '.' :: part'.toList) : part = part' := by
  split at h
  · next hp =>
      split at h
      · next hp' => rw [hp, hp']
      · cases h
  · split at h
    · cases h
    · exact String.toList_injective (List.cons.inj h).2

theorem text_injective {a b : BlockName} (h : a.text = b.text) : a = b := by
  have hlists := congrArg String.toList h
  rw [toList_text, toList_text] at hlists
  obtain ⟨hwords, hrest⟩ := eq_of_append_eq_append a.point_not_mem_word b.point_not_mem_word
    a.head_rest b.head_rest hlists
  have hword : a.word = b.word := String.toList_injective hwords
  cases a with
  | entry =>
      cases b with
      | entry => rfl
      | label _ => cases hrest
      | numbered _ _ _ => cases hrest
  | label name =>
      cases b with
      | entry => cases hrest
      | label name' => rw [String.toList_injective (List.cons.inj hrest).2]
      | numbered kind _ _ => exact absurd hword.symm kind.word_ne_label
  | numbered kind number part =>
      cases b with
      | entry => cases hrest
      | label _ => exact absurd hword kind.word_ne_label
      | numbered kind' number' part' =>
          obtain ⟨hnumbers, hparts⟩ := eq_of_append_eq_append (point_not_mem_toString number)
            (point_not_mem_toString number') (head_suffix part) (head_suffix part')
            (List.cons.inj hrest).2
          rw [BlockKind.word_injective hword, toString_injective (String.toList_injective hnumbers),
            part_injective hparts]

/-- No name of a block begins as the names of values and parameters do. -/
theorem head_text (name : BlockName) :
    name.text.toList.head?.any fun c => c != 'v' && c != 'p' := by
  have hword : name.word.toList.head?.any fun c => c != 'v' && c != 'p' := by
    cases name with
    | entry => decide
    | label _ => exact (by decide : "label".toList.head?.any fun c => c != 'v' && c != 'p')
    | numbered kind _ _ => exact kind.head_word
  rw [toList_text, List.head?_append]
  cases hc : name.word.toList.head? with
  | none =>
      rw [hc] at hword
      cases hword
  | some c => rwa [hc] at hword

end BlockName

theorem ne_minus_append {n : Nat} {text : String} : toString n ≠ "-" ++ text := by
  intro h
  have hc : '-' ∈ (toString n).toList := by
    rw [h, String.toList_append]
    exact List.mem_append_left _ (by decide)
  have hd : '-'.isDigit := Nat.isDigit_of_mem_toDigits (by decide) (by decide)
    (Nat.toList_repr (n := n) ▸ hc)
  revert hd
  decide

theorem int_toString_injective {a b : Int} (h : toString a = toString b) : a = b := by
  cases a with
  | ofNat m =>
      cases b with
      | ofNat n => rw [toString_injective h]
      | negSucc n => exact absurd h ne_minus_append
  | negSucc m =>
      cases b with
      | ofNat n => exact absurd h.symm ne_minus_append
      | negSucc n => rw [Nat.succ.inj (toString_injective (string_append_left_cancel h))]

theorem Word.decimal_ne_empty (w : Word) : w.decimal ≠ "" := by
  unfold Word.decimal
  cases w.toInt with
  | ofNat n => exact Nat.repr_ne_empty
  | negSucc n => exact fun h => absurd (String.append_eq_empty_iff.mp h).1 (by decide)

theorem Word.decimal_injective {a b : Word} (h : a.decimal = b.decimal) : a = b :=
  Int64.toInt_inj.mp (int_toString_injective h)

end BCompiler
