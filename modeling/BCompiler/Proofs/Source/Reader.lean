import BCompiler.Proofs.Source.Literal
import BCompiler.Proofs.Source.Name

/-!
How readers move along a text.

Whatever a reader does, the line that it has come to and the line ends that are left over add up to
the lines of the text. A reader that finds what it looks for has fewer characters left, and one that
fails says what is wrong with the text.
-/
namespace BCompiler

/-- Whether the error is about the text itself: neither a fault of the compiler nor about a file,
and without a place. -/
def Error.isCause : Error → Bool
  | internal _ => false
  | located _ _ _ => false
  | io _ _ => false
  | _ => true

namespace Cursor

/-- The line ends that are left over. -/
def lineEnds (c : Cursor) : Nat := c.unread.count '\n'

/-- The other place is further on in the same text. -/
structure Follows (c c' : Cursor) : Prop where
  lines : c'.line + c'.lineEnds = c.line + c.lineEnds
  forward : c.line ≤ c'.line
  size : c'.wordSize = c.wordSize
  length : c'.unread.length ≤ c.unread.length

namespace Follows

variable {c c₁ c₂ : Cursor}

theorem refl (c : Cursor) : c.Follows c := ⟨rfl, Nat.le_refl _, rfl, Nat.le_refl _⟩

theorem trans (h : c.Follows c₁) (h' : c₁.Follows c₂) : c.Follows c₂ :=
  ⟨h'.lines.trans h.lines, Nat.le_trans h.forward h'.forward, h'.size.trans h.size,
    Nat.le_trans h'.length h.length⟩

theorem skip (c : Cursor) (n : Nat) : c.Follows (c.skip n) := by
  refine ⟨?_, ?_, rfl, (List.drop_sublist n c.unread).length_le⟩
  · rw [lineEnds, line_skip, unread_skip, Nat.add_assoc, ← List.count_append,
      List.take_append_drop]
    rfl
  · rw [line_skip]
    exact Nat.le_add_right _ _

theorem cons (line wordSize : Nat) (ch : Char) (rest : List Char) :
    Follows ⟨ch :: rest, line, wordSize⟩ ⟨rest, lineAfter line ch, wordSize⟩ :=
  skip ⟨ch :: rest, line, wordSize⟩ 1

/-- A word on one line that has been read may be pushed back. -/
theorem pushBackAll (h : c.Follows c₁) {word : List Char} (hword : '\n' ∉ word)
    (hlength : c₁.unread.length + word.length ≤ c.unread.length) :
    c.Follows (c₁.pushBackAll word) := by
  induction word with
  | nil => exact h
  | cons ch word ih =>
      obtain ⟨hne, hword⟩ : '\n' ≠ ch ∧ '\n' ∉ word := by simpa using hword
      obtain ⟨hlines, hforward, hsize, _⟩ := ih hword (Nat.le_of_succ_le hlength)
      have hline : (c₁.pushBackAll (ch :: word)).line = (c₁.pushBackAll word).line :=
        if_neg (Ne.symm hne)
      have hends : (c₁.pushBackAll (ch :: word)).lineEnds = (c₁.pushBackAll word).lineEnds :=
        List.count_cons_of_ne (Ne.symm hne)
      refine ⟨by rw [hline, hends, hlines], hline ▸ hforward, hsize, ?_⟩
      rw [unread_pushBackAll, List.length_append, Nat.add_comm]
      exact hlength

end Follows
end Cursor

/-- The longest operator is not longer than the text. -/
theorem Op.head?_bounds (text : List Char) (op : Op) (n : Nat) (h : head? text = some (op, n)) :
    0 < n ∧ n ≤ text.length := by
  revert h
  fun_cases head? text <;> grind

theorem Connective.afterEquals_bounds (level : Nat) (rest : List Char) (found : Connective)
    (n : Nat) (h : afterEquals level rest = some (found, n)) : 0 < n ∧ n ≤ rest.length + 1 := by
  revert h
  fun_cases afterEquals level rest <;> grind [→ Op.head?_bounds]

theorem Connective.head?_bounds (level : Nat) (text : List Char) (found : Connective) (n : Nat)
    (h : head? level text = some (found, n)) : 0 < n ∧ n ≤ text.length := by
  revert h
  fun_cases head? level text <;> grind [→ Op.head?_bounds, → Connective.afterEquals_bounds]

theorem Sign.head?_bounds (text : List Char) (sign : Sign) (n : Nat)
    (h : head? text = some (sign, n)) : 0 < n ∧ n ≤ text.length := by
  revert h
  fun_cases head? text <;> grind

theorem Suffix.head?_bounds (text : List Char) (suffix : Suffix) (n : Nat)
    (h : head? text = some (suffix, n)) : 0 < n ∧ n ≤ text.length := by
  revert h
  fun_cases head? text <;> grind

namespace Scan

variable {α β : Type}

/-- How a reader ends that starts at `c`: further on, with at least as many characters less as its
result costs. If it fails, something is wrong with the text. -/
def Spent (c : Cursor) (cost : α → Nat) : EStateM.Result Error Cursor α → Prop
  | .ok a c' => c.Follows c' ∧ c'.unread.length + cost a ≤ c.unread.length
  | .error e c' => c.Follows c' ∧ e.isCause

def Spends (cost : α → Nat) (step : Scan α) : Prop := ∀ c, Spent c cost (step c)

namespace Spent

theorem of_le {c c₁ : Cursor} {cost cost' : α → Nat} {r : EStateM.Result Error Cursor α} {n : Nat}
    (hf : c.Follows c₁) (hle : c₁.unread.length + n ≤ c.unread.length)
    (hcost : ∀ a, cost' a ≤ n + cost a) (h : Spent c₁ cost r) : Spent c cost' r := by
  cases r with
  | ok a c' =>
      obtain ⟨h₁, hle₁⟩ := h
      have := hcost a
      exact ⟨hf.trans h₁, by omega⟩
  | error e c' => exact ⟨hf.trans h.1, h.2⟩

/-- A character is read, and then the rest. -/
theorem cons {line wordSize : Nat} {ch : Char} {rest : List Char} {cost : α → Nat}
    {r : EStateM.Result Error Cursor α} (h : Spent ⟨rest, lineAfter line ch, wordSize⟩ cost r) :
    Spent ⟨ch :: rest, line, wordSize⟩ (fun a => 1 + cost a) r :=
  h.of_le (.cons line wordSize ch rest) (Nat.le_refl _) fun _ => Nat.le_refl _

theorem mono {c : Cursor} {cost cost' : α → Nat} {r : EStateM.Result Error Cursor α}
    (h : Spent c cost r) (hcost : ∀ a, cost' a ≤ cost a) : Spent c cost' r :=
  of_le (n := 0) (.refl c) (Nat.le_refl _) (fun a => by simpa using hcost a) h

theorem free {c : Cursor} {cost : α → Nat} {r : EStateM.Result Error Cursor α}
    (h : Spent c cost r) : Spent c (fun _ => 0) r :=
  h.mono fun _ => Nat.zero_le _

end Spent

namespace Spends

theorem pure {a : α} {cost : α → Nat} (h : cost a = 0) : Spends cost (Pure.pure a : Scan α) :=
  fun c => ⟨.refl c, Nat.le_of_eq (congrArg (c.unread.length + ·) h)⟩

theorem done (a : α) : Spends (fun _ => 0) (Pure.pure a : Scan α) := .pure rfl

theorem throw {e : Error} {cost : α → Nat} (h : e.isCause) :
    Spends cost (MonadExcept.throw e : Scan α) :=
  fun c => ⟨.refl c, h⟩

theorem mono {cost cost' : α → Nat} {x : Scan α} (hx : Spends cost x)
    (h : ∀ a, cost' a ≤ cost a) : Spends cost' x :=
  fun c => (hx c).mono h

theorem free {cost : α → Nat} {x : Scan α} (hx : Spends cost x) : Spends (fun _ => 0) x :=
  hx.mono fun _ => Nat.zero_le _

theorem bind {cost : α → Nat} {cost' : β → Nat} {x : Scan α} {f : α → Scan β}
    (hx : Spends cost x) (hf : ∀ a, Spends (fun b => cost' b - cost a) (f a)) :
    Spends cost' (x >>= f) := by
  intro c
  have h := hx c
  change Spent c cost' (EStateM.bind x f c)
  unfold EStateM.bind
  cases hr : x c with
  | error e c₁ =>
      rw [hr] at h
      exact h
  | ok a c₁ =>
      rw [hr] at h
      exact (hf a c₁).of_le h.1 h.2 fun b => by omega

/-- Reading first costs nothing that counts. -/
theorem after {cost : α → Nat} {cost' : β → Nat} {x : Scan α} {f : α → Scan β}
    (hx : Spends cost x) (hf : ∀ a, Spends cost' (f a)) : Spends cost' (x >>= f) :=
  hx.bind fun a => (hf a).mono fun _ => Nat.sub_le _ _

end Spends

/-- The cost of what may be there or not. -/
def once (o : Option α) : Nat := o.isSome.toNat

theorem once_le (o : Option α) : once o ≤ 1 := Bool.toNat_le _

theorem read_spends : Spends once read := by
  rintro ⟨unread, line, wordSize⟩
  cases unread with
  | nil => exact ⟨.refl _, Nat.le_refl _⟩
  | cons ch rest => exact ⟨.cons line wordSize ch rest, Nat.le_refl _⟩

theorem peek_spends : Spends (fun _ => 0) peek := fun c => ⟨.refl c, Nat.le_refl _⟩

theorem atEnd_spends : Spends (fun _ => 0) atEnd := fun c => ⟨.refl c, Nat.le_refl _⟩

theorem skip_spent {c : Cursor} {n : Nat} {a : α} {cost : α → Nat} (hcost : cost a ≤ n)
    (hn : n ≤ c.unread.length) : Spent c cost (.ok a (c.skip n)) := by
  refine ⟨.skip c n, ?_⟩
  rw [Cursor.unread_skip, List.length_drop]
  omega

/-- A recognizer that takes at least one character, and not more than there are. -/
theorem head?_spends {recognize : List Char → Option (α × Nat)}
    (h : ∀ text a n, recognize text = some (a, n) → 0 < n ∧ n ≤ text.length) :
    Spends once (head? recognize) := by
  intro c
  unfold head?
  cases hr : recognize c.unread with
  | none => exact ⟨.refl c, Nat.le_refl _⟩
  | some found =>
      obtain ⟨hn, hle⟩ := h _ _ _ hr
      exact skip_spent hn hle

/-- From any region on, one character after the other. -/
theorem blanksFrom_spent (wordSize : Nat) (region : Region) (line : Nat) (text : List Char) :
    Spent ⟨text, line, wordSize⟩ (fun _ => 0) (blanksFrom wordSize region line text) := by
  fun_induction blanksFrom wordSize region line text with
  | case1 line => exact ⟨.refl _, Nat.le_refl _⟩
  | case2 line rest ih =>
      have hstar : Spent ⟨'*' :: rest, line, wordSize⟩ _ _ := ih.cons
      exact hstar.cons.free
  | case3 line c rest hne hblank ih => exact ih.cons.free
  | case4 line c rest hne hblank => exact ⟨.refl _, Nat.le_refl _⟩
  | case5 star line => exact ⟨.refl _, rfl⟩
  | case6 star line c rest hclose ih =>
      obtain ⟨_, rfl⟩ : star = true ∧ c = '/' := by simpa using hclose
      exact ih.cons.free
  | case7 star line c rest hclose ih => exact ih.cons.free

theorem blanks_spends : Spends (fun _ => 0) blanks := fun c =>
  blanksFrom_spent c.wordSize .text c.line c.unread

theorem readMark_spends : Spends once readMark := blanks_spends.after fun _ => read_spends

theorem peekMark_spends : Spends (fun _ => 0) peekMark := blanks_spends.after fun _ => peek_spends

/-- What is seen is still there. -/
theorem Spends.peek {cost : β → Nat} {f : Option Char → Scan β}
    (h : ∀ found c, c.unread.head? = found → Spent c cost (f found c)) :
    Spends cost (Scan.peek >>= f) := fun c => h _ c rfl

theorem Spends.peekMark {cost : β → Nat} {f : Option Char → Scan β}
    (h : ∀ found c, c.unread.head? = found → Spent c cost (f found c)) :
    Spends cost (Scan.peekMark >>= f) := by
  rw [Scan.peekMark, bind_assoc]
  exact blanks_spends.after fun _ => .peek h

/-- What was seen is there to be read. -/
theorem Spent.read {c : Cursor} {ch : Char} {cost cost' : α → Nat} {f : Option Char → Scan α}
    (hc : c.unread.head? = some ch) (h : Spends cost (f (some ch)))
    (hcost : ∀ a, cost' a ≤ 1 + cost a) : Spent c cost' ((Scan.read >>= f) c) := by
  obtain ⟨unread, line, wordSize⟩ := c
  cases unread with
  | nil => cases hc
  | cons first rest =>
      cases hc
      exact (h ⟨rest, lineAfter line ch, wordSize⟩).cons.mono hcost

theorem accept_spends (mark : Char) : Spends Bool.toNat (accept mark) := by
  refine .peekMark fun found c hc => ?_
  split
  · next hmark => exact .read (hc.trans hmark) (.done true) Bool.toNat_le
  · exact Spends.pure rfl _

theorem expect_spends (mark : Char) (place : String) : Spends (fun _ => 1) (expect mark place) := by
  refine readMark_spends.bind fun found => ?_
  split
  · next h => exact h ▸ .pure rfl
  · exact .throw rfl

theorem another_spends (close : Char) (place : String) :
    Spends (fun _ => 1) (another close place) := by
  refine readMark_spends.bind fun found => ?_
  split
  · next h => exact h ▸ .pure rfl
  · split
    · next h => exact h ▸ .pure rfl
    · exact .throw rfl

theorem length_leadingName_le (text : List Char) : (leadingName text).length ≤ text.length := by
  cases text with
  | nil => exact Nat.le_refl _
  | cons c rest =>
      rw [leadingName]
      split
      · exact Nat.succ_le_succ (List.takeWhile_sublist _).length_le
      · exact Nat.zero_le _

theorem name_spends : Spends String.length name :=
  blanks_spends.after fun _ c => skip_spent (Nat.le_of_eq String.length_ofList)
    (length_leadingName_le c.unread)

theorem someName_spends (what : String) : Spends (fun _ => 1) (someName what) := by
  refine name_spends.bind fun found => ?_
  split
  · exact peek_spends.after fun _ => .throw rfl
  · next hne =>
      refine .pure (Nat.sub_eq_zero_of_le ?_)
      exact Nat.pos_of_ne_zero fun h => hne (String.length_eq_zero_iff.mp h)

theorem keyword_spends {word : String} (h : word ≠ "") : Spends Bool.toNat (keyword word) := by
  refine blanks_spends.after fun _ c => ?_
  have hpos : 0 < word.length := Nat.pos_of_ne_zero fun hz => h (String.length_eq_zero_iff.mp hz)
  rw [keywordFrom_nil]
  split
  · next hc =>
      have hle := (List.isPrefixOf_iff_prefix.mp (Bool.and_eq_true_iff.mp hc).1).length_le
      exact skip_spent hpos (String.length_toList ▸ hle)
  · exact ⟨.refl c, Nat.le_refl _⟩

theorem number_spends : Spends (fun _ => 1) number := by
  refine blanks_spends.after fun _ c => ?_
  have hle := (List.takeWhile_sublist (l := c.unread) isDigit).length_le
  change Spent c _ (if _ then _ else if _ then _ else _)
  generalize c.unread.takeWhile isDigit = digits at hle
  split
  · exact ⟨.refl c, rfl⟩
  · next hdigits =>
      have hpos := List.length_pos_iff.mpr (mt List.isEmpty_iff.mpr hdigits)
      have hoctal := (List.takeWhile_sublist (l := digits) isOctalDigit).length_le
      split
      · dsimp only
        split
        · exact ⟨.skip c _, rfl⟩
        · next hdrop =>
            have hall := List.drop_eq_nil_iff.mp hdrop
            exact skip_spent (Nat.le_trans hpos hall) (Nat.le_trans hoctal hle)
      · exact skip_spent hpos hle

theorem escape_spends : Spends once escape := by
  refine read_spends.bind fun found => ?_
  cases found with
  | none => exact .pure rfl
  | some c =>
      dsimp only
      split
      · exact .pure rfl
      · exact .throw rfl

theorem characterFrom_spends (room : Nat) (value : Word) :
    Spends (fun _ => 1) (characterFrom room value) := by
  induction room generalizing value with
  | zero =>
      refine read_spends.bind fun found => ?_
      split
      · next h => exact h ▸ .pure rfl
      · exact .throw rfl
  | succ room ih =>
      refine read_spends.bind fun found => ?_
      split
      · exact .throw rfl
      · exact .pure rfl
      · refine escape_spends.after fun decoded => ?_
        cases decoded with
        | none => exact .throw rfl
        | some c => exact (ih _).free
      · exact (ih _).free

theorem character_spends : Spends (fun _ => 1) character := fun c =>
  characterFrom_spends c.wordSize 0 c

theorem stringFrom_spent (wordSize : Nat) (seen : List Char) (line : Nat) (text : List Char) :
    Spent ⟨text, line, wordSize⟩ (fun _ => 1) (stringFrom wordSize seen line text) := by
  fun_induction stringFrom wordSize seen line text with
  | case1 seen line => exact ⟨.refl _, rfl⟩
  | case2 seen line rest => exact ⟨.cons line wordSize '"' rest, Nat.le_refl _⟩
  | case3 seen line => exact ⟨.cons line wordSize '*' [], rfl⟩
  | case4 seen line c rest decoded hd ih =>
      have hline : lineAfter line c = line := by
        refine if_neg ?_
        rintro rfl
        cases hd
      have hescape : Cursor.Follows ⟨c :: rest, line, wordSize⟩ ⟨rest, line, wordSize⟩ := by
        simpa only [hline] using Cursor.Follows.cons line wordSize c rest
      exact ih.of_le (n := 2) ((Cursor.Follows.cons line wordSize '*' (c :: rest)).trans hescape)
        (Nat.le_refl _) fun _ => Nat.le_add_left 1 _
  | case5 seen line c rest hd =>
      have hstar := Cursor.Follows.cons line wordSize '*' (c :: rest)
      exact ⟨hstar.trans (.cons line wordSize c rest), rfl⟩
  | case6 seen line c rest h₁ h₂ h₃ ih => exact ih.cons.mono fun _ => Nat.le_add_left 1 _

theorem string_spends : Spends (fun _ => 1) string := fun c =>
  stringFrom_spent c.wordSize [] c.line c.unread

theorem constant?_spends : Spends once constant? := by
  refine .peekMark fun found c hc => ?_
  split
  · exact .read hc (character_spends.after fun _ => .done _) once_le
  · split
    · exact number_spends.bind (fun _ => .pure rfl) c
    · exact Spends.pure rfl c
  · exact Spends.pure rfl c

theorem connective_spends (level : Nat) : Spends once (connective level) :=
  blanks_spends.after fun _ => head?_spends (Connective.head?_bounds level)

theorem suffix_spends : Spends once suffix :=
  blanks_spends.after fun _ => head?_spends Suffix.head?_bounds

theorem sign_spends : Spends once sign := by
  refine blanks_spends.after fun _ => (head?_spends Sign.head?_bounds).bind fun found => ?_
  cases found with
  | some sign => exact .pure rfl
  | none =>
      refine peek_spends.after fun next => ?_
      split
      · exact .throw rfl
      · exact read_spends.after fun _ => read_spends.after fun _ => .throw rfl
      · exact .pure rfl

/-- Where a letter comes next, a name is read that stands there. -/
theorem name_of_isNameStart {c : Cursor} (hc : c.unread.head?.any isNameStart) :
    name c = .ok (String.ofList (leadingName c.unread)) (c.skip (leadingName c.unread).length) ∧
      0 < (leadingName c.unread).length := by
  constructor
  · exact bind_of_ok (blanks_of_isNameStart hc)
  · cases hu : c.unread with
    | nil =>
        rw [hu] at hc
        cases hc
    | cons first rest =>
        rw [hu, List.head?_cons, Option.any_some] at hc
        rw [leadingName, if_pos hc]
        exact Nat.succ_pos _

theorem Spent.name {c : Cursor} {cost : α → Nat} {f : String → Scan α}
    (hc : c.unread.head?.any isNameStart) (h : ∀ x, Spends cost (f x)) :
    Spent c (fun a => 1 + cost a) ((Scan.name >>= f) c) := by
  obtain ⟨hname, hpos⟩ := name_of_isNameStart hc
  rw [bind_of_ok hname]
  have hle := length_leadingName_le c.unread
  refine (h _ _).of_le (n := 1) (.skip c _) ?_ fun _ => Nat.le_refl _
  rw [Cursor.unread_skip, List.length_drop]
  omega

theorem atom_spends : Spends (fun _ => 1) atom := by
  refine constant?_spends.bind fun found => ?_
  cases found with
  | some value => exact .pure rfl
  | none =>
      refine .peek fun next c hc => ?_
      split
      · next hstart =>
          exact (Spent.name (hc ▸ hstart) fun x => peekMark_spends.after fun _ =>
            .done _)
      · refine read_spends.bind (fun found => ?_) c
        split
        · exact string_spends.after fun _ => .pure rfl
        · exact .pure rfl
        · exact .throw rfl

theorem newline_notMem_leadingName (text : List Char) : '\n' ∉ leadingName text := by
  cases text with
  | nil => exact List.not_mem_nil
  | cons c rest =>
      rw [leadingName]
      split
      · next hc =>
          intro h
          rcases List.mem_cons.mp h with rfl | h
          · cases hc
          · exact absurd (List.all_eq_true.mp (List.all_takeWhile (l := rest)) _ h) (by decide)
      · exact List.not_mem_nil

/-- What a form takes of the text; nothing of an expression is read. -/
def headCost (head : StatementHead) : Nat := if head = .expression then 0 else 1

theorem headCost_le (head : StatementHead) : headCost head ≤ 1 := by
  unfold headCost
  split
  · exact Nat.zero_le 1
  · exact Nat.le_refl 1

/-- After a word that is no keyword, a colon makes it a label. Otherwise it begins an expression
and is pushed back. -/
theorem colon_spent {c c₁ : Cursor} {word : List Char} (hf : c.Follows c₁)
    (hle : c₁.unread.length + word.length ≤ c.unread.length) (hpos : 0 < word.length)
    (hword : '\n' ∉ word) :
    Spent c headCost ((do
      if ← accept ':' then return .label (String.ofList word)
      else
        unreadAll (String.ofList word)
        return .expression : Scan StatementHead) c₁) := by
  have haccept := accept_spends ':' c₁
  cases hr : accept ':' c₁ with
  | error e c₂ =>
      rw [hr] at haccept
      rw [bind_of_error hr]
      exact ⟨hf.trans haccept.1, haccept.2⟩
  | ok colon c₂ =>
      rw [hr] at haccept
      rw [bind_of_ok hr]
      obtain ⟨hf₂, hle₂⟩ := haccept
      cases colon with
      | true =>
          refine ⟨hf.trans hf₂, ?_⟩
          have := headCost_le (.label (String.ofList word))
          omega
      | false =>
          have hback : c₂.unread.length + word.length ≤ c.unread.length := by omega
          change Spent c headCost (.ok .expression (c₂.pushBackAll (String.ofList word).toList))
          rw [String.toList_ofList]
          refine ⟨(hf.trans hf₂).pushBackAll hword hback, ?_⟩
          rw [Cursor.unread_pushBackAll, List.length_append]
          change _ + 0 ≤ _
          omega

theorem statementHead_spends : Spends headCost statementHead := by
  refine .peekMark fun found c hc => ?_
  split
  · exact Spends.throw rfl c
  · exact .read hc (Spends.done _) headCost_le
  · exact .read hc (Spends.done _) headCost_le
  · split
    · next ch _ _ hstart =>
        obtain ⟨hname, hpos⟩ := name_of_isNameStart (c := c) (hc ▸ hstart)
        have hle : (c.skip (leadingName c.unread).length).unread.length +
            (leadingName c.unread).length ≤ c.unread.length := by
          have := length_leadingName_le c.unread
          rw [Cursor.unread_skip, List.length_drop]
          omega
        rw [bind_of_ok hname]
        cases StatementHead.ofKeyword? (String.ofList (leadingName c.unread)) with
        | some head =>
            exact (Spends.done head _).of_le (.skip c _) hle
              fun head => Nat.le_trans (headCost_le head) hpos
        | none => exact colon_spent (.skip c _) hle hpos (newline_notMem_leadingName _)
    · exact Spends.pure rfl c

theorem caseConstant_spends : Spends (fun _ => 1) caseConstant := by
  refine constant?_spends.bind fun found => ?_
  cases found with
  | none => exact read_spends.after fun _ => .throw rfl
  | some value => exact (expect_spends _ _).after fun _ => .pure rfl

theorem arraySize_spends {size : Scan Word} {cost : Word → Nat} (h : Spends cost size) :
    Spends (fun _ => 1) (arraySize size) := by
  refine (accept_spends ']').bind fun found => ?_
  cases found with
  | true => exact .pure rfl
  | false => exact h.after fun value => (expect_spends _ _).bind fun _ => .pure rfl

theorem literal_spends : Spends (fun _ => 1) (do if ← accept '\'' then character else number) := by
  refine (accept_spends '\'').after fun quoted => ?_
  cases quoted with
  | true => exact character_spends
  | false => exact number_spends

theorem autoItem_spends : Spends (fun _ => 1) autoItem := by
  refine (someName_spends _).bind fun found => (accept_spends '[').after fun sized => ?_
  cases sized with
  | false => exact .pure rfl
  | true =>
      refine (arraySize_spends literal_spends).after fun _ => .pure rfl

end Scan

/-- The readers of a text, from a single character up to the parts of a statement. -/
inductive Reader : {α : Type} → Scan α → Prop
  | read : Reader Scan.read
  | peek : Reader Scan.peek
  | atEnd : Reader Scan.atEnd
  | blanks : Reader Scan.blanks
  | readMark : Reader Scan.readMark
  | peekMark : Reader Scan.peekMark
  | accept (mark : Char) : Reader (Scan.accept mark)
  | expect (mark : Char) (place : String) : Reader (Scan.expect mark place)
  | another (close : Char) (place : String) : Reader (Scan.another close place)
  | name : Reader Scan.name
  | someName (what : String) : Reader (Scan.someName what)
  | keyword {word : String} : word ≠ "" → Reader (Scan.keyword word)
  | number : Reader Scan.number
  | escape : Reader Scan.escape
  | characterFrom (room : Nat) (value : Word) : Reader (Scan.characterFrom room value)
  | character : Reader Scan.character
  | string : Reader Scan.string
  | constant? : Reader Scan.constant?
  | connective (level : Nat) : Reader (Scan.connective level)
  | suffix : Reader Scan.suffix
  | sign : Reader Scan.sign
  | atom : Reader Scan.atom
  | statementHead : Reader Scan.statementHead
  | caseConstant : Reader Scan.caseConstant
  | arraySize : Reader (Scan.arraySize Scan.number)
  | autoItem : Reader Scan.autoItem

theorem Reader.spends {α : Type} {step : Scan α} (h : Reader step) :
    step.Spends fun _ => 0 := by
  cases h with
  | read => exact Scan.read_spends.free
  | peek => exact Scan.peek_spends
  | atEnd => exact Scan.atEnd_spends
  | blanks => exact Scan.blanks_spends
  | readMark => exact Scan.readMark_spends.free
  | peekMark => exact Scan.peekMark_spends
  | accept mark => exact (Scan.accept_spends mark).free
  | expect mark place => exact (Scan.expect_spends mark place).free
  | another close place => exact (Scan.another_spends close place).free
  | name => exact Scan.name_spends.free
  | someName what => exact (Scan.someName_spends what).free
  | keyword hword => exact (Scan.keyword_spends hword).free
  | number => exact Scan.number_spends.free
  | escape => exact Scan.escape_spends.free
  | characterFrom room value => exact (Scan.characterFrom_spends room value).free
  | character => exact Scan.character_spends.free
  | string => exact Scan.string_spends.free
  | constant? => exact Scan.constant?_spends.free
  | connective level => exact (Scan.connective_spends level).free
  | suffix => exact Scan.suffix_spends.free
  | sign => exact Scan.sign_spends.free
  | atom => exact Scan.atom_spends.free
  | statementHead => exact Scan.statementHead_spends.free
  | caseConstant => exact Scan.caseConstant_spends.free
  | arraySize => exact (Scan.arraySize_spends Scan.number_spends).free
  | autoItem => exact Scan.autoItem_spends.free

namespace Cursor

/-- The places that readers come to from a given one, whether they succeed or fail. -/
inductive Visits (c : Cursor) : Cursor → Prop
  | start : Visits c c
  | ok {α : Type} {step : Scan α} {a : α} {c₁ c₂ : Cursor} :
      Visits c c₁ → Reader step → step c₁ = .ok a c₂ → Visits c c₂
  | error {α : Type} {step : Scan α} {e : Error} {c₁ c₂ : Cursor} :
      Visits c c₁ → Reader step → step c₁ = .error e c₂ → Visits c c₂

namespace Visits

variable {c c₁ c₂ : Cursor}

theorem trans (h : c.Visits c₁) (h' : c₁.Visits c₂) : c.Visits c₂ := by
  induction h' with
  | start => exact h
  | ok _ hr hs ih => exact .ok ih hr hs
  | error _ hr hs ih => exact .error ih hr hs

/-- One reader after the other, the place stays one of the same text. -/
theorem follows (h : c.Visits c₁) : c.Follows c₁ := by
  induction h with
  | start => exact .refl c
  | @ok _ _ _ c₁ _ _ hr hs ih =>
      have h := hr.spends c₁
      rw [hs] at h
      exact ih.trans h.1
  | @error _ _ _ c₁ _ _ hr hs ih =>
      have h := hr.spends c₁
      rw [hs] at h
      exact ih.trans h.1

end Visits
end Cursor
end BCompiler
