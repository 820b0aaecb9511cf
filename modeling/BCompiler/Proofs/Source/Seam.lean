import BCompiler.Proofs.Relation
import BCompiler.Proofs.Source.Mark
import BCompiler.Proofs.Source.Statement

/-!
Reading on both sides of a seam.

Two texts with a common part are read side by side. As long as the readers are in the common part,
they find the same. At its end the texts are divided from it by a blank, and behind blanks and
comments both go on in the same way, except that the text on the left may end where the one on the
right goes on with a further declaration.
-/
namespace BCompiler

/-- What comes behind the seam on the right where the text on the left ends: nothing, or a
declaration that does not begin with the word for the other arm of a conditional. -/
structure Sequel (extra : List Char) : Prop where
  letter : extra = [] ∨ extra.head?.any isNameStart
  declares : leadingName extra ≠ "else".toList

/-- Two texts that may stand behind the same one. -/
structure Joint (extra w w' : List Char) : Prop where
  left : Detached w
  right : Detached w'
  across : ∀ r, afterBlanks .text w = some r →
    afterBlanks .text w' = some (r ++ extra) ∧ (r = [] ∨ extra = [])

/-- Two places before the seam, in the same zone of the common text. -/
inductive Abreast (extra : List Char) (zone : Zone) : Cursor → Cursor → Prop
  | mk {u w w' : List Char} {line line' size : Nat} : Joint extra w w' → Closes zone w u →
      Abreast extra zone ⟨u ++ w, line, size⟩ ⟨u ++ w', line', size⟩

/-- Two places before the seam, where the same character of the common text comes next. -/
inductive Ahead (extra : List Char) (c : Char) : Cursor → Cursor → Prop
  | mk {u w w' : List Char} {line line' size : Nat} : Joint extra w w' → Solid (c :: u) →
      Closes (.code .text) w (c :: u) →
      Ahead extra c ⟨c :: (u ++ w), line, size⟩ ⟨c :: (u ++ w'), line', size⟩

/-- Two places behind the seam, where the text on the left ends. -/
inductive AtEnd (extra : List Char) : Cursor → Cursor → Prop
  | mk {line line' size : Nat} : AtEnd extra ⟨[], line, size⟩ ⟨extra, line', size⟩

/-- Two places in the code. -/
def Level (extra : List Char) (c c' : Cursor) : Prop :=
  Abreast extra (.code .text) c c' ∨ AtEnd extra c c'

/-- Two places in the code where blanks have been skipped. -/
def Met (extra : List Char) (c c' : Cursor) : Prop :=
  (∃ first, Ahead extra first c c') ∨ AtEnd extra c c'

section Places

variable {extra : List Char} {first : Char} {c c' : Cursor}

theorem Ahead.abreast (h : Ahead extra first c c') : Abreast extra (.code .text) c c' := by
  obtain ⟨hj, _, hclose⟩ := h
  exact .mk hj hclose

theorem AtEnd.left (h : AtEnd extra c c') : c.unread = [] := by
  cases h
  rfl

theorem AtEnd.right (h : AtEnd extra c c') : c'.unread = extra := by
  cases h
  rfl

theorem AtEnd.size (h : AtEnd extra c c') : c'.wordSize = c.wordSize := by
  cases h
  rfl

theorem Met.level (h : Met extra c c') : Level extra c c' := by
  rcases h with ⟨_, h⟩ | h
  · exact .inl h.abreast
  · exact .inr h

theorem joint_nil : Joint [] [] [] :=
  ⟨detached_nil, detached_nil, fun r hr => ⟨by rw [List.append_nil]; exact hr, .inr rfl⟩⟩

theorem abreast_of_unread {zone : Zone} {u w w' : List Char} (hsize : c'.wordSize = c.wordSize)
    (hu : c.unread = u ++ w) (hu' : c'.unread = u ++ w') (hj : Joint extra w w')
    (hclose : Closes zone w u) : Abreast extra zone c c' := by
  obtain ⟨_, line, size⟩ := c
  obtain ⟨_, line', _⟩ := c'
  cases hsize
  cases hu
  cases hu'
  exact .mk hj hclose

theorem wordSize_pushBackAll (chars : List Char) (c : Cursor) :
    (c.pushBackAll chars).wordSize = c.wordSize := by
  induction chars with
  | nil => rfl
  | cons ch chars ih => exact ih

/-- Both sides skip as much of the common text. -/
theorem abreast_skip {u w w' : List Char} {line line' size n : Nat} (hj : Joint extra w w')
    (hn : n ≤ u.length) (hclose : Closes (.code .text) w (u.drop n)) :
    Abreast extra (.code .text) (Cursor.skip n ⟨u ++ w, line, size⟩)
      (Cursor.skip n ⟨u ++ w', line', size⟩) := by
  unfold Cursor.skip
  rw [List.drop_append_of_le_length hn, List.drop_append_of_le_length hn]
  exact .mk hj hclose

/-- A word at the head of the common text is skipped on both sides. -/
theorem abreast_word {u w w' word : List Char} (line line' size : Nat) (hj : Joint extra w w')
    (hclose : Closes (.code .text) w u) (hp : word <+: u) (hword : ∀ c ∈ word, isNameChar c) :
    Abreast extra (.code .text) (Cursor.skip word.length ⟨u ++ w, line, size⟩)
      (Cursor.skip word.length ⟨u ++ w', line', size⟩) :=
  abreast_skip hj hp.length_le (hclose.imp (endsInCode_drop hp hword).trans)

/-- The line does not matter. -/
theorem level_of_unread (hsize : c'.wordSize = c.wordSize) (hu : c'.unread = c.unread) :
    Level [] c c' :=
  .inl (abreast_of_unread hsize (List.append_nil _).symm (hu.trans (List.append_nil _).symm)
    joint_nil (.inl rfl))

theorem ahead_refl {text : List Char} (hsolid : Solid (first :: text)) (line line' size : Nat) :
    Ahead [] first ⟨first :: text, line, size⟩ ⟨first :: text, line', size⟩ := by
  have h : Ahead [] first ⟨first :: (text ++ []), line, size⟩
      ⟨first :: (text ++ []), line', size⟩ := .mk joint_nil hsolid (.inl rfl)
  rwa [List.append_nil] at h

/-- A word is read off the head of both texts alike. -/
theorem Ahead.word {word : List Char → List Char} (h : Ahead extra first c c')
    (happend : ∀ {w}, Detached w → ∀ u, word (u ++ w) = word u) (hinitial : ∀ u, word u <+: u)
    (hchars : ∀ u, ∀ c ∈ word u, isNameChar c) :
    word c'.unread = word c.unread ∧ ∀ part, part <+: word c.unread →
      Abreast extra (.code .text) (c.skip part.length) (c'.skip part.length) := by
  obtain ⟨hj, -, hclose⟩ := h
  rename_i u w w' line line' size
  have hleft : word (first :: (u ++ w)) = word (first :: u) := happend hj.left (first :: u)
  have hright : word (first :: (u ++ w')) = word (first :: u) := happend hj.right (first :: u)
  refine ⟨hright.trans hleft.symm, fun part hpart => ?_⟩
  rw [hleft] at hpart
  exact abreast_word line line' size hj hclose (hpart.trans (hinitial _)) fun c hc =>
    hchars _ c (hpart.subset hc)

theorem Ahead.leadingName (h : Ahead extra first c c') :
    BCompiler.leadingName c'.unread = BCompiler.leadingName c.unread ∧
      ∀ part, part <+: BCompiler.leadingName c.unread →
        Abreast extra (.code .text) (c.skip part.length) (c'.skip part.length) :=
  h.word leadingName_append_detached leadingName_isPrefix fun _ _ => isNameChar_of_mem_leadingName

theorem Ahead.digits (h : Ahead extra first c c') :
    c'.unread.takeWhile isDigit = c.unread.takeWhile isDigit ∧
      ∀ part, part <+: c.unread.takeWhile isDigit →
        Abreast extra (.code .text) (c.skip part.length) (c'.skip part.length) := by
  refine h.word (takeWhile_append_detached fun _ => isDigit_of_isBlank)
    (fun _ => List.takeWhile_prefix _) fun u c hc => ?_
  exact Bool.or_eq_true_iff.mpr (.inr (List.all_eq_true.mp List.all_takeWhile c hc))

end Places

namespace Scan

variable {extra : List Char} {α : Type}

theorem blanks_relates (hextra : Sequel extra) :
    Relates (Level extra) (fun _ _ => Met extra) blanks blanks := by
  refine .or ?_ ?_
  · rintro _ _ _ ⟨r, line₁, size₁⟩ ⟨hj, hclose⟩ h
    rename_i u w w' line line' size
    obtain ⟨hr, hsize⟩ := afterBlanks_of_blanks h
    cases hsize
    -- The blanks end within the common text, or they reach into what comes behind it.
    rcases afterBlanks_append hj.left hclose hr with
      ⟨first, v, hsolid, hv, rfl, hother⟩ | ⟨hw, hother⟩
    · obtain ⟨line₂, h'⟩ := afterBlanks_iff.mp (hother w' hj.right)
      exact ⟨(), _, h', .inl ⟨first, .mk hj hsolid hv⟩⟩
    · obtain ⟨hw', hrest⟩ := hj.across r hw
      obtain ⟨line₂, h'⟩ := afterBlanks_iff.mp ((hother w').trans hw')
      refine ⟨(), _, h', ?_⟩
      cases r with
      | nil => exact .inr .mk
      | cons first v =>
          obtain rfl : extra = [] := hrest.resolve_left (List.cons_ne_nil first v)
          rw [List.append_nil]
          exact .inl ⟨first, ahead_refl (solid_of_afterBlanks hw) _ _ _⟩
  · rintro _ _ _ c₁ ⟨⟩ h
    cases h
    rcases hextra.letter with rfl | hletter
    · exact ⟨(), _, rfl, .inr .mk⟩
    · exact ⟨(), _, blanks_of_isNameStart hletter, .inr .mk⟩

/-- In front of the seam the same character is read. -/
theorem read_ahead (first : Char) :
    Relates (Ahead extra first) (fun a b c c' =>
      a = some first ∧ b = some first ∧ Abreast extra (.after first) c c') read read := by
  rintro _ _ _ _ ⟨hj, hsolid, hclose⟩ h
  cases h
  refine ⟨some first, _, rfl, rfl, rfl, .mk hj (hclose.imp fun he => ?_)⟩
  exact endsInCode_tail he (Solid.cons_iff.mp hsolid).2

theorem read_total (c : Cursor) : ∃ found c', read c = .ok found c' := by
  obtain ⟨unread, line, size⟩ := c
  cases unread with
  | nil => exact ⟨_, _, rfl⟩
  | cons first rest => exact ⟨_, _, rfl⟩

/-- The character that was read on both sides, unless the text on the left has ended. It tells the
next zone. -/
def Taken (extra : List Char) (next : Char → Zone) (a b : Option Char) (c c' : Cursor) : Prop :=
  a = none ∨ ∃ first, a = some first ∧ b = some first ∧ Abreast extra (next first) c c'

theorem Relates.taken {β : Type} {S : β → β → Cursor → Cursor → Prop} {f g : Option Char → Scan β}
    {next : Char → Zone}
    (hread : ∀ first, Relates (Abreast extra (next first)) S (f (some first)) (g (some first)))
    (hend : ∀ c a t, f none c ≠ .ok a t) (a b : Option Char) :
    Relates (Taken extra next a b) S (f a) (g b) := by
  refine .or ?_ (.of_exists fun first => .of_and ?_)
  · rintro c c' d t rfl h
    exact absurd h (hend c d t)
  · rintro rfl
    refine .of_and ?_
    rintro rfl
    exact hread first

theorem readMark_relates (hextra : Sequel extra) :
    Relates (Level extra) (Taken extra .after) readMark readMark := by
  refine (blanks_relates hextra).bind fun _ _ => .or (.of_exists fun first => ?_) ?_
  · exact (read_ahead first).post fun h => .inr ⟨first, h⟩
  · rintro c c' _ _ hend h
    obtain ⟨b, t', hb⟩ := read_total c'
    cases hend
    cases h
    exact ⟨b, t', hb, .inl rfl⟩

/-- A character of a literal is read. -/
theorem read_abreast {zone : Zone} {next : Char → Zone} (hnil : endsInCode zone [] = false)
    (hcons : ∀ c rest, endsInCode zone (c :: rest) = endsInCode (next c) rest) :
    Relates (Abreast extra zone) (Taken extra next) read read := by
  intro c c' a t habreast h
  obtain ⟨b, t', hb⟩ := read_total c'
  obtain ⟨hj, hclose⟩ := habreast
  rename_i u w w' line line' size
  cases u with
  | nil =>
      obtain rfl : w = [] := hclose.resolve_right (Bool.eq_false_iff.mp hnil)
      cases h
      exact ⟨b, t', hb, .inl rfl⟩
  | cons first rest =>
      cases h
      exact ⟨_, _, rfl, .inr ⟨first, rfl, rfl, .mk hj (hclose.imp (hcons first rest).symm.trans)⟩⟩

/-- The next character on both sides, where that on the right may be the first one of the sequel. -/
def Seen (extra : List Char) (a b : Option Char) (c c' : Cursor) : Prop :=
  (∃ first, a = some first ∧ b = some first ∧ Ahead extra first c c') ∨
    a = none ∧ (∀ first ∈ b, isNameStart first) ∧ AtEnd extra c c'

theorem peek_met (hextra : Sequel extra) : Relates (Met extra) (Seen extra) peek peek := by
  refine .or (.of_exists fun first => ?_) ?_
  · rintro _ _ _ _ ⟨hj, hsolid, hclose⟩ h
    cases h
    exact ⟨some first, _, rfl, .inl ⟨first, rfl, rfl, .mk hj hsolid hclose⟩⟩
  · rintro _ _ _ _ ⟨⟩ h
    cases h
    refine ⟨extra.head?, _, rfl, .inr ⟨rfl, ?_, .mk⟩⟩
    intro first hfirst
    rcases hextra.letter with rfl | hletter
    · cases hfirst
    · rwa [Option.mem_def.mp hfirst] at hletter

theorem peekMark_relates (hextra : Sequel extra) :
    Relates (Level extra) (Seen extra) peekMark peekMark :=
  (blanks_relates hextra).bind fun _ _ => peek_met hextra

/-- In front of the seam neither text ends. -/
theorem atEnd_met : Relates (Met extra) (fun a b c c' => a = true ∨ Agree (Level extra) a b c c')
    atEnd atEnd := by
  refine .or (.of_exists fun first => ?_) ?_
  · rintro _ _ _ _ ⟨hj, hsolid, hclose⟩ h
    cases h
    exact ⟨false, _, rfl, .inr ⟨rfl, .inl (.mk hj hclose)⟩⟩
  · rintro _ _ _ _ ⟨⟩ h
    cases h
    exact ⟨_, _, rfl, .inl rfl⟩

/-- What is seen decides how both sides go on. -/
theorem Relates.seen {β : Type} {S : β → β → Cursor → Cursor → Prop} {f g : Option Char → Scan β}
    (hahead : ∀ first, Relates (Ahead extra first) S (f (some first)) (g (some first)))
    (hend : ∀ b, (∀ first ∈ b, isNameStart first) → Relates (AtEnd extra) S (f none) (g b))
    (a b : Option Char) : Relates (Seen extra a b) S (f a) (g b) := by
  refine .or (.of_exists fun first => .of_and ?_) (.of_and ?_)
  · rintro rfl
    refine .of_and ?_
    rintro rfl
    exact hahead first
  · rintro rfl
    exact .of_and (hend b)

/-- A mark is taken on both sides or on none. -/
theorem accept_relates (hextra : Sequel extra) {mark : Char} (hmark : isNameStart mark = false) :
    Relates (Level extra) (fun a b c c' =>
      b = a ∧ (a = true → Abreast extra (.after mark) c c') ∧ (a = false → Met extra c c'))
      (accept mark) (accept mark) := by
  refine (peekMark_relates hextra).bind (Relates.seen (fun first => ?_) fun b hb => ?_)
  · split
    · next hfirst =>
        cases hfirst
        refine (read_ahead mark).bind fun _ _ => .pure fun c c' h => ?_
        exact ⟨rfl, fun _ => h.2.2, nofun⟩
    · exact .pure fun c c' h => ⟨rfl, nofun, fun _ => .inl ⟨first, h⟩⟩
  · have hne : b ≠ some mark := by
      rintro rfl
      cases (hb mark rfl).symm.trans hmark
    rw [if_neg hne]
    exact .pure fun c c' h => ⟨rfl, nofun, fun _ => .inr h⟩

theorem expect_relates (hextra : Sequel extra) {mark : Char} (hmark : Zone.after mark = .code .text)
    (place : String) :
    Relates (Level extra) (Agree (Level extra)) (expect mark place) (expect mark place) := by
  refine (readMark_relates hextra).bind (Relates.taken (fun first => ?_) fun _ _ _ => throw_ne_ok)
  split
  · next hfirst =>
      cases hfirst
      exact .pure fun c c' h => ⟨rfl, .inl (hmark ▸ h)⟩
  · exact .throw

theorem another_relates (hextra : Sequel extra) {close : Char}
    (hclose : Zone.after close = .code .text) (place : String) :
    Relates (Level extra) (Agree (Level extra)) (another close place) (another close place) := by
  refine (readMark_relates hextra).bind (Relates.taken (fun first => ?_) fun _ _ _ => throw_ne_ok)
  split
  · next hfirst =>
      cases hfirst
      exact .pure fun c c' h => ⟨rfl, .inl h⟩
  · split
    · next hfirst =>
        cases hfirst
        exact .pure fun c c' h => ⟨rfl, .inl (hclose ▸ h)⟩
    · exact .throw

/-- A mark is recognized on both sides or on none. -/
theorem head?_met (hextra : Sequel extra) {recognize : List Char → Option (α × Nat)}
    (h : Steady recognize) :
    Relates (Met extra) (fun a b c c' => b = a ∧
      (a.isSome → Abreast extra (.code .text) c c') ∧ (a = none → Met extra c c'))
      (head? recognize) (head? recognize) := by
  refine .or (.of_exists fun first => ?_) ?_
  · rintro _ _ found _ ⟨hj, hsolid, hclose⟩ hr
    rename_i u w w' line line' size
    have hw : recognize (first :: (u ++ w)) = recognize (first :: u) :=
      h.append hj.left (first :: u)
    have hw' : recognize (first :: (u ++ w')) = recognize (first :: u) :=
      h.append hj.right (first :: u)
    unfold head? at hr ⊢
    rw [hw] at hr
    rw [hw']
    cases hrec : recognize (first :: u) with
    | none =>
        rw [hrec] at hr
        cases hr
        exact ⟨none, _, rfl, rfl, nofun, fun _ => .inl ⟨first, .mk hj hsolid hclose⟩⟩
    | some mark =>
        obtain ⟨value, n⟩ := mark
        rw [hrec] at hr
        cases hr
        have hends := h.ends (Solid.cons_iff.mp hsolid).2 hrec
        refine ⟨some value, _, rfl, rfl, fun _ => ?_, nofun⟩
        exact abreast_skip hj (h.bounds _ _ _ hrec).2 (hclose.imp hends)
  · rintro _ _ found _ ⟨⟩ hr
    have hnone : recognize extra = none := by
      rcases hextra.letter with rfl | hletter
      · exact h.nil
      · exact h.letter extra hletter
    unfold head? at hr ⊢
    rw [h.nil] at hr
    rw [hnone]
    cases hr
    exact ⟨none, _, rfl, rfl, nofun, fun _ => .inr .mk⟩

theorem mark_relates (hextra : Sequel extra) {recognize : List Char → Option (α × Nat)}
    (h : Steady recognize) :
    Relates (Level extra) (Agree (Level extra)) (do blanks; head? recognize)
      (do blanks; head? recognize) := by
  refine (blanks_relates hextra).bind fun _ _ => (head?_met hextra h).post ?_
  rintro (_ | found) b c c' ⟨rfl, hsome, hnone⟩
  · exact ⟨rfl, (hnone rfl).level⟩
  · exact ⟨rfl, .inl (hsome rfl)⟩

theorem sign_relates (hextra : Sequel extra) :
    Relates (Level extra) (Agree (Level extra)) sign sign := by
  refine (blanks_relates hextra).bind fun _ _ => (head?_met hextra Sign.steady).bind ?_
  rintro (_ | found) b
  · refine .of_and ?_
    rintro rfl
    refine ((peek_met hextra).pre fun h => h.2 rfl).bind ?_
    refine Relates.seen (fun first => ?_) fun _ _ => .throw
    split
    · exact .throw
    · refine .fails fun _ _ _ _ _ h => ?_
      obtain ⟨_, _, _, h⟩ := bind_eq_ok_iff.mp h
      obtain ⟨_, _, _, h⟩ := bind_eq_ok_iff.mp h
      cases throw_ne_ok h
    · exact .pure fun c c' h => ⟨rfl, .inl h.abreast⟩
  · refine .of_and ?_
    rintro rfl
    exact .pure fun c c' h => ⟨rfl, .inl (h.1 rfl)⟩

end Scan
end BCompiler
