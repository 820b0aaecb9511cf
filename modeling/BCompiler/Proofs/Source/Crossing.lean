import BCompiler.Proofs.Source.Seam

/-!
Words, literals and the beginnings of statements on both sides of a seam.

Each reader finds the same in the common text and leaves the two texts at places that belong
together. A name at the end of the text on the left is the one place where the readers part.
-/
namespace BCompiler
namespace Scan

variable {extra : List Char}

/-- Nothing is skipped where a character of the common text comes next. -/
theorem blanks_ahead (first : Char) :
    Relates (Ahead extra first) (fun _ _ => Ahead extra first) blanks blanks := by
  rintro _ _ _ _ ⟨hj, hsolid, hclose⟩ h
  cases h.symm.trans (Solid.blanks (hsolid.append hj.left))
  exact ⟨(), _, Solid.blanks (hsolid.append hj.right), .mk hj hsolid hclose⟩

theorem leadingName_ahead (first : Char) :
    Relates (Ahead extra first) (Agree (Abreast extra (.code .text)))
      (fun c => .ok (String.ofList (leadingName c.unread)) (c.skip (leadingName c.unread).length))
      (fun c => .ok (String.ofList (leadingName c.unread))
        (c.skip (leadingName c.unread).length)) := by
  intro c c' _ _ hahead h
  cases h
  obtain ⟨hname, hskip⟩ := hahead.leadingName
  refine ⟨_, _, rfl, by rw [hname], ?_⟩
  rw [hname]
  exact hskip _ List.prefix_rfl

theorem name_ahead {first : Char} (hfirst : isNameStart first) :
    Relates (Ahead extra first) (fun a b c c' => isName a ∧
      Agree (Abreast extra (.code .text)) a b c c') name name := by
  intro c c' a t hahead h
  have hname : isName a := by
    refine isName_of_name ?_ h
    cases hahead
    exact hfirst
  have hrelates : Relates (Ahead extra first) (Agree (Abreast extra (.code .text))) name name :=
    (blanks_ahead first).bind fun _ _ => leadingName_ahead first
  obtain ⟨b, t', hb, hagree⟩ := hrelates c c' a t hahead h
  exact ⟨b, t', hb, hname, hagree⟩

theorem name_relates (hextra : Sequel extra) :
    Relates (Level extra) (fun a b c c' => Agree (Abreast extra (.code .text)) a b c c' ∨ a = "")
      name name := by
  refine (blanks_relates hextra).bind fun _ _ => .or (.of_exists fun first => ?_) ?_
  · exact (leadingName_ahead first).post .inl
  · rintro _ _ _ _ ⟨⟩ h
    cases h
    exact ⟨_, _, rfl, .inr String.ofList_nil⟩

theorem someName_relates (hextra : Sequel extra) (what : String) :
    Relates (Level extra) (Agree (Level extra)) (someName what) (someName what) := by
  refine (name_relates hextra).bind fun a b => .or (.of_and ?_) ?_
  · rintro rfl
    split
    · refine .fails fun _ _ _ _ _ h => ?_
      obtain ⟨_, _, _, h⟩ := bind_eq_ok_iff.mp h
      cases throw_ne_ok h
    · exact .pure fun c c' h => ⟨rfl, .inl h⟩
  · rintro c c' _ _ rfl h
    obtain ⟨_, _, _, h⟩ := bind_eq_ok_iff.mp h
    cases throw_ne_ok h

/-- The word for the other arm of a conditional is found on both sides or on none. -/
theorem else_relates (hextra : Sequel extra) :
    Relates (Level extra) (Agree (Level extra)) (keyword "else") (keyword "else") := by
  intro c c' found t hlevel h
  have hword : isName "else" := by decide
  obtain ⟨_, c₁, hb, _⟩ := bind_eq_ok_iff.mp h
  obtain ⟨_, c₁', hb', hmet⟩ := blanks_relates hextra c c' () c₁ hlevel hb
  by_cases he : leadingName c₁.unread = "else".toList
  · cases h.symm.trans (keyword_true ⟨"else", hword⟩ hb he)
    rcases hmet with ⟨first, hahead⟩ | hend
    · obtain ⟨hname, hskip⟩ := hahead.leadingName
      refine ⟨true, _, keyword_true ⟨"else", hword⟩ hb' (hname.trans he), rfl, .inl ?_⟩
      have hskip := hskip _ List.prefix_rfl
      rwa [he, String.length_toList] at hskip
    · -- Nothing is left on the left, so no word was found there.
      cases hend
      exact absurd (congrArg List.length he) (show (0 : Nat) ≠ "else".toList.length by decide)
  · cases h.symm.trans (keyword_false ⟨"else", hword⟩ hb he)
    refine ⟨false, c₁', keyword_false ⟨"else", hword⟩ hb' ?_, rfl, hmet.level⟩
    rcases hmet with ⟨first, hahead⟩ | hend
    · exact fun he' => he (hahead.leadingName.1.symm.trans he')
    · cases hend
      exact hextra.declares

theorem number_relates (hextra : Sequel extra) :
    Relates (Level extra) (Agree (Level extra)) number number := by
  refine (blanks_relates hextra).bind fun _ _ => .or (.of_exists fun first => ?_) ?_
  · intro c c' value c₁ hahead h
    obtain ⟨hdigits, hskip⟩ := hahead.digits
    dsimp only at h ⊢
    rw [hdigits]
    generalize c.unread.takeWhile isDigit = digits at h hskip ⊢
    split at h
    · cases h
    · next hempty =>
        rw [if_neg hempty]
        split at h
        · next hzero =>
            rw [if_pos hzero]
            cases hrest : digits.drop (digits.takeWhile isOctalDigit).length with
            | cons bad rest =>
                rw [hrest] at h
                cases h
            | nil =>
                rw [hrest] at h
                cases h
                exact ⟨_, _, rfl, rfl, .inl (hskip _ (List.takeWhile_prefix _))⟩
        · next hzero =>
            rw [if_neg hzero]
            cases h
            exact ⟨_, _, rfl, rfl, .inl (hskip digits List.prefix_rfl)⟩
  · rintro _ _ _ _ ⟨⟩ h
    cases h

theorem characterFrom_relates (room : Nat) (value : Word) :
    Relates (Abreast extra (.quoted '\'')) (Agree (Level extra)) (characterFrom room value)
      (characterFrom room value) := by
  have hread : Relates (Abreast extra (.quoted '\'')) (Taken extra (.inside '\'')) read read :=
    read_abreast rfl fun _ _ => rfl
  induction room generalizing value with
  | zero =>
      refine hread.bind (Relates.taken (fun first => ?_) fun _ _ _ => throw_ne_ok)
      split
      · next hfirst =>
          cases hfirst
          exact .pure fun c c' h => ⟨rfl, .inl h⟩
      · exact .throw
  | succ room ih =>
      refine hread.bind (Relates.taken (fun first => ?_) fun _ _ _ => throw_ne_ok)
      split
      · exact .throw
      · next hfirst =>
          cases hfirst
          exact .pure fun c c' h => ⟨rfl, .inl h⟩
      · next hfirst =>
          cases hfirst
          have hescaped : Relates (Abreast extra (.escaped '\''))
              (Taken extra fun _ => .quoted '\'') read read := read_abreast rfl fun _ _ => rfl
          unfold escape
          rw [bind_assoc]
          refine hescaped.bind (Relates.taken (fun letter => ?_) fun _ _ _ => throw_ne_ok)
          dsimp only
          cases escaped? letter with
          | none => exact .fails fun _ _ _ _ _ => throw_ne_ok
          | some decoded => exact ih _
      · next found hquote hstar hfirst =>
          cases hfirst
          -- Any other character leaves both texts within the literal.
          have hzone : Zone.inside '\'' first = .quoted '\'' := by
            simp only [Zone.inside, beq_iff_eq]
            rw [if_neg hquote, if_neg hstar]
          rw [hzone]
          exact ih _

theorem string_relates :
    Relates (Abreast extra (.quoted '"')) (Agree (Level extra)) string string := by
  rintro _ _ value c₁ ⟨hj, hclose⟩ h
  rename_i u w w' line line' size
  obtain ⟨rest, hrest, ⟨line₁, rfl⟩, hother⟩ := stringFrom_append hclose h
  obtain ⟨line₂, h'⟩ := hother line' w'
  exact ⟨value, _, h', rfl, .inl (.mk hj hrest)⟩

theorem character_relates :
    Relates (Abreast extra (.quoted '\'')) (Agree (Level extra)) character character := by
  rintro _ _ value t ⟨hj, hclose⟩ h
  exact characterFrom_relates _ 0 _ _ value t (.mk hj hclose) h

/-- A constant is found on both sides or on none. -/
theorem constant?_relates (hextra : Sequel extra) :
    Relates (Level extra) (fun a b c c' => b = a ∧ (a.isSome → Level extra c c') ∧
      (a = none → Met extra c c')) constant? constant? := by
  refine (peekMark_relates hextra).bind (Relates.seen (fun first => ?_) fun b hb => ?_)
  · split
    · next hfirst =>
        cases hfirst
        refine (read_ahead _).bind fun _ _ => ?_
        refine (character_relates.pre fun h => h.2.2).bind_agree fun value => ?_
        exact .pure fun c c' h => ⟨rfl, fun _ => h, nofun⟩
    · next c hquote hfirst =>
        cases hfirst
        split
        · refine ((number_relates hextra).pre fun h => .inl h.abreast).bind_agree fun value => ?_
          exact .pure fun c c' h => ⟨rfl, fun _ => h, nofun⟩
        · exact .pure fun c c' h => ⟨rfl, nofun, fun _ => .inl ⟨_, h⟩⟩
    · next hfirst => cases hfirst
  · cases b with
    | none => exact .pure fun c c' h => ⟨rfl, nofun, fun _ => .inr h⟩
    | some first =>
        have hstart := hb first rfl
        have hquote : first ≠ '\'' := ne_of_isNameStart hstart rfl
        simp only [isDigit_eq_false_of_isNameStart hstart, Bool.false_eq_true, if_false]
        exact .pure fun c c' h => ⟨rfl, nofun, fun _ => .inr h⟩

theorem atom_relates (hextra : Sequel extra) :
    Relates (Level extra) (Agree (Level extra)) atom atom := by
  refine (constant?_relates hextra).bind ?_
  rintro (_ | value) b
  · refine .of_and ?_
    rintro rfl
    refine ((peek_met hextra).pre fun h => h.2 rfl).bind ?_
    refine Relates.seen (fun first => ?_) fun b hb => ?_
    · split
      · next hfirst =>
        refine ((name_ahead hfirst).post And.right).bind_agree fun found => ?_
        refine ((peekMark_relates hextra).pre .inl).bind ?_
        refine Relates.seen (fun next => ?_) fun b hb => ?_
        · exact .pure fun c c' h => ⟨rfl, .inl h.abreast⟩
        · have hb : (b == some '(') = false := by
            refine beq_false_of_ne ?_
            rintro rfl
            cases hb _ rfl
          rw [hb]
          exact .pure fun c c' h => ⟨rfl, .inr h⟩
      · refine (read_ahead first).bind fun a b => .of_and ?_
        rintro rfl
        refine .of_and ?_
        rintro rfl
        split
        · next hfirst =>
            cases hfirst
            exact string_relates.bind_agree fun text => .pure fun c c' h => ⟨rfl, h⟩
        · next hfirst =>
            cases hfirst
            exact .pure fun c c' h => ⟨rfl, .inl h⟩
        · exact .throw
    · refine .fails fun c c' a t hend h => ?_
      cases hend
      cases h
  · refine .of_and ?_
    rintro rfl
    exact .pure fun c c' h => ⟨rfl, h.1 rfl⟩

theorem caseConstant_relates (hextra : Sequel extra) :
    Relates (Level extra) (Agree (Level extra)) caseConstant caseConstant := by
  refine (constant?_relates hextra).bind ?_
  rintro (_ | value) b
  · refine .fails fun _ _ _ _ _ h => ?_
    obtain ⟨_, _, _, h⟩ := bind_eq_ok_iff.mp h
    cases throw_ne_ok h
  · refine .of_and ?_
    rintro rfl
    refine ((expect_relates hextra rfl _).pre fun h => h.1 rfl).bind_agree fun _ => ?_
    exact .pure fun c c' h => ⟨rfl, h⟩

theorem arraySize_relates (hextra : Sequel extra) {size : Scan Word}
    (h : Relates (Level extra) (Agree (Level extra)) size size) :
    Relates (Level extra) (Agree (Level extra)) (arraySize size) (arraySize size) := by
  refine (accept_relates hextra rfl).bind fun a b => .of_and ?_
  rintro rfl
  cases b with
  | true => exact .pure fun c c' h => ⟨rfl, .inl (h.1 rfl)⟩
  | false =>
      refine (h.pre fun h => (h.2 rfl).level).bind_agree fun value => ?_
      refine (expect_relates hextra rfl _).bind_agree fun _ => ?_
      exact .pure fun c c' h => ⟨rfl, h⟩

theorem autoItem_relates (hextra : Sequel extra) :
    Relates (Level extra) (Agree (Level extra)) autoItem autoItem := by
  have hliteral : Relates (Level extra) (Agree (Level extra))
      (do if ← accept '\'' then character else number)
      (do if ← accept '\'' then character else number) := by
    refine (accept_relates hextra rfl).bind fun a b => .of_and ?_
    rintro rfl
    cases b with
    | true => exact character_relates.pre fun h => h.1 rfl
    | false => exact (number_relates hextra).pre fun h => (h.2 rfl).level
  refine (someName_relates hextra _).bind_agree fun found => ?_
  refine (accept_relates hextra rfl).bind fun a b => .of_and ?_
  rintro rfl
  cases b with
  | true =>
      have hsize := arraySize_relates hextra hliteral
      refine (hsize.pre fun h => .inl (h.1 rfl)).bind_agree fun size => ?_
      exact .pure fun c c' h => ⟨rfl, h⟩
  | false => exact .pure fun c c' h => ⟨rfl, (h.2 rfl).level⟩

/-- A name is pushed back in front of the common text, or in front of nothing. -/
theorem unreadAll_met {word : String} (hword : isName word) :
    Relates (Met extra) (fun _ _ c c' => Level extra c c' ∨ ∃ x : Name, c.At [x.text])
      (unreadAll word) (unreadAll word) := by
  refine .or (.of_exists fun first => ?_) ?_
  · rintro _ _ _ _ ⟨hj, hsolid, hclose⟩ h
    rename_i u w w' line line' size
    cases h
    refine ⟨(), _, rfl, .inl (.inl ?_)⟩
    refine abreast_of_unread (u := word.toList ++ first :: u) ?_ ?_ ?_ hj ?_
    · rw [wordSize_pushBackAll, wordSize_pushBackAll]
    · rw [Cursor.unread_pushBackAll, List.append_assoc, List.cons_append]
    · rw [Cursor.unread_pushBackAll, List.append_assoc, List.cons_append]
    · exact hclose.imp (endsInCode_append (fun _ hc =>
        isInert_of_isNameChar (isNameChar_of_isName hword hc)) _).trans
  · rintro _ _ _ _ ⟨⟩ h
    cases h
    refine ⟨(), _, rfl, .inr ⟨⟨word, hword⟩, .inr ?_⟩⟩
    rw [Cursor.unread_pushBackAll]
    rfl

/-- The beginning of a statement is the same on both sides, unless the text on the left ends with a
name, which is then no statement. -/
theorem statementHead_relates (hextra : Sequel extra) :
    Relates (Level extra) (fun a b c c' => Agree (Level extra) a b c c' ∨
      a = .expression ∧ ∃ x : Name, c.At [x.text]) statementHead statementHead := by
  refine (peekMark_relates hextra).bind (Relates.seen (fun first => ?_) fun _ _ => .throw)
  split
  · exact .throw
  · next hfirst =>
      cases hfirst
      exact (read_ahead _).bind fun _ _ => .pure fun c c' h => .inl ⟨rfl, .inl h.2.2⟩
  · next hfirst =>
      cases hfirst
      exact (read_ahead _).bind fun _ _ => .pure fun c c' h => .inl ⟨rfl, .inl h.2.2⟩
  · next ch hbrace hsemicolon hfirst =>
      cases hfirst
      split
      · next hstart =>
          refine (name_ahead hstart).bind fun _ word => .of_and fun hword => .of_and ?_
          rintro rfl
          cases StatementHead.ofKeyword? word with
          | some head => exact .pure fun c c' h => .inl ⟨rfl, .inl h⟩
          | none =>
              refine ((accept_relates hextra rfl).pre .inl).bind fun a b => .of_and ?_
              rintro rfl
              cases b with
              | true => exact .pure fun c c' h => .inl ⟨rfl, .inl (h.1 rfl)⟩
              | false =>
                  refine ((unreadAll_met hword).pre fun h => h.2 rfl).bind fun _ _ => ?_
                  exact .pure fun c c' h => h.imp (fun h => ⟨rfl, h⟩) fun h => ⟨rfl, h⟩
      · exact .pure fun c c' h => .inl ⟨rfl, .inl h.abreast⟩

end Scan
end BCompiler
