import BCompiler.Proofs.Line
import BCompiler.Proofs.Source.Crossing

/-!
Compiling on both sides of a seam.

What is built depends on the readers only, so a construct that is compiled from the text on the left
is compiled from the text on the right to the same. This goes through the grammar with the places of
the readers as the only difference between the two sides.
-/
namespace BCompiler
namespace Pass

variable {σ α β : Type} {extra : List Char}

/-- Two sites with the same built so far, whose places are in the relation. -/
def Sited (R : Cursor → Cursor → Prop) (s s' : Site σ) : Prop :=
  R s.cursor s'.cursor ∧ s'.target = s.target

/-- What succeeds on the left succeeds on the right with the same result. -/
def Simulates (extra : List Char) {α : Type} (x y : Pass σ α) : Prop :=
  Relates (Sited (Level extra)) (Agree (Sited (Level extra))) x y

theorem scan_relates {step : Scan α} {R : Cursor → Cursor → Prop}
    {S : α → α → Cursor → Cursor → Prop} (h : Relates R S step step) :
    Relates (Sited R) (fun a b => Sited (S a b)) (scan step : Pass σ α) (scan step) := by
  rintro s s' a t ⟨hR, htarget⟩ hx
  obtain ⟨hstep, ht⟩ := scan_eq_ok_iff.mp hx
  obtain ⟨b, c', hb, hS⟩ := h _ _ _ _ hR hstep
  exact ⟨b, ⟨c', s'.target⟩, scan_eq_ok_iff.mpr ⟨hb, rfl⟩, hS, htarget.trans ht.symm⟩

theorem scan_agree {step : Scan α} {R S : Cursor → Cursor → Prop}
    (h : Relates R (Agree S) step step) :
    Relates (Sited R) (Agree (Sited S)) (scan step : Pass σ α) (scan step) :=
  (scan_relates h).post fun h => ⟨h.1.1, h.1.2, h.2⟩

theorem build_relates {R : Cursor → Cursor → Prop} (step : EStateM Error σ α) :
    Relates (Sited R) (Agree (Sited R)) (build step) (build step) := by
  rintro s s' a t ⟨hR, htarget⟩ hx
  obtain ⟨hstep, ht⟩ := build_eq_ok_iff.mp hx
  refine ⟨a, ⟨s'.cursor, t.target⟩, build_eq_ok_iff.mpr ⟨htarget ▸ hstep, rfl⟩, rfl, ?_, rfl⟩
  rw [ht]
  exact hR

theorem of_sited_and {p : Prop} {R : Cursor → Cursor → Prop}
    {S : α → β → Site σ → Site σ → Prop} {x : Pass σ α} {y : Pass σ β}
    (h : p → Relates (Sited R) S x y) : Relates (Sited fun c c' => p ∧ R c c') S x y :=
  fun s s' a t hR hx => h hR.1.1 s s' a t ⟨hR.1.2, hR.2⟩ hx

/-- What is seen decides how both sides go on. -/
theorem of_seen {S : β → β → Site σ → Site σ → Prop} {f g : Option Char → Pass σ β}
    (hahead : ∀ first, Relates (Sited (Ahead extra first)) S (f (some first)) (g (some first)))
    (hend : ∀ b, (∀ first ∈ b, isNameStart first) →
      Relates (Sited (AtEnd extra)) S (f none) (g b)) (a b : Option Char) :
    Relates (Sited (Scan.Seen extra a b)) S (f a) (g b) := by
  rintro s s' c t ⟨hseen, htarget⟩ hx
  rcases hseen with ⟨first, rfl, rfl, hahead'⟩ | ⟨rfl, hb, hend'⟩
  · exact hahead first s s' c t ⟨hahead', htarget⟩ hx
  · exact hend b hb s s' c t ⟨hend', htarget⟩ hx

theorem of_taken {S : β → β → Site σ → Site σ → Prop} {f g : Option Char → Pass σ β}
    {next : Char → Zone}
    (hread : ∀ first, Relates (Sited (Abreast extra (next first))) S (f (some first))
      (g (some first)))
    (hend : ∀ s a t, f none s ≠ .ok a t) (a b : Option Char) :
    Relates (Sited (Scan.Taken extra next a b)) S (f a) (g b) := by
  rintro s s' c t ⟨htaken, htarget⟩ hx
  rcases htaken with rfl | ⟨first, rfl, rfl, habreast⟩
  · exact absurd hx (hend s c t)
  · exact hread first s s' c t ⟨habreast, htarget⟩ hx

namespace Simulates

theorem congruence : Congruence (@Simulates σ extra) where
  pure _ := .pure fun _ _ h => ⟨rfl, h⟩
  throw _ := .throw
  bind hx hf := hx.bind_agree hf

theorem deep : Deep (@Simulates σ extra) := fun _ => .throw

theorem token (hextra : Sequel extra) {step : Scan α} (h : Token step) :
    Simulates extra (scan step : Pass σ α) (scan step) := by
  have hstart : marks.any isNameStart = false := rfl
  have hafter : marks.all fun mark => decide (Zone.after mark = .code .text) := by decide
  simp only [List.any_eq_false, List.all_eq_true, decide_eq_true_eq] at hstart hafter
  refine scan_agree ?_
  cases h with
  | connective level => exact Scan.mark_relates hextra (Connective.steady level)
  | sign => exact Scan.sign_relates hextra
  | suffix => exact Scan.mark_relates hextra Suffix.steady
  | atom => exact Scan.atom_relates hextra
  | accept hmark =>
      refine (Scan.accept_relates hextra (Bool.eq_false_iff.mpr (hstart _ hmark))).post ?_
      rintro (_ | _) b c c' ⟨rfl, htrue, hfalse⟩
      · exact ⟨rfl, (hfalse rfl).level⟩
      · exact ⟨rfl, .inl (hafter _ hmark ▸ htrue rfl)⟩
  | expect place hmark => exact Scan.expect_relates hextra (hafter _ hmark) place
  | another place hclose => exact Scan.another_relates hextra (hafter _ hclose) place
  | caseConstant => exact Scan.caseConstant_relates hextra
  | elseKeyword => exact Scan.else_relates hextra
  | someName what => exact Scan.someName_relates hextra what
  | autoItem => exact Scan.autoItem_relates hextra
  | arraySize => exact Scan.arraySize_relates hextra (Scan.number_relates hextra)

theorem grammatical (hextra : Sequel extra) : Grammatical (@Simulates Draft extra) where
  toCongruence := congruence
  token := token hextra
  build _ := build_relates _
  labelled e hbody := by
    refine (scan_relates (Scan.peekMark_relates hextra)).bind ?_
    refine of_seen (fun first => ?_) fun b hb => ?_
    · split
      · exact .pure fun s s' h => ⟨rfl, .inl h.1.abreast, h.2⟩
      · exact hbody.pre fun h => ⟨.inl h.1.abreast, h.2⟩
    · have hne : b ≠ some '\x7d' := by
        rintro rfl
        cases hb _ rfl
      rw [if_neg hne]
      exact hbody.pre fun h => ⟨.inr h.1, h.2⟩
  ret hvalue := by
    refine (scan_relates (Scan.readMark_relates hextra)).bind
      (of_taken (fun first => ?_) fun _ _ _ => throw_ne_ok)
    split
    · next hfirst =>
        cases hfirst
        exact (build_relates _).pre fun h => ⟨.inl h.1, h.2⟩
    · next hfirst =>
        cases hfirst
        refine (hvalue.pre fun h => ⟨.inl h.1, h.2⟩).bind_agree fun word => ?_
        refine (token hextra (.expect _ (by decide))).bind_agree fun _ => ?_
        exact (token hextra (.expect _ (by decide))).bind_agree fun _ => build_relates _
    · exact .throw
  another he hx := by
    refine (scan_relates (Scan.accept_relates hextra rfl)).bind fun a b => of_sited_and ?_
    rintro rfl
    cases b with
    | true => exact .pure fun s s' h => ⟨rfl, .inl (h.1.1 rfl), h.2⟩
    | false =>
        refine ((scan_relates Scan.atEnd_met).pre fun h => ⟨h.1.2 rfl, h.2⟩).bind fun a b => ?_
        rintro s s' c t ⟨rfl | ⟨rfl, hlevel⟩, htarget⟩ h
        · cases throw_ne_ok h
        · cases b with
          | true => cases throw_ne_ok h
          | false => exact hx s s' c t ⟨hlevel, htarget⟩ h
  head hf hstub := by
    refine (scan_relates (Scan.statementHead_relates hextra)).bind fun a b => ?_
    -- Only a text that ends with a name is read apart, and that is no statement on the left.
    rintro s s' c t ⟨⟨rfl, hlevel⟩ | ⟨rfl, x, hx⟩, htarget⟩ h
    · exact hf b s s' c t ⟨hlevel, htarget⟩ h
    · exact absurd h (hstub x s c t hx)

theorem bounded {f : Nat → Pass σ α} (hf : ∀ d, Simulates extra (f d) (f d))
    (heq : ∀ {s : Site σ} {d : Nat}, s.cursor.depth ≤ d → bounded f s = f d s) :
    Simulates extra (bounded f) (bounded f) := by
  -- The texts differ in length, so both are read with the larger of their bounds.
  intro s s' a t hR h
  rw [heq (Nat.le_max_left _ s'.cursor.depth)] at h
  rw [heq (Nat.le_max_right s.cursor.depth _)]
  exact hf _ s s' a t hR h

theorem functionBody (hextra : Sequel extra) : Simulates extra functionBody functionBody := by
  have hstatement : Simulates extra statement statement :=
    bounded (fun d => congruence.bind
      (((grammatical hextra).statements deep (Nat.le_refl d)).1 none) fun _ => congruence.pure ())
      statement_eq
  exact congruence.bind hstatement fun _ =>
    congruence.bind (build_relates _) fun _ => congruence.pure ()

theorem drafted (name : String) (params : List String) {body : Pass Draft Unit}
    (h : Simulates extra body body) :
    Simulates extra (drafted name params body) (drafted name params body) := by
  rintro s s' a t ⟨hlevel, htarget⟩ hx
  obtain ⟨d, r, hd, hb, rfl⟩ := drafted_eq_ok_iff.mp hx
  obtain ⟨_, r', hb', _, hlevel', htarget'⟩ := h ⟨s.cursor, d⟩ ⟨s'.cursor, d⟩ () r ⟨hlevel, rfl⟩ hb
  refine ⟨a, _, drafted_eq_ok_iff.mpr ⟨d, r', htarget ▸ hd, hb', rfl⟩, rfl, hlevel', ?_⟩
  rw [htarget']

theorem anyItems {σ : Type} (hextra : Sequel extra) {close : Char} (hclose : close ∈ marks)
    (place : String) {item : Pass σ α} (hitem : Simulates extra item item)
    (hwithin : ∀ k, Within k item) :
    Simulates extra (Pass.bounded (anyItems close place item))
      (Pass.bounded (anyItems close place item)) :=
  bounded (fun d => congruence.anyItems deep (token hextra (.accept hclose))
    (token hextra (.another place hclose)) hitem (Nat.le_refl d)) (anyItems_eq hwithin)

theorem initializer (hextra : Sequel extra) : Simulates extra initializer initializer := by
  refine (scan_relates (Scan.constant?_relates hextra)).bind ?_
  rintro (_ | value) b
  · refine of_sited_and ?_
    rintro rfl
    refine ((scan_relates (Scan.peek_met hextra)).pre fun h => ⟨h.1.2 rfl, h.2⟩).bind ?_
    refine of_seen (fun first => ?_) fun b hb => ?_
    · split
      · refine .fails fun _ _ _ _ _ h => ?_
        obtain ⟨_, _, _, h⟩ := bind_eq_ok_iff.mp h
        cases throw_ne_ok h
      · refine (scan_relates (Scan.read_ahead first)).bind fun a b => of_sited_and ?_
        rintro rfl
        refine of_sited_and ?_
        rintro rfl
        split
        · next hfirst =>
            cases hfirst
            refine (scan_agree Scan.string_relates).bind_agree fun text => ?_
            exact (build_relates _).bind_agree fun name => congruence.pure _
        · next hfirst =>
            cases hfirst
            have hnumber := scan_agree (σ := Program) (Scan.number_relates hextra)
            refine (hnumber.pre fun h => ⟨.inl h.1, h.2⟩).bind_agree fun value => ?_
            exact congruence.pure _
        · exact .throw
    · refine .fails fun s s' a t hend h => ?_
      obtain ⟨found, r, hread, h⟩ := bind_eq_ok_iff.mp h
      obtain ⟨hread, _⟩ := scan_eq_ok_iff.mp hread
      rw [Scan.read, hend.1.left] at hread
      obtain rfl : none = found := by injection hread
      cases throw_ne_ok h
  · refine of_sited_and ?_
    rintro rfl
    exact .pure fun s s' h => ⟨rfl, h.1.1 rfl, h.2⟩

theorem declarative (hextra : Sequel extra) : Declarative (@Simulates Program extra) where
  toCongruence := congruence
  size := token hextra .arraySize
  initializers := anyItems hextra (by decide) _ (initializer hextra) initializer_within
  parameters :=
    anyItems hextra (by decide) _ (token hextra (.someName _)) fun _ => .scan (.someName _)
  array _ _ _ := build_relates _
  scalar _ _ := build_relates _
  drafted name params := drafted name params (functionBody hextra)
  form {x y z} hx hy hz := by
    refine (scan_relates (Scan.peekMark_relates hextra)).bind
      (of_seen (fun first => ?_) fun b hb => ?_)
    · have hread : ∀ {first x}, Zone.after first = .code .text → Simulates extra x x →
          Relates (Sited (Ahead extra first)) (Agree (Sited (Level extra)))
            (do let _ ← scan Scan.read; x : Pass Program Unit) (do let _ ← scan Scan.read; x) := by
        intro first x hfirst hx
        refine (scan_relates (Scan.read_ahead first)).bind fun a b => ?_
        exact hx.pre fun h => ⟨.inl (hfirst ▸ h.1.2.2), h.2⟩
      split
      · next hfirst =>
          cases hfirst
          exact hread rfl hx
      · next hfirst =>
          cases hfirst
          exact hread rfl hy
      · exact hz.pre fun h => ⟨.inl h.1.abreast, h.2⟩
    · cases b with
      | none => exact hz.pre fun h => ⟨.inr h.1, h.2⟩
      | some first =>
          have hstart := hb first rfl
          change Relates _ _ z _
          split
          · next hfirst =>
              cases hfirst
              cases hstart
          · next hfirst =>
              cases hfirst
              cases hstart
          · exact hz.pre fun h => ⟨.inr h.1, h.2⟩

end Simulates

/-- Blanks in front of the declarations do not matter. -/
theorem declarationsAt_blanks {c c₁ : Cursor} (h : Scan.blanks c = .ok () c₁) (p : Program)
    (k : Nat) :
    declarationsAt (k + 1) ⟨c, p⟩ = declarationsAt (k + 1) ⟨c₁, p⟩ := by
  have hsolid := solid_of_afterBlanks (Scan.afterBlanks_of_blanks h).1
  have hname : Scan.name c = Scan.name c₁ := bind_congr_state (h.trans hsolid.blanks.symm)
  refine bind_congr_state ?_
  unfold scan
  rw [hname]

/-- Where no name comes next and the text on the left ends, the one on the right has the sequel. -/
theorem atEnd_of_name (hextra : Sequel extra) {c c' t : Cursor} (hc : Level extra c c')
    (h : Scan.name c = .ok "" t) (ht : t.unread = []) :
    ∃ c₁', Scan.blanks c' = .ok () c₁' ∧ AtEnd extra t c₁' := by
  obtain ⟨_, c₁, hb, hfound⟩ := bind_eq_ok_iff.mp h
  obtain ⟨_, c₁', hb', hmet⟩ := Scan.blanks_relates hextra c c' () c₁ hc hb
  injection hfound with hname hskip
  have hnil : leadingName c₁.unread = [] := by
    rw [← String.toList_ofList (l := leadingName c₁.unread), hname]
    rfl
  subst hskip
  rw [Cursor.unread_skip, hnil] at ht
  refine ⟨c₁', hb', ?_⟩
  rcases hmet with ⟨first, hahead⟩ | hend
  · cases hahead
    cases ht
  · cases hend
    exact .mk

/-- The declarations on the left are compiled on the right as well. Where the text on the left ends,
the text on the right is compiled from the sequel on. -/
theorem declarationsAt_relates (hextra : Sequel extra) {d : Nat} {s s' t : Site Program} {u : Unit}
    (hs : Sited (Level extra) s s') (h : declarationsAt d s = .ok u t) :
    ∃ n c', AtEnd extra t.cursor c' ∧
      ∀ k, declarationsAt (k + 1 + n) s' = declarationsAt (k + 1) ⟨c', t.target⟩ := by
  have hunread := unread_of_declarationsAt h
  -- On the number of declarations that the bound on the left allows; the right needs `n` of them.
  induction d generalizing s s' with
  | zero => cases throw_ne_ok h
  | succ d ih =>
      obtain ⟨name, s₁, hname, hrest⟩ := bind_eq_ok_iff.mp h
      split at hrest
      · next hempty =>
          subst hempty
          obtain ⟨next, s₂, hpeek, hrest⟩ := bind_eq_ok_iff.mp hrest
          cases next with
          | some c => cases throw_ne_ok hrest
          | none =>
              obtain ⟨_, rfl⟩ := pure_eq_ok_iff.mp hrest
              obtain ⟨hread, htarget⟩ := scan_eq_ok_iff.mp hname
              obtain ⟨hpeek, htarget'⟩ := scan_eq_ok_iff.mp hpeek
              injection hpeek with _ hcursor
              obtain ⟨c', hb, hend⟩ := atEnd_of_name hextra hs.1 (hcursor ▸ hread) hunread
              refine ⟨0, c', hend, fun k => ?_⟩
              rw [htarget', htarget, ← hs.2]
              exact declarationsAt_blanks hb s'.target k
      · next hne =>
          obtain ⟨_, s₂, hdeclaration, hrest⟩ := bind_eq_ok_iff.mp hrest
          obtain ⟨_, s₃, hclear, hrest⟩ := bind_eq_ok_iff.mp hrest
          obtain ⟨name', s₁', hname', hagree, htarget⟩ :=
            scan_relates (Scan.name_relates hextra) s s' name s₁ hs hname
          obtain ⟨hsame, habreast⟩ := hagree.resolve_right hne
          rw [hsame] at hname'
          obtain ⟨_, s₂', hdeclaration', _, hs₂⟩ :=
            (Simulates.declarative hextra).declaration name s₁ s₁' () s₂ ⟨.inl habreast, htarget⟩
              hdeclaration
          obtain ⟨_, s₃', hclear', _, hs₃⟩ := build_relates _ s₂ s₂' () s₃ hs₂ hclear
          obtain ⟨n, c', hend, hright⟩ := ih hs₃ hrest
          refine ⟨n + 1, c', hend, fun k => ?_⟩
          rw [← hright k]
          change (scan Scan.name >>= _) s' = _
          rw [bind_of_ok hname', if_neg hne, bind_of_ok hdeclaration']
          exact bind_of_ok hclear'

theorem declarations_relates (hextra : Sequel extra) {s s' t : Site Program} {u : Unit}
    (hs : Sited (Level extra) s s') (h : declarations s = .ok u t) :
    ∃ c', AtEnd extra t.cursor c' ∧ declarations s' = declarations ⟨c', t.target⟩ := by
  obtain ⟨n, c', hend, hright⟩ := declarationsAt_relates hextra hs h
  refine ⟨c', hend, ?_⟩
  have hd := Nat.le_max_left s'.cursor.depth c'.depth
  have hd' := Nat.le_max_right s'.cursor.depth c'.depth
  rw [declarations_eq (d := max s'.cursor.depth c'.depth + 1 + n) (by omega), hright]
  exact (declarations_eq (Nat.le_succ_of_le hd')).symm

theorem declarations_blanks {c c₁ : Cursor} (h : Scan.blanks c = .ok () c₁) (p : Program) :
    declarations ⟨c, p⟩ = declarations ⟨c₁, p⟩ := by
  have hd := Nat.le_max_left c.depth c₁.depth
  have hd' := Nat.le_max_right c.depth c₁.depth
  rw [declarations_eq (Nat.le_succ_of_le hd), declarations_eq (Nat.le_succ_of_le hd')]
  exact declarationsAt_blanks h p _

end Pass
end BCompiler
