import Mathlib.Data.List.Forall2
import BCompiler.Proofs.Assembly.Module
import BCompiler.Proofs.Naming.Block

/-!
What texts tell when they are read from the left.

Two pieces of text are compared at the head of one and the same text. If that settles what the two
were written from, and where they end, then texts that are put together from such pieces settle it
too. A piece that ends in a name settles it only in front of a character that no name can hold.
-/
namespace BCompiler

/-- At the head of the same text the two pieces end at the same place, and `P` holds. -/
def Tells (P : Prop) (a b : String) : Prop :=
  ∀ ⦃r r' : List Char⦄, a.toList ++ r = b.toList ++ r' → P ∧ r = r'

/-- The same in front of texts that do not continue the names at the ends. -/
def TellsLast (P : Prop) (a b : String) : Prop :=
  ∀ ⦃r r' : List Char⦄, Apart r → Apart r' → a.toList ++ r = b.toList ++ r' → P ∧ r = r'

/-- Neither text begins as the other does. -/
def differ (a b : String) : Bool :=
  !a.toList.isPrefixOf b.toList && !b.toList.isPrefixOf a.toList

section Tells

variable {P Q : Prop} {a b c d : String}

theorem Tells.imp (h : Tells P a b) (hq : P → Q) : Tells Q a b :=
  fun _ _ he => (h he).imp_left hq

theorem TellsLast.imp (h : TellsLast P a b) (hq : P → Q) : TellsLast Q a b :=
  fun _ _ hr hr' he => (h hr hr' he).imp_left hq

theorem Tells.last (h : Tells P a b) : TellsLast P a b := fun _ _ _ _ he => h he

/-- What the first pieces tell may be needed to read on. -/
theorem Tells.append_of (h : Tells P a b) (h' : P → Tells Q c d) :
    Tells (P ∧ Q) (a ++ c) (b ++ d) := by
  intro r r' he
  rw [String.toList_append, String.toList_append, List.append_assoc, List.append_assoc] at he
  obtain ⟨hp, he⟩ := h he
  obtain ⟨hq, he⟩ := h' hp he
  exact ⟨⟨hp, hq⟩, he⟩

theorem Tells.append (h : Tells P a b) (h' : Tells Q c d) : Tells (P ∧ Q) (a ++ c) (b ++ d) :=
  h.append_of fun _ => h'

theorem Tells.append_last (h : Tells P a b) (h' : TellsLast Q c d) :
    TellsLast (P ∧ Q) (a ++ c) (b ++ d) := by
  intro r r' hr hr' he
  rw [String.toList_append, String.toList_append, List.append_assoc, List.append_assoc] at he
  obtain ⟨hp, he⟩ := h he
  obtain ⟨hq, he⟩ := h' hr hr' he
  exact ⟨⟨hp, hq⟩, he⟩

theorem TellsLast.append_of (h : TellsLast P a b) (h' : P → Tells Q c d) (hc : isApart c)
    (hd : isApart d) : Tells (P ∧ Q) (a ++ c) (b ++ d) := by
  intro r r' he
  rw [String.toList_append, String.toList_append, List.append_assoc, List.append_assoc] at he
  obtain ⟨hp, he⟩ := h (apart_append hc r) (apart_append hd r') he
  obtain ⟨hq, he⟩ := h' hp he
  exact ⟨⟨hp, hq⟩, he⟩

theorem TellsLast.append (h : TellsLast P a b) (h' : Tells Q c d) (hc : isApart c)
    (hd : isApart d) : Tells (P ∧ Q) (a ++ c) (b ++ d) :=
  h.append_of (fun _ => h') hc hd

/-- The same text on both sides tells nothing. -/
theorem Tells.same (a : String) : Tells True a a :=
  fun _ _ he => ⟨trivial, List.append_cancel_left he⟩

theorem TellsLast.behind (front : String) (h : TellsLast P a b) :
    TellsLast P (front ++ a) (front ++ b) :=
  ((Tells.same front).append_last h).imp And.right

theorem Tells.behind (front : String) (h : Tells P a b) : Tells P (front ++ a) (front ++ b) :=
  ((Tells.same front).append h).imp And.right

theorem TellsLast.before (h : TellsLast P a b) (rest : String) (hrest : isApart rest) :
    Tells P (a ++ rest) (b ++ rest) :=
  (h.append (.same rest) hrest hrest).imp And.left

theorem Tells.before (h : Tells P a b) (rest : String) : Tells P (a ++ rest) (b ++ rest) :=
  (h.append (.same rest)).imp And.left

/-- What the texts tell with the same text in front. -/
theorem Tells.of_behind (front : String) (h : Tells P (front ++ a) (front ++ b)) : Tells P a b := by
  intro r r' he
  refine h ?_
  simp only [String.toList_append, List.append_assoc, he]

/-- A difference at the head leaves nothing to tell. -/
theorem Tells.of_differ (h : differ a b) (c d : String) : Tells P (a ++ c) (b ++ d) := by
  intro r r' he
  simp only [differ, Bool.and_eq_true, Bool.not_eq_true', ← Bool.not_eq_true,
    List.isPrefixOf_iff_prefix] at h
  rw [String.toList_append, String.toList_append, List.append_assoc, List.append_assoc] at he
  have hb : b.toList <+: a.toList ++ (c.toList ++ r) := he ▸ List.prefix_append _ _
  exact absurd (List.prefix_or_prefix_of_prefix (List.prefix_append _ _) hb)
    (not_or.mpr ⟨h.1, h.2⟩)

theorem tells_of_differ (h : differ a b) : Tells P a b := by
  simpa using Tells.of_differ (P := P) h "" ""

theorem Tells.of_false (h : Tells False a b) (c d : String) : Tells P (a ++ c) (b ++ d) :=
  (h.append_of fun hfalse => hfalse.elim).imp And.right

theorem Tells.of_false_left (h : Tells False a b) (c : String) : Tells P (a ++ c) b := by
  simpa using Tells.of_false (P := P) h c ""

theorem Tells.of_false_right (h : Tells False a b) (c : String) : Tells P a (b ++ c) := by
  simpa using Tells.of_false (P := P) h "" c

theorem TellsLast.of_false (h : TellsLast False a b) (hc : isApart c) (hd : isApart d) :
    Tells P (a ++ c) (b ++ d) :=
  (h.append_of (fun hfalse => hfalse.elim) hc hd).imp And.right

theorem Tells.symm (h : Tells P a b) : Tells P b a := fun _ _ he => (h he.symm).imp_right Eq.symm

theorem TellsLast.symbol (ha : isSymbol a) (hb : isSymbol b) : TellsLast (a = b) a b := by
  intro r r' hr hr' he
  have hab : a = b := by rw [← symbolAt_append ha hr, he, symbolAt_append hb hr']
  subst hab
  exact ⟨rfl, List.append_cancel_left he⟩

/-- A name differs from what begins with a character that no name can hold. -/
theorem Tells.symbol_of_isApart (ha : isSymbol a) (hne : a ≠ "") (hb : isApart b) :
    Tells P a b := by
  intro r r' he
  have hapart := apart_append hb r'
  cases hl : a.toList with
  | nil => exact absurd (String.toList_eq_nil_iff.mp hl) hne
  | cons first rest =>
      rw [hl] at he
      rw [← he] at hapart
      have hfirst := List.all_eq_true.mp ha first (hl ▸ .head _)
      rw [hapart first rfl] at hfirst
      cases hfirst

theorem TellsLast.number (n k : Nat) : TellsLast (n = k) (toString n) (toString k) :=
  (TellsLast.symbol (isSymbol_toString n) (isSymbol_toString k)).imp toString_injective

theorem TellsLast.decimal (v w : Word) : TellsLast (v = w) v.decimal w.decimal :=
  (TellsLast.symbol (isSymbol_decimal v) (isSymbol_decimal w)).imp Word.decimal_injective

/-- Pieces up to something that begins as none of them does, by induction on both lists. -/
theorem Tells.join {α : Type} {R : α → α → Prop} {t t' : α → String} {l l' : List α}
    (hitem : ∀ a ∈ l, ∀ b ∈ l', Tells (R a b) (t a) (t' b)) (hend : Tells P c d)
    (hleft : ∀ a ∈ l, Tells False (t a) d) (hright : ∀ b ∈ l', Tells False c (t' b)) :
    Tells (List.Forall₂ R l l' ∧ P) (String.join (l.map t) ++ c)
      (String.join (l'.map t') ++ d) := by
  induction l generalizing l' with
  | nil =>
      cases l' with
      | nil => exact (hend.behind _).imp fun hp => ⟨.nil, hp⟩
      | cons b l' =>
          rw [List.map_nil, String.join_nil, String.empty_append, List.map_cons, String.join_cons,
            String.append_assoc]
          exact (hright b (.head _)).of_false_right _
  | cons a l ih =>
      rw [List.map_cons, String.join_cons, String.append_assoc]
      cases l' with
      | nil =>
          rw [List.map_nil, String.join_nil, String.empty_append]
          exact (hleft a (.head _)).of_false_left _
      | cons b l' =>
          rw [List.map_cons, String.join_cons, String.append_assoc]
          have hrest := ih (fun a ha b hb => hitem a (.tail _ ha) b (.tail _ hb))
            (fun a ha => hleft a (.tail _ ha)) fun b hb => hright b (.tail _ hb)
          refine ((hitem a (.head _) b (.head _)).append hrest).imp ?_
          rintro ⟨hr, hl, hp⟩
          exact ⟨.cons hr hl, hp⟩

theorem commaList_cons (item : String) (items : List String) :
    Module.commaList (item :: items) = item ++ String.join (items.map (", " ++ ·)) := by
  unfold Module.commaList
  induction items generalizing item with
  | nil => simp
  | cons next items ih =>
      rw [String.intercalate_cons_cons, ih, List.map_cons, String.join_cons]
      simp only [String.append_assoc]

theorem isApart_commaTail {close : String} (h : isApart close) (items : List String) :
    isApart (String.join (items.map (", " ++ ·)) ++ close) := by
  cases items with
  | nil => simpa using h
  | cons item items =>
      rw [List.map_cons, String.join_cons, String.append_assoc, String.append_assoc]
      exact isApart_append (by decide) _

section commaList

variable {α : Type} {R : α → α → Prop} {t t' : α → String} {close : String}

/-- The pieces behind the first one, each behind a comma. -/
theorem Tells.commaTail {l l' : List α}
    (hitem : ∀ a ∈ l, ∀ b ∈ l', TellsLast (R a b) (t a) (t' b)) (hclose : isApart close)
    (hcomma : differ ", " close) :
    Tells (List.Forall₂ R l l') (String.join ((l.map t).map (", " ++ ·)) ++ close)
      (String.join ((l'.map t').map (", " ++ ·)) ++ close) := by
  have hnext (rest : String) : Tells False (", " ++ rest) close := by
    simpa using Tells.of_differ (P := False) hcomma rest ""
  induction l generalizing l' with
  | nil =>
      cases l' with
      | nil => exact (Tells.same _).imp fun _ => .nil
      | cons b l' =>
          simp only [List.map_cons, List.map_nil, String.join_cons, String.append_assoc]
          simpa using (hnext _).symm.of_false "" ""
  | cons a l ih =>
      simp only [List.map_cons, String.join_cons, String.append_assoc]
      cases l' with
      | nil => simpa using (hnext _).of_false "" ""
      | cons b l' =>
          simp only [List.map_cons, String.join_cons, String.append_assoc]
          have hfirst := hitem a (.head _) b (.head _)
          have hrest := ih fun a ha b hb => hitem a (.tail _ ha) b (.tail _ hb)
          have hboth := hfirst.append hrest (isApart_commaTail hclose _)
            (isApart_commaTail hclose _)
          exact (hboth.behind ", ").imp fun h => .cons h.1 h.2

/-- Pieces with commas between them, up to a closing mark that begins none of them. -/
theorem Tells.commaList {l l' : List α}
    (hitem : ∀ a ∈ l, ∀ b ∈ l', TellsLast (R a b) (t a) (t' b)) (hclose : isApart close)
    (hcomma : differ ", " close) (hleft : ∀ a ∈ l, Tells False (t a) close)
    (hright : ∀ b ∈ l', Tells False close (t' b)) :
    Tells (List.Forall₂ R l l') (Module.commaList (l.map t) ++ close)
      (Module.commaList (l'.map t') ++ close) := by
  cases l with
  | nil =>
      cases l' with
      | nil => exact (Tells.same _).imp fun _ => .nil
      | cons b l' =>
          rw [List.map_cons, commaList_cons, String.append_assoc]
          simpa [Module.commaList] using (hright b (.head _)).of_false "" _
  | cons a l =>
      rw [List.map_cons, commaList_cons, String.append_assoc]
      cases l' with
      | nil => simpa [Module.commaList] using (hleft a (.head _)).of_false _ ""
      | cons b l' =>
          rw [List.map_cons, commaList_cons, String.append_assoc]
          have hfirst := hitem a (.head _) b (.head _)
          have hrest := commaTail (fun a ha b hb => hitem a (.tail _ ha) b (.tail _ hb)) hclose
            hcomma
          have hboth := hfirst.append hrest (isApart_commaTail hclose _)
            (isApart_commaTail hclose _)
          exact hboth.imp fun h => .cons h.1 h.2

end commaList

end Tells

/-- The text of lines. -/
def textOf (lines : List String) : String := String.join (lines.map fun line => line ++ "\n")

theorem textOf_cons (line : String) (lines : List String) :
    textOf (line :: lines) = line ++ "\n" ++ textOf lines := String.join_cons

theorem textOf_singleton (line : String) : textOf [line] = line ++ "\n" := by
  rw [textOf_cons]
  exact String.append_empty

theorem textOf_map {α : Type} (line : α → String) (items : List α) :
    textOf (items.map line) = String.join (items.map fun a => line a ++ "\n") := by
  rw [textOf, List.map_map]
  rfl

theorem textOf_append (lines lines' : List String) :
    textOf (lines ++ lines') = textOf lines ++ textOf lines' := by
  simp only [textOf, List.map_append, String.join_append]

theorem TellsLast.line {P : Prop} {a b : String} (h : TellsLast P a b) :
    Tells P (a ++ "\n") (b ++ "\n") := h.before "\n" (by decide)

end BCompiler
