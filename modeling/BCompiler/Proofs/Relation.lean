import BCompiler.Proofs.Step

/-!
Two steps side by side.

A step on the left is related to one on the right if the one on the right succeeds wherever that on
the left does. The relations between the states before and after the steps compose along binds.
-/
namespace BCompiler

/-- Wherever the step on the left succeeds, the step on the right does so from a state that is in
the relation `R` to that on the left. The results and the states at the end are then as `S` says. -/
def Relates {τ α β : Type} (R : τ → τ → Prop) (S : α → β → τ → τ → Prop) (x : EStateM Error τ α)
    (y : EStateM Error τ β) : Prop :=
  ∀ s s' a t, R s s' → x s = .ok a t → ∃ b t', y s' = .ok b t' ∧ S a b t t'

/-- The results are equal. -/
def Agree {τ α : Type} (S : τ → τ → Prop) (a b : α) (t t' : τ) : Prop := b = a ∧ S t t'

namespace Relates

variable {τ α β γ δ : Type} {R R' : τ → τ → Prop} {S S' : α → β → τ → τ → Prop}
  {x : EStateM Error τ α} {y : EStateM Error τ β}

theorem pure {a : α} {b : β} (h : ∀ s s', R s s' → S a b s s') :
    Relates R S (Pure.pure a) (Pure.pure b) := by
  intro s s' c t hR hx
  obtain ⟨rfl, rfl⟩ := pure_eq_ok_iff.mp hx
  exact ⟨b, s', rfl, h t s' hR⟩

/-- Nothing is asked where the step on the left fails. -/
theorem fails (h : ∀ s s' a t, R s s' → x s ≠ .ok a t) : Relates R S x y :=
  fun s s' a t hR hx => absurd hx (h s s' a t hR)

theorem throw {e : Error} : Relates R S (MonadExcept.throw e) y :=
  fails fun _ _ _ _ _ => throw_ne_ok

theorem bind {T : γ → δ → τ → τ → Prop} {f : α → EStateM Error τ γ} {g : β → EStateM Error τ δ}
    (hx : Relates R S x y) (hf : ∀ a b, Relates (S a b) T (f a) (g b)) :
    Relates R T (x >>= f) (y >>= g) := by
  intro s s' c t hR h
  obtain ⟨a, r, ha, hc⟩ := bind_eq_ok_iff.mp h
  obtain ⟨b, r', hb, hS⟩ := hx s s' a r hR ha
  obtain ⟨d, t', hd, hT⟩ := hf a b r r' c t hS hc
  exact ⟨d, t', bind_eq_ok_iff.mpr ⟨b, r', hb, hd⟩, hT⟩

/-- The steps go on from equal results. -/
theorem bind_agree {S : τ → τ → Prop} {y : EStateM Error τ α} {T : γ → δ → τ → τ → Prop}
    {f : α → EStateM Error τ γ} {g : α → EStateM Error τ δ} (hx : Relates R (Agree S) x y)
    (hf : ∀ a, Relates S T (f a) (g a)) : Relates R T (x >>= f) (y >>= g) := by
  refine hx.bind fun a b s s' c t hS => ?_
  obtain ⟨rfl, hS⟩ := hS
  exact hf b s s' c t hS

theorem pre (h : Relates R S x y) (hR : ∀ {s s'}, R' s s' → R s s') : Relates R' S x y :=
  fun s s' a t hR' hx => h s s' a t (hR hR') hx

theorem post (h : Relates R S x y) (hS : ∀ {a b t t'}, S a b t t' → S' a b t t') :
    Relates R S' x y := by
  intro s s' a t hR hx
  obtain ⟨b, t', hb, hab⟩ := h s s' a t hR hx
  exact ⟨b, t', hb, hS hab⟩

theorem or (h : Relates R S x y) (h' : Relates R' S x y) :
    Relates (fun s s' => R s s' ∨ R' s s') S x y := by
  intro s s' a t hR hx
  rcases hR with hR | hR
  · exact h s s' a t hR hx
  · exact h' s s' a t hR hx

theorem of_exists {ι : Type} {R : ι → τ → τ → Prop} (h : ∀ i, Relates (R i) S x y) :
    Relates (fun s s' => ∃ i, R i s s') S x y := by
  intro s s' a t ⟨i, hR⟩ hx
  exact h i s s' a t hR hx

theorem of_and {p : Prop} (h : p → Relates R S x y) :
    Relates (fun s s' => p ∧ R s s') S x y :=
  fun s s' a t hR hx => h hR.1 s s' a t hR.2 hx

end Relates

end BCompiler
