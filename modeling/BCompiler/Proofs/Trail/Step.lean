import BCompiler.Proofs.Trail.Basic

/-!
Steps that keep to a relation, whether they succeed or fail.

A step starts at a place that a given one leads to, and leads on from there. What is known of the
given place and lasts is known wherever the step starts.
-/
namespace BCompiler

variable {W σ α β : Type}

/-- A relation between what there was and what there is, along any number of steps. -/
class Lasting (R : W → W → Prop) : Prop where
  refl : ∀ w, R w w
  trans : ∀ {u v w}, R u v → R v w → R u w

instance : Lasting Trail := ⟨.refl, .trans⟩

/-- How a step from `s` ends: further along the relation, and as `after` says if it succeeds. -/
def Leads (R : W → W → Prop) (view : σ → W) (s : σ) (after : α → W → Prop) :
    EStateM.Result Error σ α → Prop
  | .ok a t => R (view s) (view t) ∧ after a (view t)
  | .error _ t => R (view s) (view t)

/-- Wherever `w` leads to, the step goes on along the relation. -/
def Trails (R : W → W → Prop) (view : σ → W) (w : W) (step : EStateM Error σ α)
    (after : α → W → Prop) : Prop :=
  ∀ s, R w (view s) → Leads R view s after (step s)

namespace Trails

variable {R : W → W → Prop} [Lasting R] {view : σ → W} {w : W}

/-- A step that has succeeded has gone along the relation. -/
theorem of_ok {s t : σ} {a : α} {step : EStateM Error σ α} {after : α → W → Prop}
    (h : Trails R view (view s) step after) (hs : step s = .ok a t) :
    R (view s) (view t) ∧ after a (view t) := by
  have hleads := h s (Lasting.refl _)
  rw [hs] at hleads
  exact hleads

theorem pure {a : α} {after : α → W → Prop} (h : ∀ w', R w w' → after a w') :
    Trails R view w (Pure.pure a) after :=
  fun s hs => ⟨Lasting.refl _, h (view s) hs⟩

theorem throw {e : Error} {after : α → W → Prop} :
    Trails R view w (MonadExcept.throw e) after :=
  fun _ _ => Lasting.refl _

theorem bind {x : EStateM Error σ α} {f : α → EStateM Error σ β} {P : α → W → Prop}
    {after : β → W → Prop} (hx : Trails R view w x P)
    (hf : ∀ a w', R w w' → P a w' → Trails R view w' (f a) after) :
    Trails R view w (x >>= f) after := by
  intro s hs
  have h := hx s hs
  change Leads R view s after (EStateM.bind x f s)
  unfold EStateM.bind
  cases hr : x s with
  | error e r =>
      rw [hr] at h
      exact h
  | ok a r =>
      rw [hr] at h
      have hrest := hf a (view r) (Lasting.trans hs h.1) h.2 r (Lasting.refl _)
      dsimp only
      cases hb : f a r with
      | ok b t =>
          rw [hb] at hrest
          exact ⟨Lasting.trans h.1 hrest.1, hrest.2⟩
      | error e t =>
          rw [hb] at hrest
          exact Lasting.trans h.1 hrest

end Trails

namespace Draft

theorem has_new_block (d : Draft) (name : String) :
    (d.addBlock name).Has (.block d.function.blocks.length) :=
  .met (.block (by simp [addBlock]))

theorem trail_inNewBlock (d : Draft) {name : String} (h : isSymbol name) :
    Trail d ((d.nextNumber.addBlock name).goTo d.function.blocks.length) :=
  (Trail.nextNumber d).trans ((Trail.addBlock h).trans (.goTo (d.nextNumber.has_new_block name)))

end Draft

theorem isSymbol_toString (n : Nat) : isSymbol (toString n) := by
  unfold isSymbol
  rw [List.all_eq_true]
  intro c hc
  have hd : c.isDigit := Nat.isDigit_of_mem_toDigits (by decide) (by decide)
    (Nat.toList_repr (n := n) ▸ hc)
  rw [← isDigit_eq] at hd
  simp [isSymbolChar, isNameChar, hd]

namespace Draft

theorem trail_opened (d : Draft) : Trail d d.opened := by
  unfold opened
  split
  · exact .refl d
  · exact d.trail_inNewBlock (isSymbol_append.mpr ⟨by decide, isSymbol_toString _⟩)

end Draft

namespace Build

variable {w : Draft}

/-- A step that succeeds along a relation or else leaves the draft as it was. -/
theorem trails_of_cases {R : Draft → Draft → Prop} [Lasting R] {step : Build α}
    {after : α → Draft → Prop}
    (hok : ∀ d, R w d → d.Valid → ∃ a d', step d = .ok a d' ∧ R d d' ∧ after a d')
    (herror : ∀ d, ¬d.Valid → ∃ e, step d = .error e d) : Trails R id w step after := by
  intro d hd
  by_cases hv : d.Valid
  · obtain ⟨a, d', hs, ht, ha⟩ := hok d hd hv
    rw [hs]
    exact ⟨ht, ha⟩
  · obtain ⟨e, hs⟩ := herror d hv
    rw [hs]
    exact Lasting.refl (R := R) d

theorem isOpen_eq_error {d : Draft} (h : ¬d.Valid) : ∃ e, isOpen d = .error e d := by
  unfold isOpen Function.block
  rw [List.getElem?_eq_none (Nat.not_lt.mp h)]
  exact ⟨_, rfl⟩

theorem ensureOpen_eq_error {d : Draft} (h : ¬d.Valid) : ∃ e, ensureOpen d = .error e d := by
  obtain ⟨e, he⟩ := isOpen_eq_error h
  exact ⟨e, bind_of_error he⟩

theorem emit_trails {operation : Operation} (hs : operation.isSlot = false)
    (hn : ∀ need ∈ operation.needs, w.Has need) :
    Trails Trail id w (emit operation) fun v w' => w'.Has (.operand operation.type v) := by
  refine trails_of_cases (fun d hd hv => ?_) fun d hv => ?_
  · refine ⟨_, _, emit_eq_ok_iff.mpr ⟨hv, rfl, rfl⟩, ?_, ?_⟩
    · refine d.trail_opened.trans (.define d.isOpen_opened hs fun need hm => ?_)
      exact d.trail_opened.has (hd.has (hn need hm))
    · refine .met (.value ?_)
      rw [← d.nextValue_opened]
      exact Function.mem_instrs_onBlock (Draft.Valid.of_isOpen d.isOpen_opened)
        fun _ => List.mem_append_right _ (.head _)
  · obtain ⟨e, he⟩ := ensureOpen_eq_error hv
    exact ⟨e, bind_of_error he⟩

theorem store_trails {value address : Operand} (hv : w.Has (.operand .word value))
    (ha : w.Has (.operand .pointer address)) :
    Trails Trail id w (store value address) fun _ _ => True := by
  refine trails_of_cases (fun d hd hvalid => ?_) fun d hvalid => ?_
  · have hopen := hd.trans d.trail_opened
    exact ⟨(), _, store_eq_ok_iff.mpr ⟨hvalid, rfl⟩, d.trail_opened.trans
      (.store d.isOpen_opened (hopen.has hv) (hopen.has ha)), trivial⟩
  · obtain ⟨e, he⟩ := ensureOpen_eq_error hvalid
    exact ⟨e, bind_of_error he⟩

theorem terminate_trails {t : Terminator} (hn : ∀ need ∈ t.needs, w.Has need) :
    Trails Trail id w (terminate t) fun _ _ => True := by
  refine trails_of_cases (fun d hd hv => ?_) fun d hv => ?_
  · refine ⟨(), _, terminate_eq_ok_iff.mpr ⟨hv, rfl⟩, d.trail_opened.trans
      (.ended d.isOpen_opened fun need hm => ?_), trivial⟩
    exact (hd.trans d.trail_opened).has (hn need hm)
  · obtain ⟨e, he⟩ := ensureOpen_eq_error hv
    exact ⟨e, bind_of_error he⟩

theorem terminateIfOpen_trails {t : Terminator} (hn : ∀ need ∈ t.needs, w.Has need) :
    Trails Trail id w (terminateIfOpen t) fun _ _ => True := by
  refine trails_of_cases (fun d hd hv => ?_) fun d hv => ?_
  · refine ⟨(), _, terminateIfOpen_eq_ok_iff.mpr ⟨hv, rfl⟩, ?_, trivial⟩
    unfold Draft.endedIfOpen
    split
    · next ho => exact .ended ho fun need hm => hd.has (hn need hm)
    · exact .refl d
  · obtain ⟨e, he⟩ := isOpen_eq_error hv
    exact ⟨e, bind_of_error he⟩

end Build
end BCompiler
