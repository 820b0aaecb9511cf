import BCompiler.Grammar.Declaration

/-!
Steps that succeed, and steps that fail.

A step is taken apart at its binds, however it ends.
-/
namespace BCompiler

theorem bind_eq_ok_iff {ε σ α β : Type} {x : EStateM ε σ α} {f : α → EStateM ε σ β} {s t : σ}
    {b : β} : (x >>= f) s = .ok b t ↔ ∃ a r, x s = .ok a r ∧ f a r = .ok b t := by
  change EStateM.bind x f s = .ok b t ↔ _
  unfold EStateM.bind
  cases x s with
  | ok a r =>
      constructor
      · intro h
        exact ⟨a, r, rfl, h⟩
      · rintro ⟨_, _, h, hf⟩
        cases h
        exact hf
  | error e r => simp

theorem bind_of_ok {ε σ α β : Type} {x : EStateM ε σ α} {f : α → EStateM ε σ β} {s r : σ} {a : α}
    (h : x s = .ok a r) : (x >>= f) s = f a r := by
  change EStateM.bind x f s = f a r
  unfold EStateM.bind
  rw [h]

theorem bind_of_error {ε σ α β : Type} {x : EStateM ε σ α} {f : α → EStateM ε σ β} {s r : σ} {e : ε}
    (h : x s = .error e r) : (x >>= f) s = .error e r := by
  change EStateM.bind x f s = .error e r
  unfold EStateM.bind
  rw [h]

theorem bind_eq_error_iff {ε σ α β : Type} {x : EStateM ε σ α} {f : α → EStateM ε σ β} {s t : σ}
    {e : ε} : (x >>= f) s = .error e t ↔
      x s = .error e t ∨ ∃ a r, x s = .ok a r ∧ f a r = .error e t := by
  cases hr : x s with
  | ok a r => simp [bind_of_ok hr, and_assoc]
  | error e' r => simp [bind_of_error hr]

theorem bind_congr_state {ε σ α β : Type} {x y : EStateM ε σ α} {f : α → EStateM ε σ β} {s s' : σ}
    (h : x s = y s') : (x >>= f) s = (y >>= f) s' := by
  change EStateM.bind x f s = EStateM.bind y f s'
  unfold EStateM.bind
  rw [h]

theorem pure_eq_ok_iff {ε σ α : Type} {a b : α} {s t : σ} :
    (pure a : EStateM ε σ α) s = .ok b t ↔ b = a ∧ t = s := by
  change EStateM.Result.ok a s = .ok b t ↔ _
  simp [eq_comm]

theorem throw_ne_ok {ε σ α : Type} {e : ε} {a : α} {s t : σ} :
    (throw e : EStateM ε σ α) s ≠ .ok a t := nofun

theorem get_eq_ok_iff {ε σ : Type} {a s t : σ} :
    (get : EStateM ε σ σ) s = .ok a t ↔ a = s ∧ t = s := by
  change EStateM.Result.ok s s = .ok a t ↔ _
  simp [eq_comm]

theorem get_bind {ε σ α : Type} (f : σ → EStateM ε σ α) (s : σ) : (get >>= f) s = f s s := rfl

theorem modify_eq_ok_iff {ε σ : Type} {f : σ → σ} {s t : σ} {a : PUnit} :
    (modify f : EStateM ε σ PUnit) s = .ok a t ↔ t = f s := by
  change EStateM.Result.ok PUnit.unit (f s) = .ok a t ↔ _
  simp [eq_comm]

namespace Pass

variable {σ α : Type} {s t : Site σ} {e : Error}

theorem scan_eq_error_iff {step : Scan α} :
    scan step s = .error e t ↔ step s.cursor = .error e t.cursor ∧ t.target = s.target := by
  obtain ⟨cursor, target⟩ := t
  unfold scan
  cases step s.cursor <;> simp [eq_comm, and_assoc]

theorem scan_of_ok {step : Scan α} {c c' : Cursor} {target : σ} {a : α} (h : step c = .ok a c') :
    scan step ⟨c, target⟩ = .ok a ⟨c', target⟩ := scan_eq_ok_iff.mpr ⟨h, rfl⟩

theorem scan_of_error {step : Scan α} {c c' : Cursor} {target : σ} (h : step c = .error e c') :
    scan step ⟨c, target⟩ = .error e ⟨c', target⟩ := scan_eq_error_iff.mpr ⟨h, rfl⟩

theorem build_eq_error_iff {step : EStateM Error σ α} :
    build step s = .error e t ↔ step s.target = .error e t.target ∧ t.cursor = s.cursor := by
  obtain ⟨cursor, target⟩ := t
  unfold build
  cases step s.target
  · simp
  · simp only [EStateM.Result.error.injEq, Site.mk.injEq]
    grind

theorem drafted_eq_ok_iff {name : String} {params : List String} {body : Pass Draft Unit}
    {s t : Site Program} {u : Unit} :
    drafted name params body s = .ok u t ↔ ∃ d r, Draft.start name params s.target = .ok d ∧
      body ⟨s.cursor, d⟩ = .ok () r ∧ t = ⟨r.cursor, r.target.close⟩ := by
  unfold drafted
  cases Draft.start name params s.target with
  | error r => simp
  | ok d => cases hb : body ⟨s.cursor, d⟩ <;> simp [hb, eq_comm]

/-- A function fails before its body or in it. -/
theorem drafted_eq_error_iff {name : String} {params : List String} {body : Pass Draft Unit}
    {s t : Site Program} :
    drafted name params body s = .error e t ↔
      Draft.start name params s.target = .error (e, t.target) ∧ t.cursor = s.cursor ∨
      ∃ d r, Draft.start name params s.target = .ok d ∧ body ⟨s.cursor, d⟩ = .error e r ∧
        t = ⟨r.cursor, r.target.close⟩ := by
  obtain ⟨cursor, target⟩ := t
  unfold drafted
  cases Draft.start name params s.target with
  | error r =>
      simp only [EStateM.Result.error.injEq, Site.mk.injEq, Except.error.injEq, Prod.ext_iff,
        reduceCtorEq, false_and, exists_false, or_false]
      grind
  | ok d => cases hb : body ⟨s.cursor, d⟩ <;> simp [hb, eq_comm, and_assoc]

end Pass
end BCompiler
