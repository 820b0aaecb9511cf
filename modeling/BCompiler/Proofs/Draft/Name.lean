import BCompiler.Proofs.Draft.Control

/-!
What names stand for in a draft.

A name is looked for among the locals, then the functions and then the bound names. A value must be
found there; a callee that is not becomes a function. Parameters become locals one after the other.
-/
namespace BCompiler
namespace Build

variable {x : String} {d d' : Draft}

theorem resolve_local {a : Operand} (h : d.locals.lookup x = some a) :
    resolve x d = .ok (.address a) d ∧ resolveCallee x d = .ok (.address a) d := by
  unfold resolve resolveCallee
  rw [get_bind, get_bind, h]
  exact ⟨rfl, rfl⟩

theorem resolve_function (hlocal : d.locals.lookup x = none)
    (hf : d.program.module.hasFunction x) :
    resolve x d = (do return Denotation.word (← toWord (.symbol x))) d ∧
      resolveCallee x d = .ok (.function x) d := by
  unfold resolve resolveCallee
  rw [get_bind, get_bind, hlocal]
  dsimp only
  rw [if_pos hf, if_pos hf]
  exact ⟨rfl, rfl⟩

theorem resolve_bound (hlocal : d.locals.lookup x = none)
    (hf : d.program.module.hasFunction x = false) (hb : d.program.isBound x) :
    resolve x d = .ok (.address (.symbol x)) d ∧
      resolveCallee x d = .ok (.address (.symbol x)) d := by
  unfold resolve resolveCallee
  rw [get_bind, get_bind, hlocal]
  dsimp only
  rw [hf, hb]
  exact ⟨rfl, rfl⟩

theorem resolve_unknown (hlocal : d.locals.lookup x = none)
    (hf : d.program.module.hasFunction x = false) (hb : d.program.isBound x = false) :
    resolve x d = .error (.undefinedName x) d ∧
      resolveCallee x d =
        if d.program.module.hasGlobal x then .ok (.address (.symbol x)) d
        else .ok (.function x) { d with program := d.program.declareFunction x } := by
  unfold resolve resolveCallee
  rw [get_bind, get_bind, hlocal]
  dsimp only
  rw [hf, hb]
  cases d.program.module.hasGlobal x <;> exact ⟨rfl, rfl⟩

/-- What a name may come to as a value. -/
theorem resolve_cases (x : String) (d : Draft) :
    (∃ a, d.locals.lookup x = some a ∧ resolve x d = .ok (.address a) d) ∨
    (d.program.module.hasFunction x ∧
      resolve x d = (do return Denotation.word (← toWord (.symbol x))) d) ∨
    (d.program.isBound x ∧ resolve x d = .ok (.address (.symbol x)) d) ∨
    resolve x d = .error (.undefinedName x) d := by
  cases hlocal : d.locals.lookup x with
  | some a => exact .inl ⟨a, rfl, (resolve_local hlocal).1⟩
  | none =>
      cases hf : d.program.module.hasFunction x with
      | true => exact .inr (.inl ⟨rfl, (resolve_function hlocal hf).1⟩)
      | false =>
          cases hb : d.program.isBound x with
          | true => exact .inr (.inr (.inl ⟨rfl, (resolve_bound hlocal hf hb).1⟩))
          | false => exact .inr (.inr (.inr (resolve_unknown hlocal hf hb).1))

/-- What a name may come to as a callee. The names of globals are found even if they are not
bound. -/
theorem resolveCallee_cases (x : String) (d : Draft) :
    (∃ a, d.locals.lookup x = some a ∧ resolveCallee x d = .ok (.address a) d) ∨
    (d.program.module.hasFunction x ∧ resolveCallee x d = .ok (.function x) d) ∨
    (d.locals.lookup x = none ∧ (d.program.isBound x ∨ d.program.module.hasGlobal x) ∧
      resolveCallee x d = .ok (.address (.symbol x)) d) ∨
    (d.locals.lookup x = none ∧ d.program.isBound x = false ∧
      d.program.module.hasGlobal x = false ∧
      resolveCallee x d =
        .ok (.function x) { d with program := d.program.declareFunction x }) := by
  cases hlocal : d.locals.lookup x with
  | some a => exact .inl ⟨a, rfl, (resolve_local hlocal).2⟩
  | none =>
      cases hf : d.program.module.hasFunction x with
      | true => exact .inr (.inl ⟨rfl, (resolve_function hlocal hf).2⟩)
      | false =>
          cases hb : d.program.isBound x with
          | true => exact .inr (.inr (.inl ⟨rfl, .inl rfl, (resolve_bound hlocal hf hb).2⟩))
          | false =>
              have hcallee := (resolve_unknown hlocal hf hb).2
              cases hg : d.program.module.hasGlobal x with
              | true =>
                  rw [hg, if_pos rfl] at hcallee
                  exact .inr (.inr (.inl ⟨rfl, .inr rfl, hcallee⟩))
              | false =>
                  rw [hg, if_neg Bool.false_ne_true] at hcallee
                  exact .inr (.inr (.inr ⟨rfl, rfl, rfl, hcallee⟩))

/-- What holds after each parameter got its slot and was stored there holds after all of them. -/
theorem spill_induction {P : Draft → Prop}
    (hstep : ∀ {d d₁ d₂ : Draft} {param : String} {v : Operand} {u : Unit}, P d →
      slot param none d = .ok v d₁ → store (.param param) v d₁ = .ok u d₂ → P d₂)
    {params : List String} {u : Unit} (hd : P d) (h : spill params d = .ok u d') : P d' := by
  induction params generalizing d with
  | nil =>
      obtain ⟨_, rfl⟩ := pure_eq_ok_iff.mp h
      exact hd
  | cons param params ih =>
      obtain ⟨v, d₁, hslot, hrest⟩ := bind_eq_ok_iff.mp h
      obtain ⟨_, d₂, hstore, htail⟩ := bind_eq_ok_iff.mp hrest
      exact ih (hstep hd hslot hstore) htail

end Build
end BCompiler
