import BCompiler.Proofs.Trail.Declaration

/-!
What a session does to its program, source after source.

A source is accepted or stops with an error; either way its declarations so far have changed the
program by a few kinds of steps. A function stays in the module as far as its body was compiled.
-/
namespace BCompiler

/-- The symbol of a global: a name, or that of the buffer of an array. -/
def GlobalName (name : String) : Prop := isName name ∨ ∃ x, isName x ∧ name = x ++ ".data"

/-- The changes that lead from a program to another. -/
inductive Growth : Program → Program → Prop
  | refl (p : Program) : Growth p p
  | trans {p p₁ p₂ : Program} : Growth p p₁ → Growth p₁ p₂ → Growth p p₂
  | string (p : Program) (text : String) : Growth p (p.addString text).2
  | global {p p' : Program} {name : String} {init : GlobalInit} : GlobalName name →
      (∀ x ∈ init.addresses, x ∈ p.module.symbols) → p.defineGlobal name init = .ok p' →
      Growth p p'
  | clearScope (p : Program) : Growth p p.clearScope
  | function {p : Program} {name : String} {params : List String} {i : FunctionId} {m : Module}
      {d : Draft} : isName name → (∀ x ∈ params, isName x) →
      p.module.defineFunction name params = .ok (i, m) →
      Trail (.ofFunction { p with module := m } i (.entered name params)) d → Growth p d.close

instance : Lasting Growth := ⟨.refl, .trans⟩

theorem Program.defineGlobal_eq_ok {p p' : Program} {name : String} {init : GlobalInit}
    (h : p.defineGlobal name init = .ok p') :
    ∃ i m, p.module.defineGlobal name init = .ok (i, m) ∧ p' = { p with module := m } := by
  unfold defineGlobal at h
  cases hd : p.module.defineGlobal name init with
  | error e =>
      rw [hd] at h
      cases h
  | ok r =>
      rw [hd] at h
      cases h
      exact ⟨r.1, r.2, rfl, rfl⟩

theorem Module.defineFunction_eq_ok {m m' : Module} {name : String} {params : List String}
    {i : FunctionId} (h : m.defineFunction name params = .ok (i, m')) :
    name ∉ m.globalNames ∧ m.insertFunction (.entered name params) = (i, m') := by
  unfold defineFunction at h
  split at h
  · cases h
  · next hg => exact ⟨fun hm => hg (hasGlobal_iff_mem.mpr hm), Except.ok.inj h⟩

/-- Where a new function stands, and under which name. -/
theorem Module.name_of_insertFunction {m m' : Module} {f : Function} {i : FunctionId}
    (h : m.insertFunction f = (i, m')) : ∃ g, m'.functions[i]? = some g ∧ g.name = f.name :=
  name_of_functionId? (insertFunction_eq h).1

/-- The function of a draft has a place in the module under its name. -/
theorem Trail.place {d d' : Draft} (h : Trail d d') {g : Function}
    (hg : d.program.module.functions[d.id]? = some g) (hname : g.name = d.function.name) :
    ∃ g', d'.program.module.functions[d'.id]? = some g' ∧ g'.name = d'.function.name := by
  have hr := h.retains
  obtain ⟨hlt, rfl⟩ := List.getElem?_eq_some_iff.mp hg
  refine ⟨_, ?_, hname.trans hr.name.symm⟩
  rw [hr.id, ← List.prefix_iff_getElem?.mp hr.functions _ hlt]

theorem Strung.growth {p p' : Program} (h : Strung p p') : Growth p p' := by
  induction h with
  | refl => exact .refl p
  | @string p₁ text _ ih => exact ih.trans (.string p₁ text)

namespace Pass

variable {w : Program}

/-- A change of the program that fails leaves it as it was. -/
theorem update_trails {change : Program → Except Error Program}
    (h : ∀ p p', Growth w p → change p = .ok p' → Growth p p') :
    Trails Growth Site.target w (update change) fun _ _ => True := by
  refine build_trails fun p hp => ?_
  cases hc : change p with
  | ok p' =>
      simp only
      exact ⟨h p p' hp hc, trivial⟩
  | error e =>
      simp only
      exact .refl p

theorem declareScalar_growth {p p' : Program} {name : String} {values : List Constant}
    (hname : isName name) (hv : ∀ v ∈ values, Known v p)
    (h : p.declareScalar name values = .ok p') : Growth p p' := by
  unfold Program.declareScalar at h
  split at h
  · exact .global (.inl hname) (fun x hx => absurd hx List.not_mem_nil) h
  · next value =>
      refine .global (.inl hname) (fun x hx => ?_) h
      exact hv value (.head _) x hx
  · refine .global (.inl hname) (fun x hx => ?_) h
    obtain ⟨v, hm, hx⟩ := List.mem_flatMap.mp hx
    exact hv v hm x hx

theorem declareArray_growth {p p' : Program} {name : String} {size : UInt64}
    {values : List Constant} (hname : isName name) (hv : ∀ v ∈ values, Known v p)
    (h : p.declareArray name size values = .ok p') : Growth p p' := by
  obtain ⟨p₁, hd, h⟩ := Program.declareArray_eq_ok h
  have hbuffer : Growth p p₁ := by
    refine .global (.inr ⟨name, hname, rfl⟩) (fun x hx => ?_) hd
    obtain ⟨v, hm, hx⟩ := List.mem_flatMap.mp hx
    exact hv v hm x hx
  refine hbuffer.trans (.global (.inl hname) (fun x hx => ?_) h)
  cases List.mem_singleton.mp hx
  obtain ⟨i, m, hm, rfl⟩ := Program.defineGlobal_eq_ok hd
  obtain ⟨_, _, _, hg, _⟩ := Module.defineGlobal_eq_ok hm
  simp [Module.symbols, hg, mem_including]

end Pass

theorem Deed.growth {name : String} (hname : isName name) {form? : Option Form} {p p' : Program}
    (h : Deed name form? p p') : Growth p p' := by
  cases h with
  | scalar hs hv hd => exact hs.growth.trans (Pass.declareScalar_growth hname hv hd)
  | array hs hv hd => exact hs.growth.trans (Pass.declareArray_growth hname hv hd)
  | function hparams hd ht => exact .function hname hparams hd ht

namespace Pass

theorem declaration_trails {name : String} (hname : isName name) (w : Program) :
    Trails Growth Site.target w (declaration name) fun _ _ => True := by
  intro s _
  have h := declaration_attempts name s
  cases hd : declaration name s with
  | ok u t =>
      rw [hd] at h
      exact ⟨h.growth hname, trivial⟩
  | error e t =>
      rw [hd] at h
      exact h.elim Strung.growth (Deed.growth hname)

/-- By induction on the bound: whatever the text, declarations change the program step by step. -/
theorem declarationsAt_trails (depth : Nat) (w : Program) :
    Trails Growth Site.target w (declarationsAt depth) fun _ _ => True := by
  induction depth generalizing w with
  | zero => exact .throw
  | succ depth ih =>
      refine .bind (scan_trails Scan.name_gives) fun name w₁ _ hname => ?_
      split
      · refine scan_bind_trails fun next _ _ => ?_
        cases next with
        | none => exact .pure fun _ _ => trivial
        | some c => exact .throw
      · next hne =>
          refine .bind (declaration_trails (hname.resolve_left hne) w₁) fun _ w₂ _ _ => ?_
          refine .bind (update_trails fun p p' _ h => ?_) fun _ w₃ _ _ => ih w₃
          cases h
          exact .clearScope p

end Pass

namespace Session

/-- The session after a source, whether it was accepted or not. -/
def after (path text : String) (s : Session) : Session :=
  match compile path text s with
  | .ok _ s' => s'
  | .error _ s' => s'

/-- The session after a list of sources with their names. -/
def history (sources : List (String × String)) (s : Session) : Session :=
  sources.foldl (fun s source => s.after source.1 source.2) s

theorem growth_after (path text : String) (s : Session) :
    Growth s.program (s.after path text).program := by
  have h := Pass.declarationsAt_trails (Cursor.ofText text s.wordSize).depth s.program
    ⟨.ofText text s.wordSize, s.program⟩ (.refl _)
  change Leads _ _ _ _ (Pass.declarations ⟨.ofText text s.wordSize, s.program⟩) at h
  unfold after compile
  cases hd : Pass.declarations ⟨.ofText text s.wordSize, s.program⟩ with
  | ok u site =>
      rw [hd] at h
      exact h.1
  | error e site =>
      rw [hd] at h
      exact h

theorem growth_history (sources : List (String × String)) (s : Session) :
    Growth s.program (s.history sources).program := by
  induction sources generalizing s with
  | nil => exact .refl _
  | cons source sources ih =>
      exact (s.growth_after source.1 source.2).trans (ih (s.after source.1 source.2))

end Session
end BCompiler
