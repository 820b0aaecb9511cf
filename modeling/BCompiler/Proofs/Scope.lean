import BCompiler.Proofs.Declaration

/-!
The names that a declaration binds to external storage.

A binding is made by an `extrn` statement and ends with its declaration, if that is compiled to its
end. A declaration that breaks off leaves its bindings to the session, where the first declaration
of the next source finds them. So bindings stay in their declarations exactly if no source with a
declaration is compiled while a name is bound.
-/
namespace BCompiler

/-- What binding a name can add to the bound names. -/
theorem Program.bound_bindExternal {name x : String} {p p' : Program}
    (h : p.bindExternal name = .ok p') (hx : x ∈ p'.bound) : x ∈ p.bound ∨ x = name := by
  rcases bindExternal_cases h with ⟨_, rfl⟩ | ⟨_, rfl⟩ | ⟨_, _, _, _, rfl⟩
  · exact .inl hx
  · exact (List.mem_cons.mp hx).symm
  · exact (List.mem_cons.mp hx).symm

/-- On the way from a draft to another, an `extrn` statement binds the name. -/
def Draft.Binds (x : String) (d d' : Draft) : Prop :=
  ∃ (d₁ : Draft) (p : Program), Trail d d₁ ∧ d₁.program.bindExternal x = .ok p ∧ x ∈ p.bound ∧
    Trail { d₁ with program := p } d'

/-- Along a trail, names are bound by `extrn` statements only. -/
theorem Trail.bound {d d' : Draft} (h : Trail d d') {x : String} (hx : x ∈ d'.program.bound) :
    x ∈ d.program.bound ∨ d.Binds x d' := by
  induction h with
  | @trans d d₁ d₂ h₁ h₂ ih₁ ih₂ =>
      rcases ih₂ hx with hx₁ | ⟨e, p, he, hb, hp, hrest⟩
      · rcases ih₁ hx₁ with hx₀ | ⟨e, p, he, hb, hp, hrest⟩
        · exact .inl hx₀
        · exact .inr ⟨e, p, he, hb, hp, hrest.trans h₂⟩
      · exact .inr ⟨e, p, h₁.trans he, hb, hp, hrest⟩
  | @external d name p _ hb =>
      rcases Program.bound_bindExternal hb hx with hx₀ | rfl
      · exact .inl hx₀
      · exact .inr ⟨d, p, .refl d, hb, hx, .refl _⟩
  | string | declare | refl | define | store | ended | addBlock | nextNumber | goTo | slot | label
  | labelDefined => exact .inl hx

/-- A name that is used as a value and stands for storage outside of the function is bound. -/
theorem Build.bound_of_resolve {x : String} {a : Operand} {d d' : Draft}
    (hlocal : d.locals.lookup x = none) (h : resolve x d = .ok (.address a) d') :
    x ∈ d.program.bound := by
  rcases resolve_cases x d with ⟨_, hl, _⟩ | ⟨_, he⟩ | ⟨hb, _⟩ | he
  · cases hlocal.symm.trans hl
  · obtain ⟨v, _, _, hp⟩ := bind_eq_ok_iff.mp (he.symm.trans h)
    cases hp
  · exact List.contains_iff_mem.mp hb
  · cases he.symm.trans h

namespace Heading

/-- The drafts on the way of a declaration that defines a function. -/
def Drafts (o : Heading) (d : Draft) : Prop :=
  ∃ params i m, o.site.target.module.defineFunction o.name params = .ok (i, m) ∧
    Trail (.ofFunction { o.site.target with module := m } i (.entered o.name params)) d

/-- A draft of the declaration in which an `extrn` statement of its own has bound the name. -/
def Binds (o : Heading) (x : String) (d : Draft) : Prop :=
  ∃ (d₁ : Draft) (p : Program), o.Drafts d₁ ∧ d₁.program.bindExternal x = .ok p ∧ x ∈ p.bound ∧
    Trail { d₁ with program := p } d

/-- Wherever the declaration uses a name as a value that is no local and stands for a global, an
`extrn` statement of its own has bound the name. -/
def SeesOwn (o : Heading) : Prop :=
  ∀ d x a d', o.Drafts d → d.locals.lookup x = none → Build.resolve x d = .ok (.address a) d' →
    o.Binds x d

theorem seesOwn_of_bound {o : Heading} (h : o.site.target.bound = []) : o.SeesOwn := by
  rintro d x a d' ⟨params, i, m, hd, ht⟩ hlocal hresolve
  rcases ht.bound (Build.bound_of_resolve hlocal hresolve) with hx | ⟨d₁, p, ht₁, hb, hx, hrest⟩
  · change x ∈ o.site.target.bound at hx
    rw [h] at hx
    cases hx
  · exact ⟨d₁, p, ⟨params, i, m, hd, ht₁⟩, hb, hx, hrest⟩

end Heading

namespace Deeds

variable {os : List Heading} {p p' : Program}

/-- The first declaration starts with the program, and each other one without bindings. -/
theorem bound (h : Deeds os p p') : ∀ o ∈ os, o.site.target = p ∨ o.site.target.bound = [] := by
  induction h with
  | nil p => exact fun _ ho => absurd ho List.not_mem_nil
  | broken _ _ =>
      intro o' ho
      rw [List.mem_singleton.mp ho]
      exact .inl rfl
  | @cons o os p p' _ _ _ ih =>
      intro o' ho
      rcases List.mem_cons.mp ho with rfl | ho
      · exact .inl rfl
      · rcases ih o' ho with htarget | hbound
        · exact .inr (congrArg Program.bound htarget)
        · exact .inr hbound

theorem exists_first (h : Deeds os p p') (hne : os ≠ []) : ∃ o ∈ os, o.site.target = p := by
  cases h with
  | nil => exact absurd rfl hne
  | broken _ _ => exact ⟨_, .head _, rfl⟩
  | cons _ _ _ => exact ⟨_, .head _, rfl⟩

end Deeds

namespace Session

/-- Whether every source of a list is accepted. -/
def acceptsAll : List (String × String) → Session → Bool
  | [], _ => true
  | (path, text) :: sources, s => s.accepts path text && (s.after path text).acceptsAll sources

/-- A source that is accepted adds no binding to those that it starts with. -/
theorem bound_after {s : Session} {path text : String} (h : s.accepts path text)
    (hbound : s.program.bound = []) : (s.after path text).program.bound = [] := by
  have hd := Pass.declarationsAt_deeds (Cursor.ofText text s.wordSize).depth
    ⟨.ofText text s.wordSize, s.program⟩
  change Leads _ _ _ _ (Pass.declarations ⟨.ofText text s.wordSize, s.program⟩) at hd
  unfold accepts compile at h
  unfold after compile
  cases hr : Pass.declarations ⟨.ofText text s.wordSize, s.program⟩ with
  | ok u t =>
      rw [hr] at hd
      exact hd.2.elim id fun htarget => (congrArg Program.bound htarget).trans hbound
  | error e t =>
      rw [hr] at h
      cases h

theorem bound_history {s : Session} {sources : List (String × String)}
    (h : s.acceptsAll sources) (hbound : s.program.bound = []) :
    (s.history sources).program.bound = [] := by
  induction sources generalizing s with
  | nil => exact hbound
  | cons source sources ih =>
      obtain ⟨hfirst, hrest⟩ := Bool.and_eq_true_iff.mp h
      exact ih hrest (bound_after hfirst hbound)

/-- Among the declarations of a source, only the first can find a name bound. -/
theorem unbound_headings_iff (s : Session) (path text : String) :
    (∀ o ∈ s.headings text, o.site.target.bound = []) ↔
      (s.headings text ≠ [] → s.program.bound = []) := by
  have hdeeds := s.deeds_after path text
  constructor
  · intro h hne
    obtain ⟨o, ho, htarget⟩ := hdeeds.exists_first hne
    exact htarget ▸ h o ho
  · intro h o ho
    rcases hdeeds.bound o ho with htarget | hbound
    · exact htarget ▸ h (List.ne_nil_of_mem ho)
    · exact hbound

/-- Bindings stay in their declarations exactly if every source with a declaration is compiled while
no name is bound, as it is if all sources before it were accepted. -/
theorem bindings_apart_iff (moduleName : String) (wordSize : Nat)
    (sources : List (String × String)) :
    ((∀ before path text after, sources = before ++ (path, text) :: after →
        ∀ o ∈ ((new moduleName wordSize).history before).headings text,
          (∀ x, o.site.target.isBound x = false) ∧ o.SeesOwn) ↔
      ∀ before path text after, sources = before ++ (path, text) :: after →
        ((new moduleName wordSize).history before).headings text ≠ [] →
        ((new moduleName wordSize).history before).program.bound = []) ∧
    ∀ before, (new moduleName wordSize).acceptsAll before →
      ((new moduleName wordSize).history before).program.bound = [] := by
  have hunbound : ∀ p : Program, (∀ x, p.isBound x = false) ↔ p.bound = [] := by
    intro p
    simp only [Program.isBound, List.contains_eq_mem, decide_eq_false_iff_not]
    exact List.eq_nil_iff_forall_not_mem.symm
  refine ⟨⟨fun h before path text after he => ?_, fun h before path text after he o ho => ?_⟩,
    fun before h => bound_history h rfl⟩
  · refine (unbound_headings_iff _ path text).mp fun o ho => ?_
    exact (hunbound _).mp (h before path text after he o ho).1
  · have hbound := (unbound_headings_iff _ path text).mpr (h before path text after he) o ho
    exact ⟨(hunbound _).mpr hbound, Heading.seesOwn_of_bound hbound⟩

/-- A function that breaks off behind an `extrn` statement leaves the name bound: a later function
uses the global as a value without one. -/
theorem binding_left_over :
    ∃ o ∈ ((new "b" 8).history
        [("a.b", "g 1; f() \x7b extrn g; return(1 \x7d")]).headings "h() \x7b return(g); \x7d",
      o.site.target.isBound "g" = true ∧
      ((new "b" 8).history [("a.b", "g 1; f() \x7b extrn g; return(1 \x7d")]).accepts "b.b"
        "h() \x7b return(g); \x7d" = true := by
  decide +kernel

end Session
end BCompiler
