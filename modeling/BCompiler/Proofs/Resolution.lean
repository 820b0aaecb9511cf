import BCompiler.Proofs.Closure
import BCompiler.Proofs.Fault
import BCompiler.Proofs.Scope

/-!
What a name stands for while a function is compiled.

A name that stands for storage or for a function goes on to stand for it, unless a local of that
name is declared: locals are never given up, functions and bindings last as long as the declaration,
and no function gets the name of a global. As a callee a name stands for the same as it does as a
value. A name that stands for nothing as a value may still be called, and it is a declared function
from then on.
-/
namespace BCompiler

/-- No function has the name of a global, and what is bound is a global. -/
structure Program.Apart (p : Program) : Prop where
  disjoint : ∀ x ∈ p.module.functionNames, x ∉ p.module.globalNames
  bound : p.bound ⊆ p.module.globalNames

namespace Program.Apart

variable {p p' : Program}

/-- A function of a name that no global has. -/
theorem withFunction (h : p.Apart) {m : Module} {name : String} (hnew : name ∉ p.module.globalNames)
    (hf : m.functionNames = including name p.module.functionNames)
    (hg : m.globals = p.module.globals) : ({ p with module := m }).Apart := by
  have hglobals : m.globalNames = p.module.globalNames := congrArg (List.map Global.name) hg
  refine ⟨fun x hx => ?_, fun x hx => hglobals ▸ h.bound hx⟩
  change x ∉ m.globalNames
  rw [hglobals]
  rcases mem_including.mp (hf ▸ hx) with hx | rfl
  · exact h.disjoint x hx
  · exact hnew

theorem bindExternal (h : p.Apart) {name : String} (hb : p.bindExternal name = .ok p') :
    p'.Apart := by
  rcases Program.bindExternal_cases hb with ⟨_, rfl⟩ | ⟨hg, rfl⟩ | ⟨i, m, _, hd, rfl⟩
  · exact h
  · refine { h with bound := fun x hx => ?_ }
    rcases List.mem_cons.mp hx with rfl | hx
    · exact Module.hasGlobal_iff_mem.mp hg
    · exact h.bound hx
  · obtain ⟨hnew, hf, _, hg, _⟩ := Module.defineGlobal_eq_ok hd
    refine ⟨fun x hx hx' => ?_, fun x hx => hg ▸ mem_including.mpr ?_⟩
    · have hold : x ∈ p.module.functionNames := by
        rwa [Module.functionNames, hf] at hx
      rcases mem_including.mp (hg ▸ hx') with hx' | rfl
      · exact h.disjoint x hold hx'
      · exact Bool.eq_false_iff.mp hnew (Module.hasFunction_iff_mem.mpr hold)
    · exact (List.mem_cons.mp hx).elim .inr fun hx => .inl (h.bound hx)

theorem not_hasFunction (h : p.Apart) {x : String} (hx : p.isBound x) :
    p.module.hasFunction x = false := by
  refine Bool.eq_false_iff.mpr fun hf => ?_
  exact h.disjoint x (Module.hasFunction_iff_mem.mp hf) (h.bound (List.contains_iff_mem.mp hx))

end Program.Apart

theorem Trail.apart {d d' : Draft} (ht : Trail d d') (h : d.program.Apart) : d'.program.Apart := by
  induction ht with
  | refl => exact h
  | trans _ _ ih₁ ih₂ => exact ih₂ (ih₁ h)
  | define | store | ended | addBlock | nextNumber | goTo | slot | label | labelDefined => exact h
  | string d text => exact ⟨h.disjoint, h.bound⟩
  | @declare d name _ hnew =>
      exact h.withFunction hnew (d.program.module.functionNames_declareFunction name)
        (d.program.module.declareFunction_others name).1
  | external _ hb => exact h.bindExternal hb

/-- The program that a declaration finds has grown from that before the first one. -/
theorem Deeds.growth {os : List Heading} {p p' : Program} (h : Deeds os p p') :
    ∀ o ∈ os, Growth p o.site.target := by
  induction h with
  | nil p => exact fun _ ho => absurd ho List.not_mem_nil
  | broken _ _ =>
      intro o ho
      cases List.mem_singleton.mp ho
      exact .refl _
  | @cons o os p p' hname hd _ ih =>
      intro o' ho
      rcases List.mem_cons.mp ho with rfl | ho
      · exact .refl _
      · exact (hd.growth hname).trans ((Growth.clearScope p).trans (ih o' ho))

theorem Heading.Drafts.apart {moduleName : String} {wordSize : Nat}
    {before : List (String × String)} {text : String} {o : Heading} {d : Draft} (hd : o.Drafts d)
    (ho : o ∈ ((Session.new moduleName wordSize).history before).headings text) :
    d.program.Apart := by
  have hclosed : o.site.target.Closed :=
    ((Session.deeds_after _ "" text).growth o ho).closed
      (Session.closed_history moduleName wordSize before)
  have hapart : o.site.target.Apart := ⟨hclosed.named.disjoint, hclosed.bound⟩
  obtain ⟨params, i, m, hdefine, ht⟩ := hd
  obtain ⟨hnew, hi⟩ := Module.defineFunction_eq_ok hdefine
  refine ht.apart (hapart.withFunction hnew ?_ ?_)
  · rw [show m = _ from (congrArg Prod.snd hi).symm]
    exact Module.functionNames_insertFunction _ _
  · rw [show m = _ from (congrArg Prod.snd hi).symm]
    exact (Module.insertFunction_others _ _).1

namespace Draft

/-- The name stands for the storage at the address, as a value and as a callee. -/
def StandsForStorage (x : String) (a : Operand) (d : Draft) : Prop :=
  Build.resolve x d = .ok (.address a) d ∧ Build.resolveCallee x d = .ok (.address a) d

/-- The name stands for the function of that name: as a value for its address, which an instruction
makes a word, and as a callee for the function itself. -/
def StandsForFunction (x : String) (d : Draft) : Prop :=
  (∃ v d', Build.emit (.toWord (.symbol x)) d = .ok v d' ∧ Build.resolve x d = .ok (.word v) d') ∧
    Build.resolveCallee x d = .ok (.function x) d

/-- No local of the name is declared on the way from a draft to another. -/
def Undeclared (x : String) (d d' : Draft) : Prop :=
  d.locals.lookup x = none → d'.locals.lookup x = none

/-- What follows from how a name was resolved as a value, there and wherever its function comes to
without a declaration of a local of that name. -/
def Resolved (x : String) (d : Draft) : EStateM.Result Error Draft Denotation → Prop
  | .ok (.address a) d₁ =>
      d₁ = d ∧ ∀ d', Trail d d' → d.Undeclared x d' → d'.StandsForStorage x a
  | .ok (.word v) d₁ =>
      Build.emit (.toWord (.symbol x)) d = .ok v d₁ ∧
        ∀ d', Trail d d' → d.Undeclared x d' → d'.StandsForFunction x
  | .ok (.function _) _ => False
  | .error e d₁ =>
      e = .undefinedName x ∧ d₁ = d ∧
        if d.program.module.hasGlobal x then
          Build.resolveCallee x d = .ok (.address (.symbol x)) d
        else
          ∃ d', Build.resolveCallee x d = .ok (.function x) d' ∧
            d' = { d with
              program := { d.program with
                module := { d.program.module with
                  functions := d.program.module.functions ++ [.declared x] } } } ∧
            d'.StandsForFunction x

variable {x : String} {d : Draft}

theorem standsForFunction (hv : d.Valid) (hlocal : d.locals.lookup x = none)
    (hf : d.program.module.hasFunction x) : d.StandsForFunction x := by
  obtain ⟨hresolve, hcallee⟩ := Build.resolve_function hlocal hf
  have hemit : Build.emit (.toWord (.symbol x)) d = .ok _ _ :=
    Build.emit_eq_ok_iff.mpr ⟨hv, rfl, rfl⟩
  exact ⟨⟨_, _, hemit, hresolve.trans (bind_of_ok hemit)⟩, hcallee⟩

theorem resolved_local {a : Operand} (h : d.locals.lookup x = some a) :
    d.Resolved x (Build.resolve x d) := by
  rw [(Build.resolve_local h).1]
  exact ⟨rfl, fun d' ht _ => Build.resolve_local (ht.retains.slots h)⟩

theorem resolved_function (hv : ∀ d', Trail d d' → d'.Valid) (hlocal : d.locals.lookup x = none)
    (hf : d.program.module.hasFunction x) : d.Resolved x (Build.resolve x d) := by
  obtain ⟨⟨v, d₁, hemit, hresolve⟩, _⟩ := standsForFunction (hv d (.refl d)) hlocal hf
  rw [hresolve]
  refine ⟨hemit, fun d' ht hkept => standsForFunction (hv d' ht) (hkept hlocal) ?_⟩
  exact Module.hasFunction_iff_mem.mpr
    (ht.retains.program.functions (Module.hasFunction_iff_mem.mp hf))

theorem resolved_bound (h : d.program.Apart) (hlocal : d.locals.lookup x = none)
    (hb : d.program.isBound x) : d.Resolved x (Build.resolve x d) := by
  -- A function would be found before the bound name, but no name is both.
  rw [(Build.resolve_bound hlocal (h.not_hasFunction hb) hb).1]
  refine ⟨rfl, fun d' ht hkept => ?_⟩
  have hb' : d'.program.isBound x :=
    List.contains_iff_mem.mpr (ht.retains.program.bound (List.contains_iff_mem.mp hb))
  exact Build.resolve_bound (hkept hlocal) ((ht.apart h).not_hasFunction hb') hb'

theorem resolved_unknown (hv : d.Valid) (hlocal : d.locals.lookup x = none)
    (hf : d.program.module.hasFunction x = false) (hb : d.program.isBound x = false) :
    d.Resolved x (Build.resolve x d) := by
  obtain ⟨hresolve, hcallee⟩ := Build.resolve_unknown hlocal hf hb
  rw [hresolve]
  refine ⟨rfl, rfl, ?_⟩
  by_cases hg : d.program.module.hasGlobal x
  · rw [if_pos hg] at hcallee ⊢
    exact hcallee
  · rw [if_neg hg] at hcallee ⊢
    have hnone : d.program.module.functionId? x = none := by
      simpa [Module.hasFunction] using hf
    have hnone' : d.program.module.functionId? (Function.declared x).name = none := hnone
    have hdeclare : d.program.declareFunction x = { d.program with
        module := { d.program.module with
          functions := d.program.module.functions ++ [.declared x] } } := by
      simp only [Program.declareFunction, Module.declareFunction, hnone, Module.insertFunction,
        hnone']
    rw [hdeclare] at hcallee
    refine ⟨_, hcallee, rfl, standsForFunction hv hlocal ?_⟩
    exact Module.hasFunction_iff.mpr ⟨.declared x, List.mem_append_right _ (.head _), rfl⟩

end Draft

namespace Session

/-- Wherever a function is compiled in a session, a name keeps what it stands for until a local of
that name is declared. It stands for the same as a callee, and a name that stands for nothing is
called as a global or as a function that is declared by the call. -/
theorem resolved_of_drafts (moduleName : String) (wordSize : Nat)
    (before : List (String × String)) (text : String) {o : Heading}
    (ho : o ∈ ((new moduleName wordSize).history before).headings text) {d : Draft}
    (hd : o.Drafts d) (x : String) : d.Resolved x (Build.resolve x d) := by
  have hapart := hd.apart ho
  have hvalid : ∀ d', Trail d d' → d'.Valid := by
    obtain ⟨params, i, m, _, ht⟩ := hd
    exact fun d' ht' => (ht.trans ht').valid_of_entered
  cases hlocal : d.locals.lookup x with
  | some a => exact Draft.resolved_local hlocal
  | none =>
      cases hf : d.program.module.hasFunction x with
      | true => exact Draft.resolved_function hvalid hlocal hf
      | false =>
          cases hb : d.program.isBound x with
          | true => exact Draft.resolved_bound hapart hlocal hb
          | false => exact Draft.resolved_unknown (hvalid d (.refl d)) hlocal hf hb

/-- Once its parameter is stored, the name `a` of the function stands for its slot until the end,
and a call of `g`, which nothing declares, declares it. -/
theorem resolved_of_drafts_parameter :
    ∃ o ∈ ((new "b" 8).history [("a.b", "x 1;")]).headings "f(a) \x7b return(a); \x7d",
      ∃ d, o.Drafts d ∧ d.Resolved "a" (.ok (.address (.value 0)) d) ∧
        d.Resolved "g" (.error (.undefinedName "g") d) := by
  have hstart : ∃ o ∈ ((new "b" 8).history [("a.b", "x 1;")]).headings "f(a) \x7b return(a); \x7d",
      ((Draft.start o.name ["a"] o.site.target).toOption.any fun d =>
        d.locals.lookup "a" == some (.value 0) && (d.locals.lookup "g").isNone &&
          !d.program.module.hasFunction "g" && !d.program.isBound "g") = true := by
    decide +kernel
  obtain ⟨o, ho, hstart⟩ := hstart
  cases hd : Draft.start o.name ["a"] o.site.target with
  | error r =>
      rw [hd] at hstart
      cases hstart
  | ok d =>
      rw [hd] at hstart
      simp only [Except.toOption, Option.any_some, Bool.and_eq_true, beq_iff_eq,
        Option.isNone_iff_eq_none, Bool.not_eq_true'] at hstart
      obtain ⟨⟨⟨ha, hg⟩, hf⟩, hb⟩ := hstart
      obtain ⟨i, m, hdefine, ht⟩ := Draft.trail_of_start hd
      have hdrafts : o.Drafts d := ⟨_, i, m, hdefine, ht⟩
      refine ⟨o, ho, d, hdrafts, ?_, ?_⟩
      · rw [← (Build.resolve_local ha).1]
        exact resolved_of_drafts "b" 8 _ _ ho hdrafts "a"
      · rw [← (Build.resolve_unknown hg hf hb).1]
        exact resolved_of_drafts "b" 8 _ _ ho hdrafts "g"

end Session
end BCompiler
