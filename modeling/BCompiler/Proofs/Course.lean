import BCompiler.Proofs.Emission

/-!
The course of compiling a statement.

As for expressions, an accepted statement builds its part of the function by a few kinds of steps,
whatever its text: code of expressions, stack slots, labels, and the constructs that add blocks and
move between them.
-/
namespace BCompiler

/-- A course of compiling statements inside the innermost enclosing switch, if any. -/
inductive Course : Draft → Option Switch → Draft → Option Switch → Prop
  | refl (d : Draft) (enclosing : Option Switch) : Course d enclosing d enclosing
  | trans {d d₁ d₂ : Draft} {e e₁ e₂ : Option Switch} :
      Course d e d₁ e₁ → Course d₁ e₁ d₂ e₂ → Course d e d₂ e₂
  | code {d d' : Draft} {e : Option Switch} {known : List Typed} :
      Emission d [] d' known → Course d e d' e
  | slot {d d' : Draft} {e : Option Switch} {name : String} {words : Option UInt64} {v : Operand} :
      Build.slot name words d = .ok v d' → Course d e d' e
  | external {d d' : Draft} {e : Option Switch} {name : String} {u : Unit} :
      Build.bindExternal name d = .ok u d' → Course d e d' e
  | ret {d d₁ d' : Draft} {e : Option Switch} {known : List Typed} {v : Operand} {u : Unit} :
      Emission d [] d₁ known → (.word, v) ∈ known → Build.ret v d₁ = .ok u d' → Course d e d' e
  | goto {d d' : Draft} {e : Option Switch} {name : String} {u : Unit} :
      Build.goto name d = .ok u d' → Course d e d' e
  | label {d d' : Draft} {e : Option Switch} {name : String} {u : Unit} :
      Build.placeLabel name d = .ok u d' → Course d e d' e
  | case {d d' : Draft} {e : Switch} {value : Word} {block : BlockId} :
      (∀ arm ∈ e.cases, arm.1 ≠ value) → Build.caseBlock e.group value d = .ok block d' →
      Course d (some e) d' (some { e with cases := e.cases ++ [(value, block)] })
  | ifElse {d d₁ d₂ d₃ d₄ d₅ d' : Draft} {e e₁ e₂ : Option Switch} {known : List Typed}
      {word : Operand} {g : BlockGroup} {u u' : Unit} :
      Emission d [] d₁ known → (.word, word) ∈ known → Build.fork "if" word d₁ = .ok g d₂ →
      Course d₂ e d₃ e₁ → Build.fallInto g.last g.second d₃ = .ok u d₄ →
      Course d₄ e₁ d₅ e₂ → Build.enter g.last d₅ = .ok u' d' → Course d e d' e₂
  | whileLoop {d d₁ d₂ d₃ d₄ d' : Draft} {e e' : Option Switch} {known : List Typed}
      {word : Operand} {g : BlockGroup} {u u' : Unit} :
      Build.loop d = .ok g d₁ → Emission d₁ [] d₂ known → (.word, word) ∈ known →
      Build.test word g d₂ = .ok u d₃ → Course d₃ e d₄ e' →
      Build.fallInto g.first g.last d₄ = .ok u' d' → Course d e d' e'
  | switch {d d₁ d₂ d₃ d' : Draft} {e inner : Option Switch} {known : List Typed}
      {word : Operand} {g : BlockGroup} {u : Unit} :
      Emission d [] d₁ known → (.word, word) ∈ known → Build.select d₁ = .ok g d₂ →
      Course d₂ (some ⟨g.number, []⟩) d₃ inner →
      Build.settle word ((inner.map Switch.cases).getD []) g d₃ = .ok u d' → Course d e d' e

namespace Build

theorem declareLocal_course {name : String} {d d' : Draft} {u : Unit} (e : Option Switch)
    (h : declareLocal name d = .ok u d') : Course d e d' e := by
  obtain ⟨v, d₁, hs, h⟩ := bind_eq_ok_iff.mp h
  have hl : d₁.locals.lookup name = some v := by
    obtain ⟨_, _, rfl, rfl⟩ := slot_eq_ok_iff.mp hs
    exact List.lookup_cons_self
  have hc : Emission d₁ [] d₁ [(.word, .const 0), (.pointer, v)] :=
    (Emission.slot hl).trans (.const 0)
  exact (Course.slot hs).trans (.code (hc.trans (.store (.head _) (.tail _ (.head _)) h)))

theorem declareLocalArray_course {name : String} {size : UInt64} {d d' : Draft} {u : Unit}
    (e : Option Switch) (h : declareLocalArray name size d = .ok u d') : Course d e d' e := by
  obtain ⟨v, d₁, hs, h⟩ := bind_eq_ok_iff.mp h
  have hl : d₁.locals.lookup name = some v := by
    obtain ⟨_, _, rfl, rfl⟩ := slot_eq_ok_iff.mp hs
    exact List.lookup_cons_self
  have hfill : Emitting id [(.pointer, v)] (do
      let first ← emit (.arrayElement v (localArrayLength size) 1)
      store (← toWord first) v) fun _ _ => True := by
    refine .bind (emit_emitting rfl (by simp [Operation.demands])) fun first known₁ h₁ hf => ?_
    refine .bind (toWord_emitting hf) fun word known₂ h₂ hw => ?_
    exact (store_emitting hw (h₂ (h₁ (.head _)))).mono fun _ _ _ => trivial
  obtain ⟨known, hc, _⟩ := hfill _ _ _ h
  exact (Course.slot hs).trans (.code ((Emission.slot hl).trans hc))

theorem declareAuto_course {name : String} {size : Option Word} {d d' : Draft} {u : Unit}
    (e : Option Switch) (h : declareAuto name size d = .ok u d') : Course d e d' e := by
  cases size with
  | none => exact declareLocal_course e h
  | some size => exact declareLocalArray_course e h

end Build

namespace Pass

/-- Every run of a statement that succeeds is a course. -/
def Coursing (body : Body) : Prop :=
  ∀ enclosing s enclosing' t, body enclosing s = .ok enclosing' t →
    Course s.target enclosing t.target enclosing'

/-- A step that leaves the enclosing switch alone. -/
def Plain {α : Type} (step : Pass Draft α) : Prop :=
  ∀ s a t, step s = .ok a t → ∀ e, Course s.target e t.target e

theorem Plain.then {α : Type} {step : Pass Draft α} (h : Plain step) :
    Coursing fun enclosing => do
      let _ ← step
      return enclosing := by
  intro e s e' t hs
  obtain ⟨a, r, ha, hp⟩ := bind_eq_ok_iff.mp hs
  obtain ⟨rfl, rfl⟩ := pure_eq_ok_iff.mp hp
  exact h s a _ ha _

theorem Coursing.skip : Coursing fun enclosing => return enclosing := by
  intro e s e' t hs
  obtain ⟨rfl, rfl⟩ := pure_eq_ok_iff.mp hs
  exact .refl _ _

/-- A scan in front of a statement changes nothing in the draft. -/
theorem Coursing.scan {α : Type} {step : Scan α} {f : α → Body} (h : ∀ a, Coursing (f a)) :
    Coursing fun enclosing => Pass.scan step >>= fun a => f a enclosing := by
  intro e s e' t hs
  obtain ⟨a, r, ha, hf⟩ := bind_eq_ok_iff.mp hs
  have := h a e r e' t hf
  rwa [(scan_eq_ok_iff.mp ha).2] at this

theorem items_plain {α : Type} {close : Char} {place : String} {item : Pass Draft α}
    (h : Plain item) (depth : Nat) : Plain (items close place item depth) := by
  induction depth with
  | zero =>
      intro s a t hs
      cases throw_ne_ok hs
  | succ depth ih =>
      intro s a t hs e
      obtain ⟨b, r, hb, hs⟩ := bind_eq_ok_iff.mp hs
      obtain ⟨another, r₁, ha, hs⟩ := bind_eq_ok_iff.mp hs
      have hr := (scan_eq_ok_iff.mp ha).2
      cases another with
      | true =>
          obtain ⟨bs, r₂, hi, hp⟩ := bind_eq_ok_iff.mp hs
          obtain ⟨rfl, rfl⟩ := pure_eq_ok_iff.mp hp
          exact (h s b r hb e).trans (hr ▸ ih r₁ bs t hi e)
      | false =>
          obtain ⟨rfl, rfl⟩ := pure_eq_ok_iff.mp hs
          exact hr ▸ h s b r hb e

theorem auto_plain : Plain auto := by
  intro s a t hs e
  obtain ⟨item, r, hi, hs⟩ := bind_eq_ok_iff.mp hs
  have := Build.declareAuto_course e (build_eq_ok_iff.mp hs).1
  rwa [(scan_eq_ok_iff.mp hi).2] at this

theorem extrn_plain : Plain extrn := by
  intro s a t hs e
  obtain ⟨name, r, hi, hs⟩ := bind_eq_ok_iff.mp hs
  have := Course.external (e := e) (build_eq_ok_iff.mp hs).1
  rwa [(scan_eq_ok_iff.mp hi).2] at this

theorem goto_plain : Plain goto := by
  intro s a t hs e
  obtain ⟨name, r, hi, hs⟩ := bind_eq_ok_iff.mp hs
  obtain ⟨_, r₁, hb, hs⟩ := bind_eq_ok_iff.mp hs
  have := Course.goto (e := e) (build_eq_ok_iff.mp hb).1
  rwa [(scan_eq_ok_iff.mp hi).2, ← (scan_eq_ok_iff.mp hs).2] at this

/-- A word that is compiled by a course. -/
def Valued (value : Pass Draft Operand) : Prop :=
  Emitting Site.target [] value fun v known => (.word, v) ∈ known

theorem expression_coursing {value : Pass Draft Operand} (h : Valued value) :
    Coursing fun enclosing => do
      let _ ← value
      scan (Scan.expect ';' "after expression statement")
      return enclosing := by
  intro e s e' t hs
  obtain ⟨v, s₁, hv, hs⟩ := bind_eq_ok_iff.mp hs
  obtain ⟨_, s₂, h₂, hs⟩ := bind_eq_ok_iff.mp hs
  obtain ⟨rfl, rfl⟩ := pure_eq_ok_iff.mp hs
  obtain ⟨known, hc, _⟩ := h s v s₁ hv
  rw [(scan_eq_ok_iff.mp h₂).2]
  exact .code hc

theorem ret_plain {value : Pass Draft Operand} (h : Valued value) : Plain (ret value) := by
  intro s a t hs e
  obtain ⟨found, r, hf, hs⟩ := bind_eq_ok_iff.mp hs
  rw [← (scan_eq_ok_iff.mp hf).2]
  split at hs
  · exact .ret (.const 0) (.head _) (build_eq_ok_iff.mp hs).1
  · obtain ⟨word, r₁, hw, hs⟩ := bind_eq_ok_iff.mp hs
    obtain ⟨_, r₂, h₂, hs⟩ := bind_eq_ok_iff.mp hs
    obtain ⟨_, r₃, h₃, hs⟩ := bind_eq_ok_iff.mp hs
    obtain ⟨known, hc, hk⟩ := h r word r₁ hw
    have hb := (build_eq_ok_iff.mp hs).1
    rw [(scan_eq_ok_iff.mp h₃).2, (scan_eq_ok_iff.mp h₂).2] at hb
    exact .ret hc hk hb
  · cases throw_ne_ok hs

/-- The parts of a switch that is accepted. -/
theorem switch_eq_ok {value : Pass Draft Operand} {body : Body} {s t : Site Draft} {u : Unit}
    (h : switch value body s = .ok u t) :
    ∃ word r g s₂ inner s₃, value s = .ok word r ∧ Build.select r.target = .ok g s₂.target ∧
      body (some ⟨g.number, []⟩) s₂ = .ok inner s₃ ∧
      Build.settle word ((inner.map Switch.cases).getD []) g s₃.target = .ok () t.target := by
  obtain ⟨word, r, hw, h⟩ := bind_eq_ok_iff.mp h
  obtain ⟨g, s₂, hg, h⟩ := bind_eq_ok_iff.mp h
  obtain ⟨inner, s₃, hi, h⟩ := bind_eq_ok_iff.mp h
  exact ⟨word, r, g, s₂, inner, s₃, hw, (build_eq_ok_iff.mp hg).1, hi, (build_eq_ok_iff.mp h).1⟩

theorem switch_plain {value : Pass Draft Operand} {body : Body} (hv : Valued value)
    (hb : Coursing body) : Plain (switch value body) := by
  intro s a t hs e
  obtain ⟨word, r, g, s₂, inner, s₃, hw, hg, hi, hd⟩ := switch_eq_ok hs
  obtain ⟨known, hc, hk⟩ := hv s word r hw
  exact .switch hc hk hg (hb _ _ _ _ hi) hd

theorem labelled_coursing {body : Body} (hb : Coursing body) : Coursing (labelled body) := by
  refine Coursing.scan fun next => ?_
  by_cases h : next = some '}'
  · simpa only [if_pos h] using Coursing.skip
  · simpa only [if_neg h] using hb

theorem elsePart_coursing {body : Body} (hb : Coursing body) : Coursing (elsePart body) := by
  refine Coursing.scan fun found => ?_
  cases found with
  | true => exact hb
  | false => exact Coursing.skip

theorem case_coursing {body : Body} (hb : Coursing body) : Coursing (case body) := by
  intro e s e' t hs
  cases e with
  | none => cases throw_ne_ok hs
  | some enclosing =>
      obtain ⟨value, s₁, hv, hs⟩ := bind_eq_ok_iff.mp hs
      rw [← (scan_eq_ok_iff.mp hv).2]
      split at hs
      · cases throw_ne_ok hs
      · next hnew =>
          obtain ⟨block, s₂, hblock, hs⟩ := bind_eq_ok_iff.mp hs
          refine (Course.case ?_ (build_eq_ok_iff.mp hblock).1).trans
            (labelled_coursing hb _ _ _ _ hs)
          intro arm harm he
          exact hnew (List.any_eq_true.mpr ⟨arm, harm, beq_iff_eq.mpr he⟩)

theorem label_coursing {name : String} {body : Body} (hb : Coursing body) :
    Coursing (label name body) := by
  intro e s e' t hs
  obtain ⟨_, s₁, hl, hs⟩ := bind_eq_ok_iff.mp hs
  exact (Course.label (build_eq_ok_iff.mp hl).1).trans (labelled_coursing hb _ _ _ _ hs)

/-- The parts of a conditional that is accepted. -/
theorem ifElse_eq_ok {condition : Pass Draft Operand} {body : Body} {e e' : Option Switch}
    {s t : Site Draft} (h : ifElse condition body e s = .ok e' t) :
    ∃ word r g s₂ e₁ s₃ s₄ s₅,
      (scan (Scan.expect '(' "after 'if'") >>= fun _ => condition) s = .ok word r ∧
      Build.fork "if" word r.target = .ok g s₂.target ∧ body e s₂ = .ok e₁ s₃ ∧
      Build.fallInto g.last g.second s₃.target = .ok () s₄.target ∧
      elsePart body e₁ s₄ = .ok e' s₅ ∧ Build.enter g.last s₅.target = .ok () t.target := by
  obtain ⟨_, s₁, h₁, h⟩ := bind_eq_ok_iff.mp h
  obtain ⟨word, r, hw, h⟩ := bind_eq_ok_iff.mp h
  obtain ⟨_, r', hr, h⟩ := bind_eq_ok_iff.mp h
  obtain ⟨g, s₂, hg, h⟩ := bind_eq_ok_iff.mp h
  obtain ⟨e₁, s₃, hthen, h⟩ := bind_eq_ok_iff.mp h
  obtain ⟨_, s₄, hfall, h⟩ := bind_eq_ok_iff.mp h
  obtain ⟨e₂, s₅, helse, h⟩ := bind_eq_ok_iff.mp h
  obtain ⟨_, s₆, henter, h⟩ := bind_eq_ok_iff.mp h
  obtain ⟨rfl, rfl⟩ := pure_eq_ok_iff.mp h
  have hfork := (build_eq_ok_iff.mp hg).1
  rw [(scan_eq_ok_iff.mp hr).2] at hfork
  exact ⟨word, r, g, s₂, e₁, s₃, s₄, s₅, bind_eq_ok_iff.mpr ⟨_, s₁, h₁, hw⟩, hfork, hthen,
    (build_eq_ok_iff.mp hfall).1, helse, (build_eq_ok_iff.mp henter).1⟩

theorem ifElse_coursing {condition : Pass Draft Operand} {body : Body} (hc : Valued condition)
    (hb : Coursing body) : Coursing (ifElse condition body) := by
  intro e s e' t hs
  obtain ⟨word, r, g, s₂, e₁, s₃, s₄, s₅, hw, hfork, hthen, hfall, helse, henter⟩ := ifElse_eq_ok hs
  obtain ⟨_, s₁, h₁, hw⟩ := bind_eq_ok_iff.mp hw
  obtain ⟨known, hcode, hk⟩ := hc s₁ word r hw
  rw [(scan_eq_ok_iff.mp h₁).2] at hcode
  exact .ifElse hcode hk hfork (hb _ _ _ _ hthen) hfall (elsePart_coursing hb _ _ _ _ helse) henter

/-- The parts of a loop that is accepted. -/
theorem whileLoop_eq_ok {condition : Pass Draft Operand} {body : Body} {e e' : Option Switch}
    {s t : Site Draft} (h : whileLoop condition body e s = .ok e' t) :
    ∃ word g s₁ r s₂ s₃, Build.loop s.target = .ok g s₁.target ∧
      (scan (Scan.expect '(' "after 'while'") >>= fun _ => condition) s₁ = .ok word r ∧
      Build.test word g r.target = .ok () s₂.target ∧ body e s₂ = .ok e' s₃ ∧
      Build.fallInto g.first g.last s₃.target = .ok () t.target := by
  obtain ⟨g, s₁, hg, h⟩ := bind_eq_ok_iff.mp h
  obtain ⟨_, s₁', h₁, h⟩ := bind_eq_ok_iff.mp h
  obtain ⟨word, r, hw, h⟩ := bind_eq_ok_iff.mp h
  obtain ⟨_, r', hr, h⟩ := bind_eq_ok_iff.mp h
  obtain ⟨_, s₂, htest, h⟩ := bind_eq_ok_iff.mp h
  obtain ⟨e₁, s₃, hbody, h⟩ := bind_eq_ok_iff.mp h
  obtain ⟨_, s₄, hfall, h⟩ := bind_eq_ok_iff.mp h
  obtain ⟨rfl, rfl⟩ := pure_eq_ok_iff.mp h
  have htest := (build_eq_ok_iff.mp htest).1
  rw [(scan_eq_ok_iff.mp hr).2] at htest
  exact ⟨word, g, s₁, r, s₂, s₃, (build_eq_ok_iff.mp hg).1, bind_eq_ok_iff.mpr ⟨_, s₁', h₁, hw⟩,
    htest, hbody, (build_eq_ok_iff.mp hfall).1⟩

theorem whileLoop_coursing {condition : Pass Draft Operand} {body : Body} (hc : Valued condition)
    (hb : Coursing body) : Coursing (whileLoop condition body) := by
  intro e s e' t hs
  obtain ⟨word, g, s₁, r, s₂, s₃, hloop, hw, htest, hbody, hfall⟩ := whileLoop_eq_ok hs
  obtain ⟨_, s₁', h₁, hw⟩ := bind_eq_ok_iff.mp hw
  obtain ⟨known, hcode, hk⟩ := hc s₁' word r hw
  rw [(scan_eq_ok_iff.mp h₁).2] at hcode
  exact .whileLoop hloop hcode hk htest (hb _ _ _ _ hbody) hfall

/-- A statement and the statements of a block together, by induction on the bound. -/
theorem grammar_coursing (depth : Nat) :
    Coursing (statementAt depth) ∧ Coursing (statements depth) := by
  induction depth with
  | zero => exact ⟨fun _ _ _ _ hs => absurd hs throw_ne_ok, fun _ _ _ _ hs => absurd hs throw_ne_ok⟩
  | succ depth ih =>
      obtain ⟨hstatement, hstatements⟩ := ih
      have hvalue : Valued (expressionAt depth fullLevel) := expressionAt_emitting depth _ []
      constructor
      · refine Coursing.scan fun head => ?_
        cases head with
        | compound => exact hstatements
        | empty => exact Coursing.skip
        | ifElse => exact ifElse_coursing hvalue hstatement
        | whileLoop => exact whileLoop_coursing hvalue hstatement
        | case => exact case_coursing hstatement
        | label name => exact label_coursing hstatement
        | switch => exact (switch_plain hvalue hstatement).then
        | goto => exact goto_plain.then
        | auto => exact (items_plain auto_plain depth).then
        | extrn => exact (items_plain extrn_plain depth).then
        | ret => exact (ret_plain hvalue).then
        | expression => exact expression_coursing hvalue
      · refine Coursing.scan fun closed => ?_
        cases closed with
        | true => exact Coursing.skip
        | false =>
            refine Coursing.scan fun atEnd => ?_
            cases atEnd with
            | true => exact fun _ _ _ _ hs => absurd hs throw_ne_ok
            | false =>
                intro e s e' t hs
                obtain ⟨e₁, s₁, h₁, hs⟩ := bind_eq_ok_iff.mp hs
                exact (hstatement _ _ _ _ h₁).trans (hstatements _ _ _ _ hs)

/-- Whatever the text, an accepted statement is compiled by a course of known steps. -/
theorem statement_course {s t : Site Draft} {u : Unit} (h : statement s = .ok u t) :
    ∃ e, Course s.target none t.target e := by
  obtain ⟨e, r, he, hp⟩ := bind_eq_ok_iff.mp h
  obtain ⟨_, rfl⟩ := pure_eq_ok_iff.mp hp
  exact ⟨e, (grammar_coursing _).1 _ _ _ _ he⟩

end Pass
end BCompiler
