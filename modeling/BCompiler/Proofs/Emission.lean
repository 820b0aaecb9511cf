import BCompiler.Proofs.Draft.Name
import BCompiler.Proofs.Draft.View

/-!
The course of compiling an expression.

Whatever the text, an expression that is accepted adds its code by a few kinds of steps. Each step
uses operands that are known from earlier ones, at the types at which they were made known. Every
property of the emitted code can be shown step by step along such a course, without a look at the
text.
-/
namespace BCompiler

/-- What a value of the representation is. -/
inductive ValueType where
  | word
  | bit
  | pointer
  deriving DecidableEq, Repr

/-- An operand and its type. -/
abbrev Typed := ValueType × Operand

def Callee.demands : Callee → List Typed
  | .direct _ => []
  | .indirect pointer => [(.pointer, pointer)]

/-- Whether a pointer to call through is the value of an instruction. -/
def Callee.isComputed : Callee → Bool
  | .direct _ | .indirect (.value _) => true
  | .indirect _ => false

namespace Operation

/-- The operands of an operation, with the types that it needs. -/
def demands : Operation → List Typed
  | alloca _ => []
  | load address => [(.pointer, address)]
  | binary _ lhs rhs | compare _ lhs rhs => [(.word, lhs), (.word, rhs)]
  | widen bit => [(.bit, bit)]
  | toPointer word => [(.word, word)]
  | toWord pointer => [(.pointer, pointer)]
  | element base index => [(.pointer, base), (.word, index)]
  | arrayElement base _ _ => [(.pointer, base)]
  | call callee arguments => callee.demands ++ arguments.map fun a => (.word, a)
  | phi incoming => incoming.map fun arm => (.word, arm.1)

/-- The type of the value that an operation gives. -/
def type : Operation → ValueType
  | alloca _ | toPointer _ | element _ _ | arrayElement _ _ _ => .pointer
  | compare _ _ _ => .bit
  | load _ | binary _ _ _ | widen _ | toWord _ | call _ _ | phi _ => .word

/-- Whether an operation calls no pointer but one that an instruction has computed. -/
def callsComputed : Operation → Bool
  | call callee _ => callee.isComputed
  | _ => true

/-- Whether an operation may stand anywhere in a block: no stack slot and no choice by the block
from which control came. -/
def isPlain : Operation → Bool
  | alloca _ | phi _ => false
  | operation => operation.callsComputed

theorem callsComputed_of_isPlain {operation : Operation} (h : operation.isPlain) :
    operation.callsComputed := by
  cases operation <;> first | rfl | exact h

end Operation

/-- A course of compiling an expression, from the operands known before it to those known after
it. -/
inductive Emission : Draft → List Typed → Draft → List Typed → Prop
  | refl (d : Draft) (known : List Typed) : Emission d known d known
  | trans {d d₁ d₂ : Draft} {known known₁ known₂ : List Typed} :
      Emission d known d₁ known₁ → Emission d₁ known₁ d₂ known₂ → Emission d known d₂ known₂
  | const {d : Draft} {known : List Typed} (w : Word) :
      Emission d known d ((.word, .const w) :: known)
  | symbol {d : Draft} {known : List Typed} (name : String) :
      Emission d known d ((.pointer, .symbol name) :: known)
  | slot {d : Draft} {known : List Typed} {name : String} {address : Operand} :
      d.locals.lookup name = some address → Emission d known d ((.pointer, address) :: known)
  | emit {d d' : Draft} {known : List Typed} {operation : Operation} {v : Operand} :
      operation.isPlain → (∀ x ∈ operation.demands, x ∈ known) →
      Build.emit operation d = .ok v d' → Emission d known d' ((operation.type, v) :: known)
  | store {d d' : Draft} {known : List Typed} {value address : Operand} {u : Unit} :
      (.word, value) ∈ known → (.pointer, address) ∈ known →
      Build.store value address d = .ok u d' → Emission d known d' known
  | string {d : Draft} {known : List Typed} (text : String) :
      Emission d known { d with program := (d.program.addString text).2 } known
  | declare {d : Draft} {known : List Typed} (name : String) :
      Emission d known { d with program := d.program.declareFunction name } known
  | conditional {d d₁ d₂ d₃ d₄ d' : Draft} {known known₂ known₄ : List Typed}
      {word thenValue elseValue v : Operand} {g : BlockGroup} {exit : BlockId} :
      (.word, word) ∈ known → Build.fork "cond" word d = .ok g d₁ →
      Emission d₁ known d₂ known₂ → (.word, thenValue) ∈ known₂ →
      Build.leave g.last d₂ = .ok exit d₃ →
      Emission (d₃.goTo g.second) known d₄ known₄ → (.word, elseValue) ∈ known₄ →
      Build.join g.last thenValue exit elseValue d₄ = .ok v d' →
      Emission d known d' ((.word, v) :: known)

theorem Emission.subset {d d' : Draft} {known known' : List Typed}
    (h : Emission d known d' known') : known ⊆ known' := by
  induction h with
  | refl => exact fun _ hx => hx
  | trans _ _ ih₁ ih₂ => exact fun _ hx => ih₂ (ih₁ hx)
  | store | string | declare => exact fun _ hx => hx
  | const | symbol | slot | emit | conditional => exact fun _ hx => .tail _ hx

/-- Every run of a step that succeeds is a course that ends as `after` says. -/
def Emitting {σ α : Type} (view : σ → Draft) (known : List Typed) (step : EStateM Error σ α)
    (after : α → List Typed → Prop) : Prop :=
  ∀ s a t, step s = .ok a t → ∃ known', Emission (view s) known (view t) known' ∧ after a known'

namespace Emitting

variable {σ α β : Type} {view : σ → Draft} {known : List Typed}

theorem pure {a : α} {after : α → List Typed → Prop} (h : after a known) :
    Emitting view known (Pure.pure a) after := by
  intro s b t hs
  obtain ⟨rfl, rfl⟩ := pure_eq_ok_iff.mp hs
  exact ⟨known, .refl _ _, h⟩

theorem throw {e : Error} {after : α → List Typed → Prop} :
    Emitting view known (MonadExcept.throw e) after := by
  intro s b t hs
  exact absurd hs throw_ne_ok

theorem bind {x : EStateM Error σ α} {f : α → EStateM Error σ β}
    {P : α → List Typed → Prop} {after : β → List Typed → Prop} (hx : Emitting view known x P)
    (hf : ∀ a known', known ⊆ known' → P a known' → Emitting view known' (f a) after) :
    Emitting view known (x >>= f) after := by
  intro s b t hs
  obtain ⟨a, r, ha, hb⟩ := bind_eq_ok_iff.mp hs
  obtain ⟨known', hc, hm⟩ := hx s a r ha
  obtain ⟨known'', hc', hafter⟩ := hf a known' hc.subset hm r b t hb
  exact ⟨known'', hc.trans hc', hafter⟩

theorem mono {x : EStateM Error σ α} {after after' : α → List Typed → Prop}
    (hx : Emitting view known x after) (h : ∀ a known', after a known' → after' a known') :
    Emitting view known x after' := by
  intro s a t hs
  obtain ⟨known', hc, ha⟩ := hx s a t hs
  exact ⟨known', hc, h a known' ha⟩

end Emitting

/-- The operand of a denotation is known at the type that the denotation gives it. -/
def Denotation.Known (known : List Typed) : Denotation → Prop
  | .word v => (.word, v) ∈ known
  | .address a => (.pointer, a) ∈ known
  | .function _ => True

namespace Build

variable {known : List Typed}

theorem emit_emitting {operation : Operation} (hp : operation.isPlain)
    (hd : ∀ x ∈ operation.demands, x ∈ known) :
    Emitting id known (emit operation) fun v known' => (operation.type, v) ∈ known' :=
  fun _ _ _ h => ⟨_, .emit hp hd h, .head _⟩

theorem store_emitting {value address : Operand} (hv : (.word, value) ∈ known)
    (ha : (.pointer, address) ∈ known) :
    Emitting id known (store value address) fun _ known' => known' = known :=
  fun _ _ _ h => ⟨_, .store hv ha h, rfl⟩

theorem load_emitting {address : Operand} (ha : (.pointer, address) ∈ known) :
    Emitting id known (load address) fun v known' => (.word, v) ∈ known' :=
  emit_emitting rfl (by simpa [Operation.demands] using ha)

theorem binary_emitting (op : BinaryOp) {lhs rhs : Operand} (hl : (.word, lhs) ∈ known)
    (hr : (.word, rhs) ∈ known) :
    Emitting id known (binary op lhs rhs) fun v known' => (.word, v) ∈ known' :=
  emit_emitting rfl (by simpa [Operation.demands] using ⟨hl, hr⟩)

theorem compare_emitting (pred : Predicate) {lhs rhs : Operand} (hl : (.word, lhs) ∈ known)
    (hr : (.word, rhs) ∈ known) :
    Emitting id known (compare pred lhs rhs) fun v known' => (.word, v) ∈ known' := by
  refine .bind (emit_emitting rfl (by simpa [Operation.demands] using ⟨hl, hr⟩)) ?_
  intro bit known' _ hbit
  refine emit_emitting rfl fun x hx => ?_
  cases List.mem_singleton.mp hx
  exact hbit

theorem toPointer_emitting {word : Operand} (hw : (.word, word) ∈ known) :
    Emitting id known (toPointer word) fun v known' => (.pointer, v) ∈ known' :=
  emit_emitting rfl (by simpa [Operation.demands] using hw)

theorem toWord_emitting {pointer : Operand} (hp : (.pointer, pointer) ∈ known) :
    Emitting id known (toWord pointer) fun v known' => (.word, v) ∈ known' :=
  emit_emitting rfl (by simpa [Operation.demands] using hp)

theorem element_emitting {base index : Operand} (hb : (.pointer, base) ∈ known)
    (hi : (.word, index) ∈ known) :
    Emitting id known (element base index) fun v known' => (.pointer, v) ∈ known' :=
  emit_emitting rfl (by simpa [Operation.demands] using ⟨hb, hi⟩)

theorem call_emitting {callee : Callee} {arguments : List Operand} (hcomputed : callee.isComputed)
    (hc : ∀ x ∈ callee.demands, x ∈ known) (ha : ∀ a ∈ arguments, (.word, a) ∈ known) :
    Emitting id known (call callee arguments) fun v known' => (.word, v) ∈ known' := by
  refine emit_emitting hcomputed ?_
  intro x hx
  rcases List.mem_append.mp hx with hx | hx
  · exact hc x hx
  · obtain ⟨a, hm, rfl⟩ := List.mem_map.mp hx
    exact ha a hm

/-- The word of a symbol, whatever it names. -/
theorem symbolWord_emitting (name : String) :
    Emitting id known (toWord (.symbol name)) fun v known' => (.word, v) ∈ known' := by
  intro d v d' h
  obtain ⟨known', hc, hv⟩ := toWord_emitting (.head known) d v d' h
  exact ⟨known', (Emission.symbol name).trans hc, hv⟩

theorem rvalue_emitting {a : Denotation} (ha : a.Known known) :
    Emitting id known (rvalue a) fun v known' => (.word, v) ∈ known' := by
  cases a with
  | word value => exact .pure ha
  | address address => exact load_emitting ha
  | function name => exact symbolWord_emitting name

theorem string_emitting (text : String) :
    Emitting id known (string text) fun v known' => (.word, v) ∈ known' := by
  refine .bind (P := fun _ _ => True) ?_ fun name _ _ _ => symbolWord_emitting name
  intro d name d' h
  obtain ⟨p, hp, rfl⟩ := onProgram_eq_ok_iff.mp h
  cases hp
  exact ⟨known, .string text, trivial⟩

theorem resolve_emitting (name : String) :
    Emitting id known (resolve name) fun a known' => a.Known known' := by
  intro d a d' hs
  rcases resolve_cases name d with ⟨address, hl, he⟩ | ⟨_, he⟩ | ⟨_, he⟩ | he
  · cases he.symm.trans hs
    exact ⟨_, .slot hl, .head _⟩
  · obtain ⟨v, _, hv, hp⟩ := bind_eq_ok_iff.mp (he.symm.trans hs)
    obtain ⟨rfl, rfl⟩ := pure_eq_ok_iff.mp hp
    exact symbolWord_emitting name _ _ _ hv
  · cases he.symm.trans hs
    exact ⟨_, .symbol name, .head _⟩
  · cases he.symm.trans hs

theorem resolveCallee_emitting (name : String) :
    Emitting id known (resolveCallee name) fun a known' => a.Known known' := by
  intro d a d' hs
  rcases resolveCallee_cases name d with ⟨address, hl, he⟩ | ⟨_, he⟩ | ⟨_, _, he⟩ | ⟨_, _, _, he⟩
  · cases he.symm.trans hs
    exact ⟨_, .slot hl, .head _⟩
  · cases he.symm.trans hs
    exact ⟨_, .refl _ _, trivial⟩
  · cases he.symm.trans hs
    exact ⟨_, .symbol name, .head _⟩
  · cases he.symm.trans hs
    exact ⟨_, .declare name, trivial⟩

theorem step_emitting (op : BinaryOp) (spelling : String) {a : Denotation} (ha : a.Known known) :
    Emitting id known (step op spelling a) fun r known' =>
      (.word, r.1) ∈ known' ∧ (.pointer, r.2) ∈ known' := by
  cases a with
  | word value => exact .throw
  | function name => exact .throw
  | address address =>
      refine .bind (load_emitting ha) fun old known₁ h₁ hold => ?_
      refine .bind (P := fun v known' => (ValueType.word, v) ∈ known') ?_ fun v known₂ h₂ hv => ?_
      · intro d v d' h
        obtain ⟨known', hc, hv⟩ := binary_emitting op (.tail _ hold) (.head _) d v d' h
        exact ⟨known', (Emission.const 1).trans hc, hv⟩
      · refine .bind (store_emitting hv (h₂ (h₁ ha))) fun _ known₃ _ h₃ => ?_
        subst h₃
        exact .pure ⟨h₂ hold, h₂ (h₁ ha)⟩

end Build

theorem Op.apply_emitting (op : Op) {known : List Typed} {lhs rhs : Operand}
    (hl : (.word, lhs) ∈ known) (hr : (.word, rhs) ∈ known) :
    Emitting id known (op.apply lhs rhs) fun v known' => (.word, v) ∈ known' := by
  cases op with
  | binary op => exact Build.binary_emitting op hl hr
  | compare pred => exact Build.compare_emitting pred hl hr

namespace Build

variable {known : List Typed}

theorem assign_emitting {op : Option Op} {address value : Operand}
    (ha : (.pointer, address) ∈ known) (hv : (.word, value) ∈ known) :
    Emitting id known (assign op address value) fun v known' => (.word, v) ∈ known' := by
  cases op with
  | none =>
      refine .bind (store_emitting hv ha) fun _ known₁ _ h₁ => ?_
      subst h₁
      exact .pure hv
  | some op =>
      refine .bind (load_emitting ha) fun old known₁ h₁ hold => ?_
      refine .bind (op.apply_emitting hold (h₁ hv)) fun joined known₂ h₂ hj => ?_
      refine .bind (store_emitting hj (h₂ (h₁ ha))) fun _ known₃ _ h₃ => ?_
      subst h₃
      exact .pure hj

theorem base_emitting {a : Denotation} (ha : a.Known known) :
    Emitting id known (base a) fun v known' => (.pointer, v) ∈ known' :=
  .bind (rvalue_emitting ha) fun _ _ _ hv => toPointer_emitting hv

/-- A word that is called becomes a pointer first. -/
theorem indirect_emitting {word : Operand} (hw : (.word, word) ∈ known) :
    Emitting id known (do return Callee.indirect (← toPointer word)) fun c known' =>
      c.isComputed ∧ ∀ x ∈ c.demands, x ∈ known' := by
  intro d c d' h
  obtain ⟨v, d₁, hv, hp⟩ := bind_eq_ok_iff.mp h
  obtain ⟨rfl, rfl⟩ := pure_eq_ok_iff.mp hp
  obtain ⟨known', hc, hm⟩ := toPointer_emitting hw d v d' hv
  obtain ⟨_, rfl, _⟩ := emit_eq_ok_iff.mp hv
  exact ⟨known', hc, rfl, by simpa [Callee.demands] using hm⟩

theorem callee_emitting {a : Denotation} (ha : a.Known known) :
    Emitting id known (callee a) fun c known' =>
      c.isComputed ∧ ∀ x ∈ c.demands, x ∈ known' := by
  cases a with
  | function name => exact .pure ⟨rfl, nofun⟩
  | address address => exact .bind (load_emitting ha) fun _ _ _ hv => indirect_emitting hv
  | word value => exact indirect_emitting ha

end Build

theorem Sign.apply_emitting (sign : Sign) {known : List Typed} {a : Denotation}
    (ha : a.Known known) :
    Emitting id known (sign.apply a) fun b known' => b.Known known' := by
  cases sign with
  | not =>
      refine .bind (Build.rvalue_emitting ha) fun v known₁ _ hv => ?_
      refine .bind (P := fun w known' => (ValueType.word, w) ∈ known') ?_ fun w _ _ hw => .pure hw
      intro d w d' h
      obtain ⟨known', hc, hw⟩ := Build.compare_emitting .eq (.tail _ hv) (.head _) d w d' h
      exact ⟨known', (Emission.const 0).trans hc, hw⟩
  | negate =>
      refine .bind (Build.rvalue_emitting ha) fun v known₁ _ hv => ?_
      refine .bind (P := fun w known' => (ValueType.word, w) ∈ known') ?_ fun w _ _ hw => .pure hw
      intro d w d' h
      obtain ⟨known', hc, hw⟩ := Build.binary_emitting .sub (.head _) (.tail _ hv) d w d' h
      exact ⟨known', (Emission.const 0).trans hc, hw⟩
  | dereference =>
      refine .bind (Build.rvalue_emitting ha) fun v known₁ _ hv => ?_
      exact .bind (Build.toPointer_emitting hv) fun w _ _ hw => .pure hw
  | increment => exact .bind (Build.step_emitting .add "++" ha) fun r _ _ hr => .pure hr.2
  | decrement => exact .bind (Build.step_emitting .sub "--" ha) fun r _ _ hr => .pure hr.2
  | addressOf =>
      cases a with
      | word value => exact .throw
      | function name => exact .throw
      | address address => exact .bind (Build.toWord_emitting ha) fun w _ _ hw => .pure hw

namespace Pass

variable {known : List Typed}

theorem scan_emitting {α : Type} {step : Scan α} {after : α → List Typed → Prop}
    (h : ∀ a, after a known) : Emitting Site.target known (scan step) after := by
  intro s a t hs
  rw [(scan_eq_ok_iff.mp hs).2]
  exact ⟨known, .refl _ _, h a⟩

theorem build_emitting {α : Type} {step : Build α} {after : α → List Typed → Prop}
    (h : Emitting id known step after) : Emitting Site.target known (build step) after :=
  fun s a t hs => h s.target a t.target (build_eq_ok_iff.mp hs).1

/-- A scan says nothing about the code. -/
theorem scan_bind_emitting {α β : Type} {step : Scan α} {f : α → Pass Draft β}
    {after : β → List Typed → Prop} (h : ∀ a, Emitting Site.target known (f a) after) :
    Emitting Site.target known (scan step >>= f) after := by
  refine .bind (P := fun _ known' => known' = known) (scan_emitting fun _ => rfl) ?_
  intro a known' _ hk
  subst hk
  exact h a

theorem items_emitting {close : Char} {place : String} {item : Pass Draft Operand} (depth : Nat)
    (h : ∀ known, Emitting Site.target known item fun v known' => (.word, v) ∈ known')
    (known : List Typed) :
    Emitting Site.target known (items close place item depth) fun vs known' =>
      ∀ v ∈ vs, (.word, v) ∈ known' := by
  induction depth generalizing known with
  | zero => exact .throw
  | succ depth ih =>
      refine .bind (h known) fun v known₁ h₁ hv => scan_bind_emitting fun another => ?_
      cases another with
      | true =>
          refine .bind (ih known₁) fun vs known₂ h₂ hvs => .pure ?_
          intro w hw
          rcases List.mem_cons.mp hw with rfl | hw
          · exact h₂ hv
          · exact hvs w hw
      | false => exact .pure (by simpa using hv)

theorem anyItems_emitting {close : Char} {place : String} {item : Pass Draft Operand} (depth : Nat)
    (h : ∀ known, Emitting Site.target known item fun v known' => (.word, v) ∈ known') :
    Emitting Site.target known (anyItems close place item depth) fun vs known' =>
      ∀ v ∈ vs, (.word, v) ∈ known' := by
  refine scan_bind_emitting fun none => ?_
  cases none with
  | true => exact .pure nofun
  | false => exact items_emitting depth h known

theorem assign_emitting {right : Pass Draft Operand} {op : Option Op} {a : Denotation}
    (hr : Emitting Site.target known right fun v known' => (.word, v) ∈ known')
    (ha : a.Known known) :
    Emitting Site.target known (assign right op a) fun v known' => (.word, v) ∈ known' := by
  cases a with
  | word value => exact .throw
  | function name => exact .throw
  | address address =>
      exact .bind hr fun v known₁ h₁ hv => build_emitting (Build.assign_emitting (h₁ ha) hv)

theorem conditional_emitting {thenArm elseArm : Pass Draft Operand} {a : Denotation}
    (ht : ∀ known, Emitting Site.target known thenArm fun v known' => (.word, v) ∈ known')
    (he : ∀ known, Emitting Site.target known elseArm fun v known' => (.word, v) ∈ known')
    (ha : a.Known known) :
    Emitting Site.target known (conditional thenArm elseArm a) fun v known' =>
      (.word, v) ∈ known' := by
  intro s v t h
  obtain ⟨g, s₁, hg, h⟩ := bind_eq_ok_iff.mp h
  obtain ⟨word, d, hw, hf⟩ := bind_eq_ok_iff.mp (build_eq_ok_iff.mp hg).1
  obtain ⟨thenValue, s₂, htv, h⟩ := bind_eq_ok_iff.mp h
  obtain ⟨exit, s₃, hl, h⟩ := bind_eq_ok_iff.mp h
  obtain ⟨_, s₄, hc, h⟩ := bind_eq_ok_iff.mp h
  obtain ⟨_, s₅, hsw, h⟩ := bind_eq_ok_iff.mp h
  obtain ⟨elseValue, s₆, hev, h⟩ := bind_eq_ok_iff.mp h
  obtain ⟨known₁, hc₁, hkw⟩ := Build.rvalue_emitting ha _ _ _ hw
  obtain ⟨known₂, hc₂, hkt⟩ := ht known₁ _ _ _ htv
  obtain ⟨known₄, hc₄, hke⟩ := he known₁ _ _ _ hev
  have h₅ : s₅.target = s₃.target.goTo g.second := by
    rw [Build.switchTo_eq_ok_iff.mp (build_eq_ok_iff.mp hsw).1, (scan_eq_ok_iff.mp hc).2]
  rw [h₅] at hc₄
  exact ⟨_, hc₁.trans (.conditional hkw hf hc₂ hkt (build_eq_ok_iff.mp hl).1 hc₄ hke
    (build_eq_ok_iff.mp h).1), .head _⟩

/-- The five levels of the grammar together, by induction on the bound. -/
theorem grammar_emitting (depth : Nat) :
    (∀ level known, Emitting Site.target known (expressionAt depth level) fun v known' =>
      (.word, v) ∈ known') ∧
    (∀ level a known, a.Known known → Emitting Site.target known (climb depth level a)
      fun v known' => (.word, v) ∈ known') ∧
    (∀ known, Emitting Site.target known (unary depth) fun a known' => a.Known known') ∧
    (∀ a known, a.Known known → Emitting Site.target known (suffixes depth a) fun b known' =>
      b.Known known') ∧
    (∀ known, Emitting Site.target known (primary depth) fun a known' => a.Known known') := by
  induction depth with
  | zero =>
      exact ⟨fun _ _ => .throw, fun _ _ _ _ => .throw, fun _ => .throw, fun _ _ _ => .throw,
        fun _ => .throw⟩
  | succ depth ih =>
      obtain ⟨hexpr, hclimb, hunary, hsuffixes, hprimary⟩ := ih
      refine ⟨?_, ?_, ?_, ?_, ?_⟩
      · intro level known
        exact .bind (hunary known) fun a known₁ _ ha => hclimb level a known₁ ha
      · intro level a known ha
        refine scan_bind_emitting fun connective => ?_
        match connective with
        | none => exact build_emitting (Build.rvalue_emitting ha)
        | some .conditional => exact conditional_emitting (hexpr _) (hexpr _) ha
        | some (.assign op) => exact assign_emitting (hexpr _ _) ha
        | some (.operator op) =>
            refine .bind (build_emitting (Build.rvalue_emitting ha)) fun lhs known₁ _ hl => ?_
            refine .bind (hexpr _ known₁) fun rhs known₂ h₂ hr => ?_
            refine .bind (build_emitting (op.apply_emitting (h₂ hl) hr)) fun v known₃ _ hv => ?_
            exact hclimb level (.word v) known₃ hv
      · intro known
        refine scan_bind_emitting fun sign => ?_
        match sign with
        | some sign =>
            exact .bind (hunary known) fun a known₁ _ ha => build_emitting (sign.apply_emitting ha)
        | none => exact .bind (hprimary known) fun a known₁ _ ha => hsuffixes a known₁ ha
      · intro a known ha
        refine scan_bind_emitting fun suffix => ?_
        match suffix with
        | none => exact .pure ha
        | some .subscript =>
            refine .bind (build_emitting (Build.base_emitting ha)) fun base known₁ _ hb => ?_
            refine .bind (hexpr _ known₁) fun index known₂ h₂ hi => scan_bind_emitting fun _ => ?_
            refine .bind (build_emitting (Build.element_emitting (h₂ hb) hi)) ?_
            exact fun address known₃ _ hd => hsuffixes (.address address) known₃ hd
        | some .call =>
            refine .bind (build_emitting (Build.callee_emitting ha)) fun callee known₁ _ hc => ?_
            refine .bind (anyItems_emitting depth (hexpr _)) fun arguments known₂ h₂ hargs => ?_
            refine .bind (build_emitting
              (Build.call_emitting hc.1 (fun x hx => h₂ (hc.2 x hx)) hargs)) ?_
            exact fun v known₃ _ hv => hsuffixes (.word v) known₃ hv
        | some .increment =>
            refine .bind (build_emitting (Build.step_emitting .add "++" ha)) ?_
            exact fun r known₁ _ hr => hsuffixes (.word r.1) known₁ hr.1
        | some .decrement =>
            refine .bind (build_emitting (Build.step_emitting .sub "--" ha)) ?_
            exact fun r known₁ _ hr => hsuffixes (.word r.1) known₁ hr.1
      · intro known
        refine scan_bind_emitting fun atom => ?_
        match atom with
        | .word value =>
            intro s a t h
            obtain ⟨rfl, rfl⟩ := pure_eq_ok_iff.mp h
            exact ⟨_, .const value, .head _⟩
        | .text text =>
            exact .bind (build_emitting (Build.string_emitting text)) fun v _ _ hv => .pure hv
        | .group =>
            refine .bind (hexpr _ known) fun v known₁ _ hv => scan_bind_emitting fun _ => ?_
            exact .pure hv
        | .name name true => exact build_emitting (Build.resolveCallee_emitting name)
        | .name name false => exact build_emitting (Build.resolve_emitting name)

/-- Whatever the text, an accepted expression is compiled by a course of known steps. -/
theorem expressionAt_emitting (depth level : Nat) (known : List Typed) :
    Emitting Site.target known (expressionAt depth level) fun v known' => (.word, v) ∈ known' :=
  (grammar_emitting depth).1 level known

end Pass
end BCompiler
