import BCompiler.Proofs.Trail.Coherent

/-!
What one declaration does to the program, however it ends.

The mark behind the name tells the form of a declaration. Its initializers may add strings to the
program. Then it defines a global, or the two globals of an array, or a function whose draft follows
a trail. A declaration that breaks off before that has added strings at most.
-/
namespace BCompiler

def Constant.addresses : Constant → List String
  | .word _ => []
  | .address name => [name]

/-- The symbols whose addresses a global holds when the program starts. -/
def GlobalInit.addresses : GlobalInit → List String
  | .word value => value.addresses
  | .words values => values.flatMap Constant.addresses
  | .buffer _ values => values.flatMap Constant.addresses
  | .placeholder => []

/-- Strings have been added to the program, and nothing else has changed. -/
inductive Strung (p : Program) : Program → Prop
  | refl : Strung p p
  | string {p' : Program} (text : String) : Strung p p' → Strung p (p'.addString text).2

namespace Strung

variable {p p₁ p₂ : Program}

theorem trans (h : Strung p p₁) (h' : Strung p₁ p₂) : Strung p p₂ := by
  induction h' with
  | refl => exact h
  | string text _ ih => exact .string text ih

theorem retains (h : Strung p p₁) : p.module.Retains p₁.module := by
  induction h with
  | refl => exact .refl _
  | @string p' text _ ih => exact ih.trans (.addString p'.module text)

end Strung

instance : Lasting Strung := ⟨fun _ => .refl, .trans⟩

instance : Lasting (@Eq Program) := ⟨fun _ => rfl, .trans⟩

/-- The forms of a declaration. -/
inductive Form where
  | function
  | array
  | scalar
  deriving DecidableEq, Repr

/-- What the mark behind the name of a declaration tells. -/
def Form.ofMark : Option Char → Form
  | some '(' => .function
  | some '[' => .array
  | _ => .scalar

/-- The form that the rest of a declaration begins, unless no mark can be read. -/
def Cursor.form? (c : Cursor) : Option Form :=
  match Scan.peekMark c with
  | .ok found _ => some (.ofMark found)
  | .error _ _ => none

/-- The addresses in a constant are symbols of the program. -/
def Pass.Known (value : Constant) (p : Program) : Prop :=
  ∀ x ∈ value.addresses, x ∈ p.module.symbols

/-- What a declaration of the name does once its form is settled and its initializers or its
parameters are read. The body of a function may have stopped anywhere. -/
inductive Deed (name : String) : Option Form → Program → Program → Prop
  | scalar {p p₁ p' : Program} {values : List Constant} : Strung p p₁ →
      (∀ v ∈ values, Pass.Known v p₁) → p₁.declareScalar name values = .ok p' →
      Deed name (some .scalar) p p'
  | array {p p₁ p' : Program} {size : UInt64} {values : List Constant} : Strung p p₁ →
      (∀ v ∈ values, Pass.Known v p₁) → p₁.declareArray name size values = .ok p' →
      Deed name (some .array) p p'
  | function {p : Program} {params : List String} {i : FunctionId} {m : Module} {d : Draft} :
      (∀ x ∈ params, isName x) → p.module.defineFunction name params = .ok (i, m) →
      Trail (.ofFunction { p with module := m } i (.entered name params)) d →
      Deed name (some .function) p d.close

namespace Pass

theorem Known.mono {value : Constant} {p p' : Program} (h : p.module.Retains p'.module)
    (hv : Known value p) : Known value p' := fun x hx => h.symbols (hv x hx)

theorem addString_trails {w : Program} (text : String) :
    Trails Strung Site.target w (addString text) fun name w' => name ∈ w'.module.symbols := by
  refine build_trails fun p _ => ⟨.string text .refl, ?_⟩
  simp [Module.symbols, Module.stringNames]

theorem initializer_trails (w : Program) : Trails Strung Site.target w initializer Known := by
  have hword : ∀ (value : Word) (p : Program), Known (.word value) p :=
    fun _ _ _ hx => absurd hx List.not_mem_nil
  refine scan_bind_trails fun value w₁ _ => ?_
  cases value with
  | some value => exact .pure fun w' _ => hword value w'
  | none =>
      refine scan_bind_trails fun next w₂ _ => ?_
      split
      · exact scan_bind_trails fun name _ _ => .throw
      · refine scan_bind_trails fun found w₃ _ => ?_
        split
        · refine scan_bind_trails fun text w₄ _ => ?_
          refine .bind (addString_trails text) fun name w₅ _ hname => .pure fun w' hw x hx => ?_
          cases List.mem_singleton.mp hx
          exact hw.retains.symbols hname
        · exact scan_bind_trails fun value _ _ => .pure fun w' _ => hword (-value) w'
        · exact .throw

theorem initializers_leads (s : Site Program) :
    Leads Strung Site.target s (fun values w' => ∀ v ∈ values, Known v w') (initializers s) :=
  anyItems_trails (fun _ _ _ h hv => hv.mono h.retains) initializer_trails _ s.target s .refl

theorem parameters_leads (s : Site Program) :
    Leads Eq Site.target s (fun params _ => ∀ x ∈ params, isName x) (parameters s) :=
  anyItems_trails (P := fun x _ => isName x) (fun _ _ _ _ hx => hx)
    (fun _ => scan_trails (Scan.someName_gives _)) _ s.target s rfl

/-- How an attempt at a declaration ends: if it succeeds, in a deed. -/
def Attempts (name : String) (form? : Option Form) (p : Program) :
    EStateM.Result Error (Site Program) Unit → Prop
  | .ok _ t => Deed name form? p t.target
  | .error _ t => Strung p t.target ∨ Deed name form? p t.target

namespace Attempts

variable {α : Type} {name : String} {form? : Option Form}

/-- What is read before the deed may add strings. -/
theorem bind {x : Pass Program α} {f : α → Pass Program Unit} {P : α → Program → Prop}
    {s : Site Program} (hx : Leads Strung Site.target s P (x s))
    (hf : ∀ a r, Strung s.target r.target → P a r.target →
      Attempts name form? s.target (f a r)) :
    Attempts name form? s.target ((x >>= f) s) := by
  cases hr : x s with
  | ok a r =>
      rw [bind_of_ok hr]
      rw [hr] at hx
      exact hf a r hx.1 hx.2
  | error e r =>
      rw [bind_of_error hr]
      rw [hr] at hx
      exact .inl hx

theorem scan {step : Scan α} {f : α → Pass Program Unit} {s : Site Program}
    (hf : ∀ a c, step s.cursor = .ok a c → Attempts name form? s.target (f a ⟨c, s.target⟩)) :
    Attempts name form? s.target ((Pass.scan step >>= f) s) := by
  cases hr : step s.cursor with
  | ok a c =>
      rw [bind_of_ok (scan_of_ok hr)]
      exact hf a c hr
  | error e c =>
      rw [bind_of_error (scan_of_error hr)]
      exact .inl .refl

/-- A change of the program that fails leaves it as it was. -/
theorem update {change : Program → Except Error Program} {p : Program} {r : Site Program}
    (hs : Strung p r.target) (h : ∀ p', change r.target = .ok p' → Deed name form? p p') :
    Attempts name form? p (Pass.update change r) := by
  unfold Pass.update build
  cases hc : change r.target with
  | ok p' =>
      simp only [hc]
      exact h p' hc
  | error e =>
      simp only [hc]
      exact .inl hs

/-- However a draft ends, its function stays in the program as a trail made it. -/
theorem drafted {params : List String} (hparams : ∀ x ∈ params, isName x) (s : Site Program) :
    Attempts name (some .function) s.target (Pass.drafted name params functionBody s) := by
  unfold Pass.drafted Draft.start
  cases hd : s.target.module.defineFunction name params with
  | error e => exact .inl .refl
  | ok r =>
      obtain ⟨i, m⟩ := r
      let start := Draft.ofFunction { s.target with module := m } i (.entered name params)
      have hspill : Leads Trail id start (fun _ _ => True) (Build.spill params start) :=
        Build.spill_trails (fun _ hx => hx) start (.refl _)
      dsimp only
      cases hsp : Build.spill params start with
      | error e d =>
          rw [hsp] at hspill
          exact .inr (.function hparams hd hspill)
      | ok u d =>
          rw [hsp] at hspill
          have hbody := functionBody_trails d ⟨s.cursor, d⟩ (.refl d)
          dsimp only
          cases hb : functionBody ⟨s.cursor, d⟩ with
          | error e t =>
              rw [hb] at hbody
              exact .inr (.function hparams hd (hspill.1.trans hbody))
          | ok u t =>
              rw [hb] at hbody
              exact Deed.function hparams hd (hspill.1.trans hbody.1)

theorem function (s : Site Program) :
    Attempts name (some .function) s.target (Pass.function name s) := by
  have hp := parameters_leads s
  cases hr : parameters s with
  | ok params r =>
      unfold Pass.function
      rw [bind_of_ok hr]
      rw [hr] at hp
      obtain ⟨hkept, hparams⟩ := hp
      rw [show s.target = r.target from hkept]
      exact drafted hparams r
  | error e r =>
      unfold Pass.function
      rw [bind_of_error hr]
      rw [hr] at hp
      have hkept : s.target = r.target := hp
      exact .inl (hkept ▸ .refl)

theorem array (s : Site Program) : Attempts name (some .array) s.target (Pass.array name s) :=
  scan fun _ c _ => bind (initializers_leads ⟨c, s.target⟩) fun _ _ hr hv =>
    update hr fun _ h => .array hr hv h

theorem scalar (s : Site Program) : Attempts name (some .scalar) s.target (Pass.scalar name s) :=
  bind (initializers_leads s) fun _ _ hr hv => update hr fun _ h => .scalar hr hv h

end Attempts

/-- A declaration does what its form tells, or it breaks off. -/
theorem declaration_attempts (name : String) (s : Site Program) :
    Attempts name s.cursor.form? s.target (declaration name s) := by
  refine Attempts.scan fun found c hc => ?_
  have hform : s.cursor.form? = some (.ofMark found) := by
    unfold Cursor.form?
    rw [hc]
  rw [hform]
  split
  · exact Attempts.scan fun _ c' _ => .function ⟨c', s.target⟩
  · exact Attempts.scan fun _ c' _ => .array ⟨c', s.target⟩
  · next hfunction harray =>
      have hscalar : Form.ofMark found = .scalar := by
        unfold Form.ofMark
        split
        · exact absurd rfl hfunction
        · exact absurd rfl harray
        · rfl
      rw [hscalar]
      exact .scalar ⟨c, s.target⟩

end Pass
end BCompiler
