import BCompiler.Proofs.Grammar.Generation
import BCompiler.Proofs.Phrase.Parse
import BCompiler.Session.Basic

/-!
What can be assigned to.

Some operators need an operand that has an address. Whether it has one is told by how the operand is
written and by what the names stand for, before any code is added. If every operand does, the code
of the term can be added; otherwise it fails at the operand that ends first in the text.
-/
namespace BCompiler

/-- An operand that must have an address. -/
structure Demand where
  operator : String
  /-- Whether the operand has one. -/
  met : Bool
  /-- How many tokens there are up to the end of the operand. -/
  stop : Nat
  /-- How deep the operator stands inside the term. -/
  depth : Nat
  deriving DecidableEq, Repr

namespace Demand

/-- The operand of the first ends earlier, or the two end together and it is the inner one. -/
def Precedes (x y : Demand) : Prop := x.stop < y.stop ∨ x.stop = y.stop ∧ y.depth < x.depth

/-- Of the demands that are not met, the one whose operand ends first. -/
structure Leads (x : Demand) (demands : List Demand) : Prop where
  mem : x ∈ demands
  unmet : x.met = false
  least : ∀ y ∈ demands, y.met = false → y = x ∨ x.Precedes y

/-- The first demand of the list that is not met. -/
def firstUnmet (demands : List Demand) : Option Demand := demands.find? fun x => !x.met

theorem firstUnmet_append (l l' : List Demand) :
    firstUnmet (l ++ l') = (firstUnmet l).or (firstUnmet l') := List.find?_append

theorem firstUnmet_eq_none {demands : List Demand} :
    firstUnmet demands = none ↔ ∀ x ∈ demands, x.met := by
  simp [firstUnmet]

theorem Leads.of_firstUnmet {x : Demand} {demands : List Demand} (hs : demands.Pairwise Precedes)
    (h : firstUnmet demands = some x) : x.Leads demands := by
  obtain ⟨hx, before, after, rfl, hbefore⟩ := List.find?_eq_some_iff_append.mp h
  have hbehind := (List.pairwise_append.mp hs).2.1
  refine ⟨List.mem_append.mpr (.inr (.head _)), by simpa using hx, fun y hy hunmet => ?_⟩
  rcases List.mem_append.mp hy with hy | hy
  · have hmet := hbefore y hy
    simp [hunmet] at hmet
  · rcases List.mem_cons.mp hy with rfl | hy
    · exact .inl rfl
    · exact .inr (List.rel_of_pairwise_cons hbehind hy)

/-- Demands in order, between two places of the text and not above a depth. -/
structure Ordered (start stop depth : Nat) (demands : List Demand) : Prop where
  sorted : demands.Pairwise Precedes
  within : ∀ x ∈ demands, start < x.stop ∧ x.stop ≤ stop ∧ depth ≤ x.depth

namespace Ordered

variable {start stop depth : Nat} {l l' : List Demand}

theorem nil : Ordered start stop depth [] := ⟨.nil, fun _ hx => absurd hx List.not_mem_nil⟩

theorem widen {start' stop' depth' : Nat} (h : Ordered start stop depth l) (hstart : start' ≤ start)
    (hstop : stop ≤ stop') (hdepth : depth' ≤ depth) : Ordered start' stop' depth' l := by
  refine ⟨h.sorted, fun x hx => ?_⟩
  have := h.within x hx
  omega

/-- What stands behind a place comes after what ends there. -/
theorem append {middle : Nat} (h : Ordered start middle depth l) (h' : Ordered middle stop depth l')
    (hstart : start ≤ middle) (hstop : middle ≤ stop) : Ordered start stop depth (l ++ l') := by
  refine ⟨List.pairwise_append.mpr ⟨h.sorted, h'.sorted, fun x hx y hy => ?_⟩, fun x hx => ?_⟩
  · have := h.within x hx
    have := h'.within y hy
    exact .inl (by omega)
  · rcases List.mem_append.mp hx with hx | hx
    · have := h.within x hx
      omega
    · have := h'.within x hx
      omega

/-- Two parts of a term with a token between them. -/
theorem beside {middle : Nat} (h : Ordered start middle depth l)
    (h' : Ordered (middle + 1) stop depth l') (hstart : start ≤ middle) (hstop : middle ≤ stop) :
    Ordered start stop depth (l ++ l') :=
  h.append (h'.widen (Nat.le_succ _) (Nat.le_refl _) (Nat.le_refl _)) hstart hstop

/-- A term made of two parts with a token between them, and perhaps of more tokens. -/
theorem parts {m n length : Nat} (h : Ordered start (start + m) (depth + 1) l)
    (h' : Ordered (start + m + 1) (start + m + 1 + n) (depth + 1) l')
    (hlength : m + 1 + n ≤ length) : Ordered start (start + length) depth (l ++ l') :=
  (h.beside h' (by omega) (by omega)).widen (Nat.le_refl _) (by omega) (Nat.le_succ _)

/-- An operator comes after everything inside its operand. -/
theorem operator (h : Ordered start stop (depth + 1) l) (hlt : start < stop) (symbol : String)
    (met : Bool) : Ordered start stop depth (l ++ [⟨symbol, met, stop, depth⟩]) := by
  refine ⟨List.pairwise_append.mpr ⟨h.sorted, List.pairwise_singleton _ _, fun x hx y hy => ?_⟩,
    fun x hx => ?_⟩
  · have hx := h.within x hx
    rw [List.mem_singleton.mp hy]
    unfold Precedes
    dsimp only
    omega
  · rcases List.mem_append.mp hx with hx | hx
    · have := h.within x hx
      omega
    · rw [List.mem_singleton.mp hx]
      exact ⟨hlt, Nat.le_refl _, Nat.le_refl _⟩

end Ordered
end Demand

/-- Whether a denotation is the word at an address. -/
def Denotation.isAddress : Denotation → Bool
  | address _ => true
  | word _ | function _ => false

namespace Sign

def needsAddress : Sign → Bool
  | increment | decrement | addressOf => true
  | not | negate | dereference => false

def givesAddress : Sign → Bool
  | increment | decrement | dereference => true
  | not | negate | addressOf => false

end Sign

namespace Draft

/-- Whether a name stands for nothing yet, so that a call declares it. -/
def isFree (d : Draft) (x : String) : Bool :=
  (d.locals.lookup x).isNone && !d.program.isBound x && !d.program.module.hasGlobal x

/-- Whether a name stands for something once other names were called. -/
def knows (d : Draft) (called : List String) (x : String) : Bool :=
  d.resolves x || (called.contains x && d.isFree x)

end Draft

namespace Term

variable {size : Nat}

/-- Whether a term has an address. In parentheses it has none. -/
def isLvalue (d : Draft) : {r : Rank} → Term size r → Bool
  | _, name _ x => d.isVariable x.text
  | _, sign _ s _ => s.givesAddress
  | _, subscript _ _ => true
  | _, literal _ | _, string _ | _, group _ | _, step _ _ | _, call _ _ | _, callThrough _ _
  | _, binary _ _ _ _ | _, conditional _ _ _ _ | _, assign _ _ _ _ | _, none | _, cons _ _ => false

/-- The operands that must have an address, where a number of tokens stand in front of the term. -/
def demands (d : Draft) : {r : Rank} → Term size r → (start depth : Nat) → List Demand
  | _, literal _, _, _ | _, string _, _, _ | _, name _ _, _, _ | _, none, _, _ => []
  | _, group t, start, depth => t.demands d (start + 1) (depth + 1)
  | _, sign _ s t, start, depth =>
    t.demands d (start + 1) (depth + 1) ++
      if s.needsAddress then [⟨s.symbol, t.isLvalue d, start + 1 + t.tokens.length, depth⟩] else []
  | _, step k t, start, depth =>
    t.demands d start (depth + 1) ++ [⟨k.symbol, t.isLvalue d, start + t.tokens.length, depth⟩]
  | _, subscript base index, start, depth =>
    base.demands d start (depth + 1) ++
      index.demands d (start + base.tokens.length + 1) (depth + 1)
  | _, call _ arguments, start, depth => arguments.demands d (start + 2) (depth + 1)
  | _, callThrough callee arguments, start, depth =>
    callee.demands d start (depth + 1) ++
      arguments.demands d (start + callee.tokens.length + 1) (depth + 1)
  | _, binary _ _ l r, start, depth =>
    l.demands d start (depth + 1) ++ r.demands d (start + l.tokens.length + 1) (depth + 1)
  | _, conditional _ c t e, start, depth =>
    c.demands d start (depth + 1) ++ (t.demands d (start + c.tokens.length + 1) (depth + 1) ++
      e.demands d (start + c.tokens.length + 1 + t.tokens.length + 1) (depth + 1))
  | _, assign op _ l r, start, depth =>
    l.demands d start (depth + 1) ++ (⟨equals op, l.isLvalue d, start + l.tokens.length, depth⟩ ::
      r.demands d (start + l.tokens.length + 1) (depth + 1))
  | _, cons t rest, start, depth =>
    t.demands d start (depth + 1) ++ rest.demands d (start + t.tokens.length + 1) (depth + 1)

/-- The names that are called in a term, behind those that were called before it. -/
def called : {r : Rank} → Term size r → List String → List String
  | _, literal _, names | _, string _, names | _, name _ _, names | _, none, names => names
  | _, group t, names | _, sign _ _ t, names | _, step _ t, names => t.called names
  | _, call f arguments, names => arguments.called (f.text :: names)
  | _, subscript t u, names | _, callThrough t u, names | _, binary _ _ t u, names
  | _, assign _ _ t u, names | _, cons t u, names => u.called (t.called names)
  | _, conditional _ c t e, names => e.called (t.called (c.called names))

/-- Whether every name that is used as a value stands for something. A call in front of it may have
declared it. -/
def resolves (d : Draft) : {r : Rank} → Term size r → (names : List String) → Bool
  | _, literal _, _ | _, string _, _ | _, none, _ => true
  | _, name _ x, names => d.knows names x.text
  | _, group t, names | _, sign _ _ t, names | _, step _ t, names => t.resolves d names
  | _, call f arguments, names => arguments.resolves d (f.text :: names)
  | _, subscript t u, names | _, callThrough t u, names | _, binary _ _ t u, names
  | _, assign _ _ t u, names | _, cons t u, names =>
    t.resolves d names && u.resolves d (t.called names)
  | _, conditional _ c t e, names =>
    c.resolves d names && (t.resolves d (c.called names) &&
      e.resolves d (t.called (c.called names)))

open Demand in
/-- By induction on the term: the demands of its parts follow each other as the parts do. -/
theorem demands_ordered (d : Draft) {r : Rank} (t : Term size r) (start depth : Nat) :
    Ordered start (start + t.tokens.length) depth (t.demands d start depth) := by
  induction t generalizing start depth with
  | literal l => exact .nil
  | string letters => exact .nil
  | name h x => exact .nil
  | none => exact .nil
  | group t ih =>
      refine (ih (start + 1) (depth + 1)).widen (by omega) ?_ (by omega)
      simp only [tokens, List.length_append, List.length_cons]
      omega
  | sign h s t ih =>
      have hpos := t.length_tokens_pos
      have hlength : start + (sign h s t).tokens.length = start + 1 + t.tokens.length := by
        simp only [tokens, List.length_cons]
        omega
      rw [hlength, demands]
      split
      · exact ((ih _ _).operator (by omega) _ _).widen (by omega) (Nat.le_refl _) (Nat.le_refl _)
      · rw [List.append_nil]
        exact (ih _ _).widen (by omega) (Nat.le_refl _) (by omega)
  | step k t ih =>
      have hpos := t.length_tokens_pos
      refine ((ih start _).operator (by omega) _ _).widen (Nat.le_refl _) ?_ (Nat.le_refl _)
      simp only [tokens, List.length_append]
      omega
  | subscript base index ihb ihi =>
      refine (ihb _ _).parts (ihi _ _) ?_
      simp only [tokens, List.length_append, List.length_cons]
      omega
  | call f arguments ih =>
      refine (ih _ _).widen (by omega) ?_ (by omega)
      simp only [tokens, List.length_append, List.length_cons]
      omega
  | callThrough callee arguments ihc iha =>
      refine (ihc _ _).parts (iha _ _) ?_
      simp only [tokens, List.length_append, List.length_cons]
      omega
  | binary op h l r ihl ihr =>
      refine (ihl _ _).parts (ihr _ _) ?_
      simp only [tokens, List.length_append, List.length_cons]
      omega
  | conditional h c t e ihc iht ihe =>
      have harms := (iht (start + c.tokens.length + 1) (depth + 1)).beside (ihe _ _) (by omega)
        (by omega)
      refine ((ihc _ _).beside harms (by omega) (by omega)).widen (Nat.le_refl _) ?_ (Nat.le_succ _)
      simp only [tokens, List.length_append, List.length_cons]
      omega
  | assign op h l r ihl ihr =>
      have hpos := l.length_tokens_pos
      have hleft := (ihl start (depth + 1)).operator (by omega) (equals op) (l.isLvalue d)
      rw [demands, List.append_cons]
      refine (hleft.beside ((ihr _ _).widen (Nat.le_refl _) (Nat.le_refl _) (Nat.le_succ _))
        (by omega) (by omega)).widen (Nat.le_refl _) ?_ (Nat.le_refl _)
      simp only [tokens, List.length_append, List.length_cons]
      omega
  | cons t rest iht ihr =>
      cases rest with
      | none =>
          rw [demands, demands, List.append_nil]
          exact (iht _ _).widen (Nat.le_refl _) (Nat.le_refl _) (Nat.le_succ _)
      | cons next rest =>
          refine (iht _ _).parts (ihr _ _) ?_
          simp only [tokens, List.length_append, List.length_cons]
          omega

end Term

namespace Draft

/-- Code can be added, the blocks below `n` exist, and names stand for what they stood for in the
first draft, except that calls may have declared functions. -/
structure Admits (d₀ : Draft) (n : Nat) (names : List String) (d : Draft) : Prop where
  ready : d.Ready d₀.locals n
  bound : d.program.bound = d₀.program.bound
  globals : ∀ x, d.program.module.hasGlobal x = d₀.program.module.hasGlobal x
  functions : ∀ x, d.program.module.hasFunction x =
    (d₀.program.module.hasFunction x || (names.contains x && d₀.isFree x))

namespace Admits

variable {d₀ d d' : Draft} {n k : Nat} {names : List String}

theorem refl (h : d.Valid) : d.Admits 0 [] d where
  ready := ⟨h, rfl, Nat.zero_le _⟩
  bound := rfl
  globals _ := rfl
  functions x := by simp

theorem of_program (h : d₀.Admits n names d) (hr : d'.Ready d₀.locals k)
    (hp : d'.program = d.program) : d₀.Admits k names d' where
  ready := hr
  bound := hp ▸ h.bound
  globals := hp ▸ h.globals
  functions := hp ▸ h.functions

/-- A declaration of a name that stands for nothing. -/
theorem declare (h : d₀.Admits n names d) {x : String} (hx : d₀.isFree x) :
    d₀.Admits n (x :: names) { d with program := d.program.declareFunction x } where
  ready := ⟨h.ready.valid, h.ready.locals, h.ready.length⟩
  bound := h.bound
  globals y := by
    have hglobals := (d.program.module.declareFunction_others x).1
    rw [← h.globals, Module.hasGlobal, Module.hasGlobal, Module.globalId?, Module.globalId?]
    exact congrArg (fun gs : List Global => (gs.findIdx? fun g => g.name == y).isSome) hglobals
  functions y := by
    have hnames : (d.program.declareFunction x).module.hasFunction y ↔
        d.program.module.hasFunction y ∨ y = x := by
      rw [Module.hasFunction_iff_mem, Module.hasFunction_iff_mem, ← mem_including,
        ← Module.functionNames_declareFunction]
      rfl
    rw [h.functions] at hnames
    by_cases hy : y = x
    · subst hy
      grind
    · grind

theorem isBound (h : d₀.Admits n names d) (x : String) :
    d.program.isBound x = d₀.program.isBound x := by
  unfold Program.isBound
  rw [h.bound]

end Admits
end Draft

namespace Build

open Demand

/-- Wherever code can be added, the step ends as the demands tell: it gives what is stated, or it
fails at the first operand that has no address. -/
structure Meets {α : Type} (d₀ : Draft) (n : Nat) (names names' : List String)
    (demands : List Demand) (step : Build α) (P : α → Prop) : Prop where
  ok : firstUnmet demands = none → ∀ d, d₀.Admits n names d →
    ∃ a d', step d = .ok a d' ∧ d₀.Admits n names' d' ∧ P a
  error : ∀ x, firstUnmet demands = some x → ∀ d, d₀.Admits n names d →
    ∃ d', step d = .error (.notAnLvalue x.operator) d'

section Meets

variable {α β : Type} {d₀ : Draft} {n : Nat} {names names₁ names₂ : List String}
  {l l' : List Demand} {P : α → Prop} {Q : β → Prop}

theorem Meets.bind {x : Build α} {f : α → Build β} (hx : Meets d₀ n names names₁ l x P)
    (hf : ∀ a, P a → Meets d₀ n names₁ names₂ l' (f a) Q) :
    Meets d₀ n names names₂ (l ++ l') (x >>= f) Q where
  ok h d hd := by
    rw [firstUnmet_append, Option.or_eq_none_iff] at h
    obtain ⟨a, d₁, ha, hd₁, hp⟩ := hx.ok h.1 d hd
    obtain ⟨b, d₂, hb, hd₂, hq⟩ := (hf a hp).ok h.2 d₁ hd₁
    exact ⟨b, d₂, bind_eq_ok_iff.mpr ⟨a, d₁, ha, hb⟩, hd₂, hq⟩
  error y h d hd := by
    rw [firstUnmet_append, Option.or_eq_some_iff] at h
    rcases h with h | ⟨hnone, h⟩
    · obtain ⟨d₁, he⟩ := hx.error y h d hd
      exact ⟨d₁, bind_of_error he⟩
    · obtain ⟨a, d₁, ha, hd₁, hp⟩ := hx.ok hnone d hd
      obtain ⟨d₂, he⟩ := (hf a hp).error y h d₁ hd₁
      exact ⟨d₂, (bind_of_ok ha).trans he⟩

/-- A step that has no demands. -/
theorem Meets.of_ok {step : Build α} (h : ∀ d, d₀.Admits n names d →
    ∃ a d', step d = .ok a d' ∧ d₀.Admits n names₁ d' ∧ P a) :
    Meets d₀ n names names₁ [] step P where
  ok _ := h
  error _ hnone := by cases hnone

theorem Meets.pure {a : α} (h : P a) : Meets d₀ n names names [] (Pure.pure a) P :=
  .of_ok fun d hd => ⟨a, d, rfl, hd, h⟩

theorem Meets.of_sure {step : Build α} (h : Sure d₀.locals n step) (hl : Local step) :
    Meets d₀ n names names [] step fun _ => True := by
  refine .of_ok fun d hd => ?_
  obtain ⟨a, d', ha, hr⟩ := h d hd.ready
  exact ⟨a, d', ha, hd.of_program hr (hl d a d' ha).1, trivial⟩

/-- Go on after a step without demands. -/
theorem Meets.after {x : Build α} {f : α → Build β} (hx : Meets d₀ n names names₁ [] x P)
    (hf : ∀ a, P a → Meets d₀ n names₁ names₂ l (f a) Q) :
    Meets d₀ n names names₂ l (x >>= f) Q := hx.bind hf

/-- End with a step that has no demands. -/
theorem Meets.before {x : Build α} {f : α → Build β} (hx : Meets d₀ n names names₁ l x P)
    (hf : ∀ a, P a → Meets d₀ n names₁ names₂ [] (f a) Q) :
    Meets d₀ n names names₂ l (x >>= f) Q := by
  have h := hx.bind hf
  rwa [List.append_nil] at h

theorem Meets.of_unmet {x : Demand} (hx : x.met = false) {step : Build α}
    (h : ∀ d, ∃ d', step d = .error (.notAnLvalue x.operator) d') :
    Meets d₀ n names names₁ (x :: l) step P := by
  have hfirst : firstUnmet (x :: l) = some x := by simp [firstUnmet, hx]
  constructor
  · intro hnone
    rw [hfirst] at hnone
    cases hnone
  · intro y hy d _
    rw [hfirst] at hy
    cases hy
    exact h d

theorem Meets.of_met {x : Demand} (hx : x.met) {step : Build α}
    (h : Meets d₀ n names names₁ l step P) : Meets d₀ n names names₁ (x :: l) step P := by
  have hfirst : firstUnmet (x :: l) = firstUnmet l := by simp [firstUnmet, hx]
  exact ⟨fun hnone => h.ok (hfirst ▸ hnone), fun y hy => h.error y (hfirst ▸ hy)⟩

theorem rvalue_meets (a : Denotation) :
    Meets d₀ n names names [] (rvalue a) fun _ => True := .of_sure (rvalue_sure a) (.rvalue a)

theorem emit_meets (operation : Operation) :
    Meets d₀ n names names [] (emit operation) fun _ => True :=
  .of_sure (emit_sure operation) (.emit operation)

/-- A name gives an address just if it stands for a variable. -/
theorem resolve_meets {x : String} (hx : d₀.knows names x) :
    Meets d₀ n names names [] (resolve x) fun a => a.isAddress = d₀.isVariable x := by
  refine .of_ok fun d hd => ?_
  have hfunctions := hd.functions x
  unfold Draft.knows Draft.resolves at hx
  unfold Draft.isVariable
  rw [← hd.ready.locals] at hx ⊢
  cases hl : d.locals.lookup x with
  | some address => exact ⟨_, d, (resolve_local hl).1, hd, rfl⟩
  | none =>
      rw [hl] at hx
      cases hf : d.program.module.hasFunction x with
      | true =>
          have hvariable : (!d₀.program.module.hasFunction x && d₀.program.isBound x) = false := by
            unfold Draft.isFree at hfunctions
            rw [hf] at hfunctions
            grind
          rw [(resolve_function hl hf).1, hvariable]
          have hword : Meets d₀ n names names [] (do return Denotation.word (← toWord (.symbol x)))
              fun a => a.isAddress = false := (emit_meets _).after fun _ _ => .pure rfl
          exact hword.ok rfl d hd
      | false =>
          obtain ⟨h₀, hbound⟩ :
              d₀.program.module.hasFunction x = false ∧ d₀.program.isBound x = true := by
            rw [hf] at hfunctions
            grind
          refine ⟨_, d, (resolve_bound hl hf ((hd.isBound x).trans hbound)).1, hd, ?_⟩
          rw [h₀, hbound]
          rfl

/-- A call declares a name that stands for nothing. -/
theorem resolveCallee_meets (x : String) :
    Meets d₀ n names (x :: names) [] (resolveCallee x) fun _ => True := by
  refine .of_ok fun d hd => ?_
  have hkept (h : d.program.module.hasFunction x = true ∨ d₀.isFree x = false) :
      d₀.Admits n (x :: names) d := by
    refine { hd with functions := fun y => ?_ }
    have hfunctions := hd.functions y
    by_cases hy : y = x
    · subst hy
      grind
    · grind
  rcases resolveCallee_cases x d with ⟨address, hl, he⟩ | ⟨hf, he⟩ | ⟨_, hknown, he⟩ |
    ⟨hl, hb, hg, he⟩
  · refine ⟨_, d, he, hkept (.inr ?_), trivial⟩
    rw [Draft.isFree, ← hd.ready.locals, hl]
    rfl
  · exact ⟨_, d, he, hkept (.inl hf), trivial⟩
  · refine ⟨_, d, he, hkept (.inr ?_), trivial⟩
    rw [hd.isBound, hd.globals] at hknown
    unfold Draft.isFree
    grind
  · refine ⟨_, _, he, hd.declare ?_, trivial⟩
    rw [hd.isBound] at hb
    rw [hd.globals] at hg
    rw [Draft.isFree, ← hd.ready.locals, hl, hb, hg]
    rfl

theorem callee_meets (a : Denotation) : Meets d₀ n names names [] (callee a) fun _ => True := by
  cases a with
  | function name => exact .pure trivial
  | address address =>
      exact (emit_meets _).after fun _ _ => (emit_meets _).after fun _ _ => .pure trivial
  | word value => exact (emit_meets _).after fun _ _ => .pure trivial

theorem string_meets (text : String) :
    Meets d₀ n names names [] (string text) fun _ => True := by
  refine .after (P := fun _ => True) (.of_ok fun d hd => ?_) fun name _ => emit_meets _
  refine ⟨_, _, rfl, ⟨?_, hd.bound, hd.globals, hd.functions⟩, trivial⟩
  exact ⟨hd.ready.valid, hd.ready.locals, hd.ready.length⟩

theorem base_meets (a : Denotation) : Meets d₀ n names names [] (base a) fun _ => True :=
  (rvalue_meets a).after fun _ _ => emit_meets _

/-- Counting up or down needs an address. -/
theorem step_meets (op : BinaryOp) (spelling : String) (a : Denotation) (stop depth : Nat) :
    Meets d₀ n names names [⟨spelling, a.isAddress, stop, depth⟩] (step op spelling a)
      fun _ => True := by
  cases a with
  | address address =>
      exact .of_met rfl (.of_sure (step_sure op spelling address) (.step op spelling address))
  | word value => exact .of_unmet rfl fun d => ⟨d, rfl⟩
  | function name => exact .of_unmet rfl fun d => ⟨d, rfl⟩

/-- What a sign needs and what it gives. -/
theorem apply_meets (s : Sign) (a : Denotation) (stop depth : Nat) :
    Meets d₀ n names names
      (if s.needsAddress then [⟨s.symbol, a.isAddress, stop, depth⟩] else []) (s.apply a)
      fun b => b.isAddress = s.givesAddress := by
  have hcompare (v : Operand) :
      Meets d₀ n names names [] (Build.compare .eq v (.const 0)) fun _ => True :=
    (emit_meets _).after fun _ _ => emit_meets _
  cases s with
  | not => exact (rvalue_meets a).after fun v _ => (hcompare v).after fun _ _ => .pure rfl
  | negate => exact (rvalue_meets a).after fun _ _ => (emit_meets _).after fun _ _ => .pure rfl
  | dereference =>
      exact (rvalue_meets a).after fun _ _ => (emit_meets _).after fun _ _ => .pure rfl
  | increment => exact (step_meets .add "++" a stop depth).before fun _ _ => .pure rfl
  | decrement => exact (step_meets .sub "--" a stop depth).before fun _ _ => .pure rfl
  | addressOf =>
      cases a with
      | address address => exact .of_met rfl ((emit_meets _).after fun _ _ => .pure rfl)
      | word value => exact .of_unmet rfl fun d => ⟨d, rfl⟩
      | function name => exact .of_unmet rfl fun d => ⟨d, rfl⟩

/-- Both arms of a conditional are added, each to a block of its own. -/
theorem conditional_meets {l₁ l₂ l₃ : List Demand} {names₃ : List String} {c t e : Build Operand}
    (hc : Meets d₀ n names names₁ l₁ c fun _ => True)
    (ht : ∀ k, Meets d₀ k names₁ names₂ l₂ t fun _ => True)
    (he : ∀ k, Meets d₀ k names₂ names₃ l₃ e fun _ => True) :
    Meets d₀ n names names₃ (l₁ ++ (l₂ ++ l₃)) (do
      let group ← fork "cond" (← c)
      let thenValue ← t
      let thenExit ← leave group.last
      switchTo group.second
      let elseValue ← e
      join group.last thenValue thenExit elseValue) fun _ => True := by
  refine hc.bind fun word _ => ?_
  -- The blocks of the arms exist once the branch to them is there.
  have hfork (d : Draft) (hd : d₀.Admits n names₁ d) : ∃ d₂, fork "cond" word d = .ok d.group d₂ ∧
      d₀.Admits (d.function.blocks.length + 3) names₁ d₂ := by
    obtain ⟨d₂, h, hr⟩ := fork_sure "cond" word hd.ready
    exact ⟨d₂, h, hd.of_program hr (Local.fork "cond" word d _ d₂ h).1⟩
  have hrest (d : Draft) : Meets d₀ (d.function.blocks.length + 3) names₁ names₃ (l₂ ++ l₃) (do
      let thenValue ← t
      let thenExit ← leave d.group.last
      switchTo d.group.second
      let elseValue ← e
      join d.group.last thenValue thenExit elseValue) fun _ => True := by
    have hsecond : d.group.second < d.function.blocks.length + 3 := by
      simp [Draft.group]
    have hlast : d.group.last < d.function.blocks.length + 3 := by
      simp [Draft.group]
    refine (ht _).bind fun _ _ => (Meets.of_sure (leave_sure _) (.leave _)).after fun _ _ => ?_
    refine (Meets.of_sure (switchTo_sure hsecond) (.switchTo _)).after fun _ _ => ?_
    exact (he _).before fun _ _ => .of_sure (join_sure hlast _ _ _) (.join _ _ _ _)
  constructor
  · intro hnone d hd
    obtain ⟨d₂, h₂, hd₂⟩ := hfork d hd
    obtain ⟨v, d', hv, hd', _⟩ := (hrest d).ok hnone d₂ hd₂
    have hready := hd'.ready.lower (Nat.le_add_right_of_le hd.ready.length)
    exact ⟨v, d', (bind_of_ok h₂).trans hv, hd'.of_program hready rfl, trivial⟩
  · intro x hx d hd
    obtain ⟨d₂, h₂, hd₂⟩ := hfork d hd
    obtain ⟨d', he'⟩ := (hrest d).error x hx d₂ hd₂
    exact ⟨d', (bind_of_ok h₂).trans he'⟩

end Meets
end Build

namespace Term

open Build

variable {size : Nat} {d₀ : Draft}

/-- What is known of the result of a term: whether it has an address. -/
def Tells (d : Draft) : {r : Rank} → Term size r → r.Result → Prop
  | .level _, t, a => a.isAddress = t.isLvalue d
  | .arguments, _, _ => True

theorem value_meets {n k start depth : Nat} {names : List String} {t : Term size (.level n)}
    (h : Meets d₀ k names (t.called names) (t.demands d₀ start depth) t.denote (t.Tells d₀)) :
    Meets d₀ k names (t.called names) (t.demands d₀ start depth) t.value fun _ => True :=
  h.before fun a _ => rvalue_meets a

/-- By induction on the term, with the code of its parts from left to right. -/
theorem denote_meets {r : Rank} (t : Term size r) (names : List String)
    (h : t.resolves d₀ names) (n start depth : Nat) :
    Meets d₀ n names (t.called names) (t.demands d₀ start depth) t.denote (t.Tells d₀) := by
  induction t generalizing names n start depth with
  | literal l => exact .pure rfl
  | string letters => exact (string_meets _).after fun _ _ => .pure rfl
  | name hn x => exact resolve_meets h
  | group t ih =>
      exact (ih names h n _ _).before fun a _ => (rvalue_meets a).after fun _ _ => .pure rfl
  | sign hn s t ih =>
      refine (ih names h n _ _).bind fun a ha => ?_
      rw [← show a.isAddress = t.isLvalue d₀ from ha]
      exact apply_meets s a _ _
  | step k t ih =>
      refine (ih names h n _ _).bind fun a ha => ?_
      rw [← show a.isAddress = t.isLvalue d₀ from ha]
      exact (step_meets _ _ a _ _).before fun _ _ => .pure rfl
  | subscript base index ihb ihi =>
      obtain ⟨hb, hi⟩ := Bool.and_eq_true_iff.mp h
      refine (ihb names hb n _ _).bind fun b _ => (base_meets b).after fun _ _ => ?_
      refine (ihi _ hi n _ _).before fun i _ => (rvalue_meets i).after fun _ _ => ?_
      exact (emit_meets _).after fun _ _ => .pure rfl
  | call f arguments ih =>
      refine (resolveCallee_meets f.text).after fun a _ => (callee_meets a).after fun _ _ => ?_
      exact (ih _ h n _ _).before fun _ _ => (emit_meets _).after fun _ _ => .pure rfl
  | callThrough callee arguments ihc iha =>
      obtain ⟨hc, ha⟩ := Bool.and_eq_true_iff.mp h
      refine (ihc names hc n _ _).bind fun a _ => (callee_meets a).after fun _ _ => ?_
      exact (iha _ ha n _ _).before fun _ _ => (emit_meets _).after fun _ _ => .pure rfl
  | binary op hn l r ihl ihr =>
      obtain ⟨hl, hr⟩ := Bool.and_eq_true_iff.mp h
      refine (ihl names hl n _ _).bind fun a _ => (rvalue_meets a).after fun lhs _ => ?_
      refine (ihr _ hr n _ _).before fun b _ => (rvalue_meets b).after fun rhs _ => ?_
      exact (Meets.of_sure (apply_sure op lhs rhs) (.apply op lhs rhs)).after fun _ _ => .pure rfl
  | conditional hn c t e ihc iht ihe =>
      obtain ⟨hc, hte⟩ := Bool.and_eq_true_iff.mp h
      obtain ⟨ht, he⟩ := Bool.and_eq_true_iff.mp hte
      have hword := (conditional_meets (value_meets (ihc names hc n start (depth + 1)))
        (fun k => value_meets (iht _ ht k (start + c.tokens.length + 1) (depth + 1)))
        fun k => value_meets
          (ihe _ he k (start + c.tokens.length + 1 + t.tokens.length + 1) (depth + 1))).before
        fun v _ => Meets.pure (P := fun a : Denotation => a.isAddress = false) (a := .word v) rfl
      simp only [value, bind_assoc] at hword
      exact hword
  | assign op hn l r ihl ihr =>
      obtain ⟨hl, hr⟩ := Bool.and_eq_true_iff.mp h
      refine (ihl names hl n _ _).bind fun a ha => ?_
      cases a with
      | address address =>
          refine .of_met ha.symm ((ihr _ hr n _ _).before fun b _ => (rvalue_meets b).after
            fun v _ => ?_)
          exact (Meets.of_sure (assign_sure op address v) (.assign op address v)).after
            fun _ _ => .pure rfl
      | word v => exact .of_unmet ha.symm fun d => ⟨d, rfl⟩
      | function f => exact .of_unmet ha.symm fun d => ⟨d, rfl⟩
  | none => exact .pure trivial
  | cons t rest iht ihr =>
      obtain ⟨ht, hr⟩ := Bool.and_eq_true_iff.mp h
      refine (iht names ht n _ _).bind fun a _ => (rvalue_meets a).after fun _ _ => ?_
      exact (ihr _ hr n _ _).before fun _ _ => .pure trivial

end Term

namespace Pass

open Demand

/-- An expression is accepted just if every operand that must have an address has one. Otherwise it
fails at the operand that ends first, the innermost one if several end together. -/
theorem expression_checks (c : Cursor) (d : Draft) (t : Term c.wordSize (.level fullLevel))
    (rest : List String) (hrest : Stops fullLevel rest)
    (htext : c.unread = (" ".intercalate (t.tokens ++ rest)).toList) (hvalid : d.Valid)
    (hnames : t.resolves d []) :
    ((∀ x ∈ t.demands d 0 0, x.met) →
        ∃ v c' d', expression ⟨c, d⟩ = .ok v ⟨c', d'⟩ ∧ c'.At rest) ∧
      ((¬∀ x ∈ t.demands d 0 0, x.met) →
        ∃ (x : Demand) (s : Site Draft), x.Leads (t.demands d 0 0) ∧
          expression ⟨c, d⟩ = .error (.notAnLvalue x.operator) s) := by
  have hfaces := t.faces htext
  have hreads := expression_mirrors t hrest
  have hmeets := Term.value_meets (t.denote_meets [] hnames 0 0 0)
  constructor
  · intro hall
    obtain ⟨v, d', hv, _⟩ := hmeets.ok (firstUnmet_eq_none.mpr hall) d (.refl hvalid)
    obtain ⟨c', hc', hend⟩ := hreads.ok hfaces hv
    exact ⟨v, c', d', hc', hend.at_tokens⟩
  · intro hunmet
    obtain ⟨x, hfirst⟩ := Option.ne_none_iff_exists'.mp (mt firstUnmet_eq_none.mp hunmet)
    obtain ⟨d', he'⟩ := hmeets.error x hfirst d (.refl hvalid)
    obtain ⟨c', hc'⟩ := hreads.error hfaces he'
    exact ⟨x, ⟨c', d'⟩, .of_firstUnmet (t.demands_ordered d 0 0).sorted hfirst, hc'⟩

/-- Assignments to what a pointer points to and to an element, of a word that is in parentheses. -/
def countedGroup : Term 8 (.level fullLevel) :=
  .assign none (by decide)
    (.sign (by decide) .dereference (.name (by decide) ⟨"x", rfl⟩))
    (.assign (some (.binary .add)) (by decide)
      (.subscript (.name (by decide) ⟨"y", rfl⟩) (.step .up (.name (by decide) ⟨"x", rfl⟩)))
      (.step .down (.group (.sign (by decide) .dereference (.name (by decide) ⟨"y", rfl⟩)))))

/-- Of the four operators that need an address, only the last one lacks it. -/
theorem expression_checks_countedGroup :
    ∃ s, expression ⟨.ofText "* x = y [ x ++ ] =+ ( * y ) -- ;" 8, twoLocals⟩ =
      .error (.notAnLvalue "--") s := by
  obtain ⟨_, hrefused⟩ := expression_checks (.ofText "* x = y [ x ++ ] =+ ( * y ) -- ;" 8)
    twoLocals countedGroup [";"] (.close (by decide)) (by decide +kernel) (by show 0 < 1; decide)
    (by decide)
  have hlast : ∀ x ∈ countedGroup.demands twoLocals 0 0, x.met = false → x.operator = "--" := by
    decide
  obtain ⟨x, s, hx, he⟩ := hrefused (by decide)
  rw [hlast x hx.mem hx.unmet] at he
  exact ⟨s, he⟩

/-- The error that a source is refused with. -/
def refusal? (text : String) : Option Error :=
  match compile text with
  | .ok _ => none
  | .error e => some e

/-- Behind an operator that admits an equality to its right, `===` is not read as an assignment:
its first two signs are taken for an equality, and the left side is never checked. -/
theorem equality_taken_from_assignment :
    refusal? "f() \x7b auto a, b, c; a & b === c; \x7d" =
        some (.located "<input>" 1 (.unexpected "expression" (some '='))) ∧
      refusal? "f() \x7b auto a, b, c; a + b === c; \x7d" =
        some (.located "<input>" 1 (.notAnLvalue "===")) := by
  decide +kernel

end Pass
end BCompiler
