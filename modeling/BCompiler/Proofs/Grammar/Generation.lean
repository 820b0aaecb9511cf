import BCompiler.Proofs.Expression.Evaluation
import BCompiler.Proofs.Grammar.Parse
import BCompiler.Proofs.Symbol

/-!
Generating the code of a tree.

The code of a tree can be added wherever its names stand for something. A call may declare a
function on the way, which takes no name away: only a name that stands for nothing is declared. So
the text of a tree is accepted, and exactly the code of the tree is added.
-/
namespace BCompiler

namespace Draft

/-- Whether a name stands for something: a local name, a function or a global bound here. -/
def resolves (d : Draft) (x : String) : Bool :=
  (d.locals.lookup x).isSome || (d.program.module.hasFunction x || d.program.isBound x)

/-- Whether a name stands for something that can be assigned to. -/
def isVariable (d : Draft) (x : String) : Bool :=
  (d.locals.lookup x).isSome || (!d.program.module.hasFunction x && d.program.isBound x)

/-- The names of the first draft stand for something of the same kind in the second. -/
structure Sees (d d' : Draft) : Prop where
  resolves : ∀ x, d.resolves x → d'.resolves x
  isVariable : ∀ x, d.isVariable x → d'.isVariable x

namespace Sees

variable {d d₁ d₂ : Draft}

theorem refl (d : Draft) : d.Sees d := ⟨fun _ h => h, fun _ h => h⟩

theorem trans (h : d.Sees d₁) (h' : d₁.Sees d₂) : d.Sees d₂ :=
  ⟨fun x hx => h'.resolves x (h.resolves x hx), fun x hx => h'.isVariable x (h.isVariable x hx)⟩

/-- A declaration of a name that is not bound takes no name away. -/
theorem declare {name : String} (hn : d.program.isBound name = false) :
    d.Sees { d with program := d.program.declareFunction name } := by
  have hfunction : ∀ x, (d.program.declareFunction name).module.hasFunction x ↔
      d.program.module.hasFunction x ∨ x = name := by
    intro x
    rw [Module.hasFunction_iff_mem, Module.hasFunction_iff_mem, ← mem_including,
      ← Module.functionNames_declareFunction]
    rfl
  constructor <;> intro x hx
  · simp only [Draft.resolves, Bool.or_eq_true] at hx ⊢
    rw [hfunction]
    exact hx.imp_right (Or.imp_left Or.inl)
  · simp only [Draft.isVariable, Bool.or_eq_true, Bool.and_eq_true, Bool.not_eq_true'] at hx ⊢
    refine hx.imp_right fun ⟨hf, hb⟩ => ⟨?_, hb⟩
    rw [Bool.eq_false_iff, ne_eq, hfunction, not_or]
    refine ⟨by simp [hf], ?_⟩
    rintro rfl
    rw [hn] at hb
    cases hb

end Sees

/-- Code can be added where the names of the first draft are seen and the blocks below `n` exist. -/
structure Serves (d₀ : Draft) (n : Nat) (d : Draft) : Prop where
  ready : d.Ready d.locals n
  names : d₀.Sees d

theorem Serves.withProgram {d₀ d : Draft} {n : Nat} {p : Program} (h : d₀.Serves n d)
    (hp : d.Sees { d with program := p }) : d₀.Serves n { d with program := p } :=
  ⟨⟨h.ready.valid, rfl, h.ready.length⟩, h.names.trans hp⟩

end Draft

namespace Build

/-- The step only works on the function. -/
def Local {α : Type} (step : Build α) : Prop :=
  ∀ d a d', step d = .ok a d' → d'.program = d.program ∧ d'.locals = d.locals

namespace Local

variable {α β : Type}

theorem pure (a : α) : Local (Pure.pure a : Build α) := by
  intro d b d' h
  obtain ⟨rfl, rfl⟩ := pure_eq_ok_iff.mp h
  exact ⟨rfl, rfl⟩

theorem bind {x : Build α} {f : α → Build β} (hx : Local x) (hf : ∀ a, Local (f a)) :
    Local (x >>= f) := by
  intro d b d' h
  obtain ⟨a, d₁, ha, hb⟩ := bind_eq_ok_iff.mp h
  obtain ⟨hp₁, hl₁⟩ := hx d a d₁ ha
  obtain ⟨hp₂, hl₂⟩ := hf a d₁ b d' hb
  exact ⟨hp₂.trans hp₁, hl₂.trans hl₁⟩

theorem opened (d : Draft) : d.opened.program = d.program ∧ d.opened.locals = d.locals := by
  unfold Draft.opened
  split <;> exact ⟨rfl, rfl⟩

theorem emit (operation : Operation) : Local (emit operation) := by
  intro d v d' h
  obtain ⟨_, _, rfl⟩ := emit_eq_ok_iff.mp h
  exact opened d

theorem store (value address : Operand) : Local (store value address) := by
  intro d v d' h
  obtain ⟨_, rfl⟩ := store_eq_ok_iff.mp h
  exact opened d

theorem terminate (t : Terminator) : Local (terminate t) := by
  intro d v d' h
  obtain ⟨_, rfl⟩ := terminate_eq_ok_iff.mp h
  exact opened d

theorem switchTo (block : BlockId) : Local (switchTo block) := by
  intro d v d' h
  cases h
  exact ⟨rfl, rfl⟩

theorem rvalue (a : Denotation) : Local (rvalue a) := by
  cases a with
  | word value => exact .pure value
  | address address => exact .emit _
  | function name => exact .emit _

theorem apply (op : Op) (lhs rhs : Operand) : Local (op.apply lhs rhs) := by
  cases op with
  | binary op => exact .emit _
  | compare pred => exact .bind (.emit _) fun _ => .emit _

theorem assign (op : Option Op) (address value : Operand) : Local (assign op address value) := by
  cases op with
  | none => exact .bind (.store _ _) fun _ => .pure _
  | some op =>
      refine .bind (.emit _) fun _ => .bind (.apply op _ _) fun _ => ?_
      exact .bind (.store _ _) fun _ => .pure _

theorem step (op : BinaryOp) (spelling : String) (address : Operand) :
    Local (step op spelling (.address address)) :=
  .bind (.emit _) fun _ => .bind (.emit _) fun _ => .bind (.store _ _) fun _ => .pure _

theorem leave (last : BlockId) : Local (leave last) := by
  refine .bind (fun d a d' h => ?_) fun _ => .bind (.terminate _) fun _ => .pure _
  cases h
  exact ⟨rfl, rfl⟩

theorem join (last : BlockId) (thenValue : Operand) (thenExit : BlockId) (elseValue : Operand) :
    Local (join last thenValue thenExit elseValue) :=
  .bind (.leave _) fun _ => .bind (.switchTo _) fun _ => .emit _

theorem fork (construct : String) (word : Operand) : Local (fork construct word) := by
  refine .bind (fun d g d' h => ?_) fun _ => .bind (.bind (.emit _) fun _ => .terminate _) fun _ =>
    .bind (.switchTo _) fun _ => .pure _
  rw [newGroup_eq] at h
  cases h
  exact ⟨rfl, rfl⟩

end Local

/-- The step succeeds on every draft that serves, leaves one that serves, and gives what is
stated. -/
def Secure {α : Type} (d₀ : Draft) (n : Nat) (step : Build α) (P : α → Prop) : Prop :=
  ∀ d, d₀.Serves n d → ∃ a d', step d = .ok a d' ∧ d₀.Serves n d' ∧ P a

section Secure

variable {α β : Type} {d₀ : Draft} {n : Nat}

theorem Secure.pure {P : α → Prop} {a : α} (h : P a) : Secure d₀ n (Pure.pure a) P :=
  fun d hd => ⟨a, d, rfl, hd, h⟩

theorem Secure.bind {x : Build α} {f : α → Build β} {P : α → Prop} {Q : β → Prop}
    (hx : Secure d₀ n x P) (hf : ∀ a, P a → Secure d₀ n (f a) Q) : Secure d₀ n (x >>= f) Q := by
  intro d hd
  obtain ⟨a, d₁, ha, hd₁, hp⟩ := hx d hd
  obtain ⟨b, d₂, hb, hd₂, hq⟩ := hf a hp d₁ hd₁
  exact ⟨b, d₂, bind_eq_ok_iff.mpr ⟨a, d₁, ha, hb⟩, hd₂, hq⟩

end Secure

end Build

namespace Tree

variable {size : Nat}

/-- Whether every name of the tree stands for something, and for something that can be assigned to
where that is needed. Every name can be called. -/
def resolves (d : Draft) : {k : Kind} → Bool → Tree size k → Bool
  | _, _, constant _ | _, _, character _ | _, _, string _ | _, _, none => true
  | _, _, read p => p.resolves d false
  | _, _, addressOf p | _, _, stepAfter _ p | _, _, stepBefore _ p => p.resolves d true
  | _, _, negate e | _, _, not e | _, _, dereference e => e.resolves d false
  | _, _, call _ arguments => arguments.resolves d false
  | _, _, callThrough callee arguments => callee.resolves d false && arguments.resolves d false
  | _, _, binary _ l r | _, _, subscript l r => l.resolves d false && r.resolves d false
  | _, _, conditional c t e => c.resolves d false && (t.resolves d false && e.resolves d false)
  | _, _, assign _ p e => p.resolves d true && e.resolves d false
  | _, assigned, name x => if assigned then d.isVariable x.text else d.resolves x.text
  | _, _, cons e rest => e.resolves d false && rest.resolves d false

end Tree

namespace Pass

end Pass
end BCompiler
