import BCompiler.IR.Function

/-!
Running a function.

Memory holds a word at each address. A function runs from the beginning of its first block, one
instruction at a time, until it returns. A machine that has no next step is stuck: a division by
zero has no result, and no value can be read before it is there.
-/
namespace BCompiler

/-- The result of a word operation. The low six bits of a shift amount count. -/
def BinaryOp.eval (a b : Word) : BinaryOp → Option Word
  | .add => some (a + b)
  | .sub => some (a - b)
  | .mul => some (a * b)
  | .div => if b = 0 then none else some (a / b)
  | .rem => if b = 0 then none else some (a % b)
  | .shl => some (a <<< b)
  | .shr => some (a >>> b)
  | .and => some (a &&& b)
  | .or => some (a ||| b)

def Predicate.eval (a b : Word) : Predicate → Bool
  | .eq => a == b
  | .ne => a != b
  | .lt => a < b
  | .le => a ≤ b
  | .gt => b < a
  | .ge => b ≤ a

/-- One for true, zero for false. -/
def Word.ofBool (b : Bool) : Word := if b then 1 else 0

abbrev Memory := Word → Word

/-- A function and what it runs in. -/
structure Machine where
  function : Function
  arguments : List Word
  /-- The address of a stack slot. -/
  slot : ValueId → Word
  /-- The address of a global, a string or a function. -/
  symbol : String → Option Word
  /-- What a call of the function at an address gives and leaves in memory. -/
  call : Word → List Word → Memory → Option (Word × Memory)
  /-- The distance of one word from the next. -/
  wordSize : Word

/-- The values computed so far, and memory. -/
structure State where
  values : ValueId → Option Word
  memory : Memory

/-- The state and the place of the next step: an instruction of a block, entered from the block
`origin`. -/
structure Config where
  block : BlockId
  index : Nat
  origin : Option BlockId
  state : State

inductive Progress where
  | next (c : Config)
  | returned (word : Word)
  | stuck

namespace State

/-- The state with a new value. -/
def define (id : ValueId) (word : Word) (memory : Memory) (s : State) : State :=
  ⟨fun n => if n = id then some word else s.values n, memory⟩

/-- The state with a word stored at an address. -/
def store (address word : Word) (s : State) : State :=
  { s with memory := fun a => if a = address then word else s.memory a }

end State

namespace Config

/-- The beginning of a run. -/
def start (memory : Memory) : Config := ⟨0, 0, none, ⟨fun _ => none, memory⟩⟩

/-- Go on at the beginning of another block. -/
def enter (target : BlockId) (c : Config) : Config := ⟨target, 0, some c.block, c.state⟩

end Config

namespace Machine

def operand (m : Machine) (s : State) : Operand → Option Word
  | .const word => some word
  | .value id => s.values id
  | .param name => (m.function.params.zip m.arguments).lookup name
  | .symbol name => m.symbol name

def callee (m : Machine) (s : State) : Callee → Option Word
  | .direct name => m.symbol name
  | .indirect pointer => m.operand s pointer

/-- The value of an operation whose place is `id`, and memory after it. -/
def operation (m : Machine) (origin : Option BlockId) (s : State) (id : ValueId) :
    Operation → Option (Word × Memory)
  | .alloca _ => some (m.slot id, s.memory)
  | .load address => do return (s.memory (← m.operand s address), s.memory)
  | .binary op lhs rhs => do
    return (← op.eval (← m.operand s lhs) (← m.operand s rhs), s.memory)
  | .compare pred lhs rhs => do
    return (.ofBool (pred.eval (← m.operand s lhs) (← m.operand s rhs)), s.memory)
  | .widen word | .toPointer word | .toWord word => do return (← m.operand s word, s.memory)
  | .element base index => do
    return ((← m.operand s base) + (← m.operand s index) * m.wordSize, s.memory)
  | .arrayElement base _ index => do
    return ((← m.operand s base) + index.toInt64 * m.wordSize, s.memory)
  | .call callee arguments => do
    m.call (← m.callee s callee) (← arguments.mapM (m.operand s)) s.memory
  | .phi incoming => do
    let arm ← incoming.find? fun arm => some arm.2 == origin
    return (← m.operand s arm.1, s.memory)

def instr (m : Machine) (origin : Option BlockId) (s : State) : Instr → Option State
  | .define id operation =>
    (m.operation origin s id operation).map fun result => s.define id result.1 result.2
  | .store value address => do return s.store (← m.operand s address) (← m.operand s value)

def terminator (m : Machine) (c : Config) : Terminator → Progress
  | .branch target => .next (c.enter target)
  | .condBranch bit thenBlock elseBlock =>
    match m.operand c.state bit with
    | some word => .next (c.enter (if word = 0 then elseBlock else thenBlock))
    | none => .stuck
  | .switch value default cases =>
    match m.operand c.state value with
    | some word => .next (c.enter ((cases.lookup word).getD default))
    | none => .stuck
  | .ret value =>
    match m.operand c.state value with
    | some word => .returned word
    | none => .stuck

def step (m : Machine) (c : Config) : Progress :=
  match m.function.blocks[c.block]? with
  | none => .stuck
  | some b =>
    match b.instrs[c.index]? with
    | some instr =>
      match m.instr c.origin c.state instr with
      | some state => .next { c with index := c.index + 1, state }
      | none => .stuck
    | none =>
      match b.terminator with
      | some t => m.terminator c t
      | none => .stuck

/-- The word that is returned within the given number of steps. -/
def run (m : Machine) : Nat → Config → Option Word
  | 0, _ => none
  | n + 1, c =>
    match m.step c with
    | .next c' => m.run n c'
    | .returned word => some word
    | .stuck => none

/-- The function returns the word if memory is as given at first. -/
def Returns (m : Machine) (memory : Memory) (word : Word) : Prop :=
  ∃ n, m.run n (.start memory) = some word

/-- That many steps lead from one configuration to the other. -/
inductive Steps (m : Machine) : Nat → Config → Config → Prop
  | refl (c : Config) : Steps m 0 c c
  | next {n : Nat} {c c' c'' : Config} :
      m.step c = .next c' → Steps m n c' c'' → Steps m (n + 1) c c''

/-- The machine gets stuck. -/
def Fails (m : Machine) (c : Config) : Prop := ∃ n c', m.Steps n c c' ∧ m.step c' = .stuck

variable {m : Machine}

theorem Steps.one {c c' : Config} (h : m.step c = .next c') : m.Steps 1 c c' := .next h (.refl c')

theorem Steps.trans {n k : Nat} {c c' c'' : Config} (h : m.Steps n c c') (h' : m.Steps k c' c'') :
    m.Steps (n + k) c c'' := by
  induction h with
  | refl c => rwa [Nat.zero_add]
  | next hs _ ih =>
      rw [Nat.add_right_comm]
      exact .next hs (ih h')

theorem Fails.of_stuck {c : Config} (h : m.step c = .stuck) : m.Fails c := ⟨0, c, .refl c, h⟩

theorem Fails.of_steps {n : Nat} {c c' : Config} (h : m.Steps n c c') (hf : m.Fails c') :
    m.Fails c := by
  obtain ⟨k, c'', hs, hstuck⟩ := hf
  exact ⟨n + k, c'', h.trans hs, hstuck⟩

/-- A run goes on where its first steps lead. -/
theorem Steps.run_add {n : Nat} {c c' : Config} (h : m.Steps n c c') (k : Nat) :
    m.run (n + k) c = m.run k c' := by
  induction h with
  | refl c => rw [Nat.zero_add]
  | next hs _ ih =>
      rw [Nat.add_right_comm, run, hs]
      exact ih

/-- Nothing is returned while there are steps left. -/
theorem Steps.lt_of_run {n k : Nat} {c c' : Config} {word : Word} (h : m.Steps n c c')
    (hr : m.run k c = some word) : ∃ j, k = n + j ∧ m.run j c' = some word := by
  induction h generalizing k with
  | refl c => exact ⟨k, (Nat.zero_add k).symm, hr⟩
  | next hs _ ih =>
      cases k with
      | zero => cases hr
      | succ k =>
          rw [run, hs] at hr
          obtain ⟨j, rfl, hj⟩ := ih hr
          exact ⟨j, by omega, hj⟩

theorem run_unique {n k : Nat} {c : Config} {word word' : Word} (h : m.run n c = some word)
    (h' : m.run k c = some word') : word = word' := by
  induction n generalizing k c with
  | zero => cases h
  | succ n ih =>
      cases k with
      | zero => cases h'
      | succ k =>
          rw [run] at h h'
          cases hs : m.step c with
          | next c' =>
              rw [hs] at h h'
              exact ih h h'
          | returned w =>
              rw [hs] at h h'
              exact Option.some.inj (h.symm.trans h')
          | stuck =>
              rw [hs] at h
              cases h

theorem Fails.run_eq_none {c : Config} (h : m.Fails c) (k : Nat) : m.run k c = none := by
  obtain ⟨n, c', hs, hstuck⟩ := h
  cases hr : m.run k c with
  | none => rfl
  | some word =>
      obtain ⟨j, _, hj⟩ := hs.lt_of_run hr
      cases j with
      | zero => cases hj
      | succ j =>
          rw [run, hstuck] at hj
          cases hj

end Machine
end BCompiler
