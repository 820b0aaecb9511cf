import BCompiler.Proofs.Symbol
import BCompiler.Proofs.Source.Token

/-!
What code needs, and what there is to meet it.

An instruction needs operands of the right types, functions to call and blocks to come from. A
function that is being built meets a need by what it holds already, or by what its program holds.
-/
namespace BCompiler

/-- Something that code refers to. -/
inductive Need where
  | operand (type : ValueType) (operand : Operand)
  /-- A function that is called by its name. -/
  | callee (name : String)
  | block (id : BlockId)
  deriving DecidableEq, Repr

/-- Characters that may stand inside a name of the assembly. -/
def isSymbolChar (c : Char) : Bool := isNameChar c || c == '.' || c == '-'

/-- Whether a text can be written as a name of the assembly. -/
def isSymbol (text : String) : Bool := text.toList.all isSymbolChar

theorem isSymbol_append {a b : String} : isSymbol (a ++ b) ↔ isSymbol a ∧ isSymbol b := by
  simp [isSymbol]

theorem isSymbolChar_of_isNameChar {c : Char} (h : isNameChar c) : isSymbolChar c := by
  simp [isSymbolChar, h]

theorem isSymbol_of_isName {name : String} (h : isName name) : isSymbol name := by
  unfold isName at h
  unfold isSymbol
  cases hl : name.toList with
  | nil => rfl
  | cons first rest =>
      rw [hl, Bool.and_eq_true, List.all_eq_true] at h
      rw [List.all_cons, Bool.and_eq_true, List.all_eq_true]
      have hfirst : isNameChar first := by simp [isNameChar, h.1]
      exact ⟨isSymbolChar_of_isNameChar hfirst, fun c hc => isSymbolChar_of_isNameChar (h.2 c hc)⟩

namespace Operation

/-- The functions that an operation calls by name. -/
def callees : Operation → List String
  | call (.direct name) _ => [name]
  | _ => []

/-- The blocks that an operation asks control to have come from. -/
def origins : Operation → List BlockId
  | phi incoming => incoming.map Prod.snd
  | _ => []

def needs (operation : Operation) : List Need :=
  operation.demands.map (fun x => .operand x.1 x.2) ++ operation.callees.map .callee ++
    operation.origins.map .block

/-- Whether an operation makes a stack slot. -/
def isSlot : Operation → Bool
  | alloca _ => true
  | _ => false

end Operation

namespace Instr

/-- The operands of an instruction, with the types that it needs. -/
def demands : Instr → List Typed
  | define _ operation => operation.demands
  | store value address => [(.word, value), (.pointer, address)]

def needs : Instr → List Need
  | define _ operation => operation.needs
  | store value address => [.operand .word value, .operand .pointer address]

theorem operand_mem_needs {instr : Instr} {x : Typed} :
    .operand x.1 x.2 ∈ instr.needs ↔ x ∈ instr.demands := by
  obtain ⟨type, operand⟩ := x
  cases instr with
  | define id operation =>
      simp only [needs, demands, Operation.needs, List.mem_append, List.mem_map, reduceCtorEq,
        and_false, exists_false, or_false, Need.operand.injEq]
      constructor
      · rintro ⟨x, hx, rfl, rfl⟩
        exact hx
      · exact fun hx => ⟨_, hx, rfl, rfl⟩
  | store value address => simp [needs, demands]

end Instr

namespace Terminator

/-- The operands of a terminator, with the types that it needs. -/
def demands : Terminator → List Typed
  | branch _ => []
  | condBranch bit _ _ => [(.bit, bit)]
  | switch value _ _ => [(.word, value)]
  | ret value => [(.word, value)]

def needs (t : Terminator) : List Need :=
  t.demands.map (fun x => .operand x.1 x.2) ++ t.successors.map .block

theorem operand_mem_needs {t : Terminator} {x : Typed} :
    .operand x.1 x.2 ∈ t.needs ↔ x ∈ t.demands := by
  obtain ⟨type, operand⟩ := x
  simp only [needs, List.mem_append, List.mem_map, reduceCtorEq, and_false, exists_false, or_false,
    Need.operand.injEq]
  constructor
  · rintro ⟨x, hx, rfl, rfl⟩
    exact hx
  · exact fun hx => ⟨_, hx, rfl, rfl⟩

end Terminator

namespace Block

def needs (b : Block) : List Need :=
  b.instrs.flatMap Instr.needs ++ (b.terminator.map Terminator.needs).getD []

/-- The operands of a block, with the types that their places need. -/
def demands (b : Block) : List Typed :=
  b.instrs.flatMap Instr.demands ++ (b.terminator.map Terminator.demands).getD []

theorem operand_mem_needs {b : Block} {x : Typed} :
    .operand x.1 x.2 ∈ b.needs ↔ x ∈ b.demands := by
  unfold needs demands
  cases b.terminator with
  | none => simp [Instr.operand_mem_needs]
  | some t => simp [Instr.operand_mem_needs, Terminator.operand_mem_needs]

end Block

/-- A symbol that code may refer to while the program is as it is. -/
def Program.Offers (p : Program) (name : String) : Prop :=
  isSymbol name ∧ (name ∈ p.module.symbols ∨ name ∈ p.bound)

namespace Function

def instrs (f : Function) : List Instr := f.blocks.flatMap Block.instrs

def needs (f : Function) : List Need := f.blocks.flatMap Block.needs

/-- The operands of a function, with the types that their places need. -/
def demands (f : Function) : List Typed := f.blocks.flatMap Block.demands

theorem operand_mem_needs {f : Function} {x : Typed} :
    .operand x.1 x.2 ∈ f.needs ↔ x ∈ f.demands := by
  simp [needs, demands, Block.operand_mem_needs]

/-- The function, or the program around it, holds what code refers to. -/
inductive Meets (p : Program) (f : Function) : Need → Prop
  | const (w : Word) : Meets p f (.operand .word (.const w))
  | param {x : String} : x ∈ f.params → Meets p f (.operand .word (.param x))
  | symbol {name : String} : p.Offers name → Meets p f (.operand .pointer (.symbol name))
  | value {id : ValueId} {operation : Operation} : .define id operation ∈ f.instrs →
      Meets p f (.operand operation.type (.value id))
  | callee {name : String} : isSymbol name → name ∈ p.module.functionNames →
      Meets p f (.callee name)
  | block {k : BlockId} : k < f.blocks.length → Meets p f (.block k)

end Function

/-- The draft holds what code refers to. A local name stands for its slot, and a label for its
block. -/
inductive Draft.Has (d : Draft) : Need → Prop
  | met {need : Need} : d.function.Meets d.program need → d.Has need
  | slot {name : String} {address : Operand} : d.locals.lookup name = some address →
      d.Has (.operand .pointer address)
  | label {label : Label} : label ∈ d.labels → d.Has (.block label.block)

/-- What there is in a draft stays there. -/
structure Draft.Retains (d d' : Draft) : Prop extends d.Continues d' where
  program : d.program.Retains d'.program
  instrs : d.function.instrs ⊆ d'.function.instrs
  slots : ∀ {x a}, d.locals.lookup x = some a → d'.locals.lookup x = some a
  labels : ∀ label ∈ d.labels, ∃ label' ∈ d'.labels, label'.block = label.block

theorem Program.Offers.mono {p p' : Program} (h : p.Retains p') {name : String}
    (hn : p.Offers name) : p'.Offers name :=
  ⟨hn.1, hn.2.imp (fun hs => h.toRetains.symbols hs) fun hb => h.bound hb⟩

theorem Function.Meets.mono {p p' : Program} {f f' : Function} {need : Need}
    (hp : p.Retains p') (hparams : f'.params = f.params) (hinstrs : f.instrs ⊆ f'.instrs)
    (hblocks : f.blocks.length ≤ f'.blocks.length) (h : f.Meets p need) : f'.Meets p' need := by
  cases h with
  | const w => exact .const w
  | param hx => exact .param (hparams ▸ hx)
  | symbol hn => exact .symbol (hn.mono hp)
  | value hi => exact .value (hinstrs hi)
  | callee hs hn => exact .callee hs (hp.functions hn)
  | block hk => exact .block (Nat.lt_of_lt_of_le hk hblocks)

namespace Draft.Retains

variable {d d₁ d' : Draft}

theorem refl (d : Draft) : d.Retains d :=
  ⟨.refl d, .refl _, fun _ h => h, fun h => h, fun label hm => ⟨label, hm, rfl⟩⟩

theorem trans (h : d.Retains d₁) (h' : d₁.Retains d') : d.Retains d' where
  toContinues := h.toContinues.trans h'.toContinues
  program := h.program.trans h'.program
  instrs := fun _ hi => h'.instrs (h.instrs hi)
  slots := fun hx => h'.slots (h.slots hx)
  labels := by
    intro label hm
    obtain ⟨label₁, hm₁, he₁⟩ := h.labels label hm
    obtain ⟨label', hm', he'⟩ := h'.labels label₁ hm₁
    exact ⟨label', hm', he'.trans he₁⟩

theorem length_le (h : d.Retains d') : d.function.blocks.length ≤ d'.function.blocks.length := by
  simpa using h.blocks.length_le

theorem meets (h : d.Retains d') {need : Need} (hn : d.function.Meets d.program need) :
    d'.function.Meets d'.program need := hn.mono h.program h.params h.instrs h.length_le

theorem has (h : d.Retains d') {need : Need} (hn : d.Has need) : d'.Has need := by
  cases hn with
  | met hm => exact .met (h.meets hm)
  | slot hx => exact .slot (h.slots hx)
  | label hm =>
      obtain ⟨label', hm', he⟩ := h.labels _ hm
      exact he ▸ .label hm'

end Draft.Retains
end BCompiler
