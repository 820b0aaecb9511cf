import BCompiler.Proofs.Draft.Control

/-!
The graph of a draft as its blocks show it: their names, and how they end.

New code changes neither. A new block comes after all others, with its name and without an end.
-/
namespace BCompiler
namespace Function

/-- The terminator of a block, if there is such a block and it has ended. -/
def terminator? (f : Function) (i : BlockId) : Option Terminator :=
  f.blocks[i]?.bind Block.terminator

def blockNames (f : Function) : List String := f.blocks.map Block.name

/-- The blocks that may run after a block. -/
def successors (f : Function) (i : BlockId) : List BlockId :=
  match f.terminator? i with
  | some t => t.successors
  | none => []

theorem terminator?_onBlock (f : Function) (id i : BlockId) {change : Block → Block}
    (h : ∀ b, (change b).terminator = b.terminator) :
    (f.onBlock id change).terminator? i = f.terminator? i := by
  unfold terminator?
  rw [getElem?_onBlock]
  split
  · cases f.blocks[i]? with
    | none => rfl
    | some b => exact h b
  · rfl

theorem blockNames_onBlock (f : Function) (id : BlockId) {change : Block → Block}
    (h : ∀ b, (change b).name = b.name) : (f.onBlock id change).blockNames = f.blockNames := by
  apply List.ext_getElem?
  intro i
  simp only [blockNames, List.getElem?_map, getElem?_onBlock]
  split
  · cases f.blocks[i]? with
    | none => rfl
    | some b => simp [h b]
  · rfl

theorem terminator?_addBlock (f : Function) (name : String) (i : BlockId) :
    (f.addBlock name).2.terminator? i = f.terminator? i := by
  unfold terminator?
  rw [blocks_addBlock, List.getElem?_append]
  split
  · rfl
  · next h =>
      rw [List.getElem?_eq_none (Nat.not_lt.mp h)]
      by_cases hi : i - f.blocks.length = 0
      · rw [hi]
        rfl
      · rw [List.getElem?_eq_none (Nat.pos_of_ne_zero hi)]

@[simp] theorem length_blockNames (f : Function) : f.blockNames.length = f.blocks.length :=
  List.length_map _

end Function

namespace Draft

variable (d : Draft)

/-- A block that exists and has not ended. -/
def Open (i : BlockId) : Prop := i < d.function.blocks.length ∧ d.function.terminator? i = none

theorem open_iff {i : BlockId} :
    d.Open i ↔ ∃ b, d.function.blocks[i]? = some b ∧ b.terminator = none := by
  unfold Open Function.terminator?
  constructor
  · rintro ⟨hlt, hnone⟩
    rw [List.getElem?_eq_getElem hlt] at hnone ⊢
    exact ⟨_, rfl, hnone⟩
  · rintro ⟨b, hb, hnone⟩
    rw [hb]
    exact ⟨(List.getElem?_eq_some_iff.mp hb).1, hnone⟩

theorem isOpen_iff_open : d.isOpen ↔ d.Open d.current := isOpen_iff.trans d.open_iff.symm

section View

variable (instr : Instr) (operation : Operation) (t : Terminator) (name : String)
  (words : Option UInt64) (i : BlockId)

@[simp] theorem terminator?_append :
    (d.append instr).function.terminator? i = d.function.terminator? i :=
  Function.terminator?_onBlock _ _ _ fun _ => rfl

@[simp] theorem terminator?_define :
    (d.define operation).function.terminator? i = d.function.terminator? i :=
  Function.terminator?_onBlock _ _ _ fun _ => rfl

@[simp] theorem terminator?_withSlot :
    (d.withSlot name words).function.terminator? i = d.function.terminator? i :=
  Function.terminator?_onBlock _ _ _ fun _ => rfl

@[simp] theorem terminator?_addBlock :
    (d.addBlock name).function.terminator? i = d.function.terminator? i :=
  Function.terminator?_addBlock _ _ _

@[simp] theorem terminator?_opened :
    d.opened.function.terminator? i = d.function.terminator? i := by
  unfold opened
  split
  · rfl
  · exact terminator?_addBlock d.nextNumber _ i

theorem terminator?_endedBy (h : d.Valid) :
    (d.endedBy t).function.terminator? i =
      if i = d.current then some t else d.function.terminator? i := by
  unfold Function.terminator? endedBy
  rw [Function.getElem?_onBlock]
  split
  · next hi =>
      subst hi
      rw [List.getElem?_eq_getElem h]
      rfl
  · rfl

@[simp] theorem blockNames_append :
    (d.append instr).function.blockNames = d.function.blockNames :=
  Function.blockNames_onBlock _ _ fun _ => rfl

@[simp] theorem blockNames_define :
    (d.define operation).function.blockNames = d.function.blockNames :=
  Function.blockNames_onBlock _ _ fun _ => rfl

@[simp] theorem blockNames_withSlot :
    (d.withSlot name words).function.blockNames = d.function.blockNames :=
  Function.blockNames_onBlock _ _ fun _ => rfl

@[simp] theorem blockNames_endedBy :
    (d.endedBy t).function.blockNames = d.function.blockNames :=
  Function.blockNames_onBlock _ _ fun _ => rfl

@[simp] theorem blockNames_addBlock :
    (d.addBlock name).function.blockNames = d.function.blockNames ++ [name] := by
  simp [Function.blockNames, addBlock, Block.empty]

end View
end Draft

end BCompiler
