import BCompiler.Proofs.Step

/-!
What a build step does to a draft.

A step that adds code first makes sure that the current block is open, and then changes that block
alone. Each step is given here by the draft that it leads to. A step that adds code fails only where
the current block does not exist, so its success says that the draft was valid.
-/
namespace BCompiler
namespace Block

def append (instr : Instr) (b : Block) : Block := { b with instrs := b.instrs ++ [instr] }

def endedBy (t : Terminator) (b : Block) : Block := { b with terminator := some t }

/-- The block with an instruction put in front of the one at the place. -/
def insert (place : Nat) (instr : Instr) (b : Block) : Block :=
  { b with instrs := b.instrs.insertIdx place instr }

end Block

namespace Function

/-- Change one block. -/
def onBlock (id : BlockId) (change : Block → Block) (f : Function) : Function :=
  { f with blocks := f.blocks.modify id change }

/-- The function with one more stack slot. -/
def withSlot (words : Option UInt64) (f : Function) : Function :=
  { f.onBlock 0 (.insert f.slots (.define f.nextValue (.alloca words))) with
    nextValue := f.nextValue + 1
    slots := f.slots + 1 }

theorem getElem?_onBlock (f : Function) (id i : BlockId) (change : Block → Block) :
    (f.onBlock id change).blocks[i]? =
      if i = id then f.blocks[i]?.map change else f.blocks[i]? := by
  unfold onBlock
  rw [List.getElem?_modify]
  by_cases h : i = id
  · simp [h]
  · simp [h, Ne.symm h]

@[simp] theorem length_onBlock (f : Function) (id : BlockId) (change : Block → Block) :
    (f.onBlock id change).blocks.length = f.blocks.length := List.length_modify ..

theorem set_eq_modify {f : Function} {id : BlockId} {b : Block} (h : f.blocks[id]? = some b)
    (change : Block → Block) : f.blocks.set id (change b) = f.blocks.modify id change := by
  apply List.ext_getElem?
  intro i
  rw [List.getElem?_set, List.getElem?_modify]
  by_cases hi : id = i
  · subst hi
    obtain ⟨hlt, rfl⟩ := List.getElem?_eq_some_iff.mp h
    simp [hlt]
  · simp [hi]

theorem push_eq_ok_iff {f g : Function} {id : BlockId} {instr : Instr} :
    f.push id instr = .ok g ↔ id < f.blocks.length ∧ g = f.onBlock id (.append instr) := by
  unfold push block
  cases h : f.blocks[id]? with
  | none =>
      have hle := Nat.not_lt.mpr (List.getElem?_eq_none_iff.mp h)
      simp [bind, Except.bind, hle]
  | some b =>
      have hlt := (List.getElem?_eq_some_iff.mp h).1
      simp only [bind, Except.bind, pure, Except.pure, Except.ok.injEq, hlt, true_and, onBlock]
      rw [← set_eq_modify h, eq_comm]
      rfl

theorem terminate_eq_ok_iff {f g : Function} {id : BlockId} {t : Terminator} :
    f.terminate id t = .ok g ↔
      (∃ b, f.blocks[id]? = some b ∧ b.terminator = none) ∧ g = f.onBlock id (.endedBy t) := by
  unfold terminate block Block.isTerminated
  cases h : f.blocks[id]? with
  | none => simp [bind, Except.bind]
  | some b =>
      cases ht : b.terminator with
      | some t' => simp [bind, Except.bind, ht, throw, throwThe, MonadExceptOf.throw]
      | none =>
          simp only [bind, Except.bind, ht, Option.isSome_none, Bool.false_eq_true, if_false, pure,
            Except.pure, Except.ok.injEq, Option.some.injEq, exists_eq_left', true_and, onBlock]
          rw [← set_eq_modify h, eq_comm]
          rfl

theorem pushSlot_eq_ok_iff {f g : Function} {words : Option UInt64} {v : Operand} :
    f.pushSlot words = .ok (v, g) ↔
      0 < f.blocks.length ∧ v = .value f.nextValue ∧ g = f.withSlot words := by
  unfold pushSlot block freshValue withSlot onBlock
  cases h : f.blocks[0]? with
  | none =>
      have hle := Nat.not_lt.mpr (List.getElem?_eq_none_iff.mp h)
      simp [bind, Except.bind, hle]
  | some b =>
      have hlt := (List.getElem?_eq_some_iff.mp h).1
      simp only [bind, Except.bind, pure, Except.pure, h, Except.ok.injEq, Prod.mk.injEq, hlt,
        true_and]
      rw [← set_eq_modify h, eq_comm, and_congr_right_iff]
      intro _
      rw [eq_comm]
      rfl

end Function

namespace Draft

/-- The current block exists. -/
def Valid (d : Draft) : Prop := d.current < d.function.blocks.length

/-- The current block exists and has not ended. -/
def isOpen (d : Draft) : Bool :=
  match d.function.blocks[d.current]? with
  | some b => !b.isTerminated
  | none => false

/-- The draft with one more group number taken. -/
def nextNumber (d : Draft) : Draft := { d with nextGroup := d.nextGroup + 1 }

def addBlock (name : String) (d : Draft) : Draft :=
  { d with function := (d.function.addBlock name).2 }

def goTo (block : BlockId) (d : Draft) : Draft := { d with current := block }

/-- The draft with an open current block. -/
def opened (d : Draft) : Draft :=
  if d.isOpen then d
  else (d.nextNumber.addBlock ("dead." ++ toString d.nextGroup)).goTo d.function.blocks.length

/-- The draft with the instruction at the end of the current block. -/
def append (instr : Instr) (d : Draft) : Draft :=
  { d with function := d.function.onBlock d.current (.append instr) }

/-- The draft with a new value at the end of the current block. -/
def define (operation : Operation) (d : Draft) : Draft :=
  { d with
    function := { d.function.onBlock d.current (.append (.define d.function.nextValue operation))
      with nextValue := d.function.nextValue + 1 } }

/-- The draft with the current block ended. -/
def endedBy (t : Terminator) (d : Draft) : Draft :=
  { d with function := d.function.onBlock d.current (.endedBy t) }

/-- The draft with the current block ended, unless it had ended. -/
def endedIfOpen (t : Terminator) (d : Draft) : Draft := if d.isOpen then d.endedBy t else d

/-- The draft with one more stack slot, which holds a local name. -/
def withSlot (name : String) (words : Option UInt64) (d : Draft) : Draft :=
  { d with
    function := d.function.withSlot words
    locals := (name, .value d.function.nextValue) :: d.locals }

theorem isOpen_iff {d : Draft} :
    d.isOpen ↔ ∃ b, d.function.blocks[d.current]? = some b ∧ b.terminator = none := by
  unfold isOpen Block.isTerminated
  cases d.function.blocks[d.current]? <;> simp

theorem Valid.of_isOpen {d : Draft} (h : d.isOpen) : d.Valid := by
  obtain ⟨b, hb, _⟩ := isOpen_iff.mp h
  exact (List.getElem?_eq_some_iff.mp hb).1

theorem isOpen_opened (d : Draft) : d.opened.isOpen := by
  unfold opened
  by_cases h : d.isOpen
  · rwa [if_pos h]
  · rw [if_neg h, isOpen_iff]
    refine ⟨.empty ("dead." ++ toString d.nextGroup), ?_, rfl⟩
    simp [goTo, addBlock, nextNumber]

theorem opened_of_isOpen {d : Draft} (h : d.isOpen) : d.opened = d := if_pos h

theorem isOpen_define {d : Draft} (h : d.isOpen) (operation : Operation) :
    (d.define operation).isOpen := by
  obtain ⟨b, hb, ht⟩ := isOpen_iff.mp h
  refine isOpen_iff.mpr ⟨b.append (.define d.function.nextValue operation), ?_, ht⟩
  change (d.function.onBlock d.current _).blocks[d.current]? = _
  rw [Function.getElem?_onBlock, if_pos rfl, hb]
  rfl

@[simp] theorem nextValue_opened (d : Draft) :
    d.opened.function.nextValue = d.function.nextValue := by
  unfold opened
  split <;> rfl

end Draft

namespace Build

theorem isOpen_eq_ok_iff {d d' : Draft} {b : Bool} :
    isOpen d = .ok b d' ↔ d.Valid ∧ b = d.isOpen ∧ d' = d := by
  unfold isOpen Draft.isOpen Draft.Valid Function.block
  cases h : d.function.blocks[d.current]? with
  | none => simp [Nat.not_lt.mpr (List.getElem?_eq_none_iff.mp h)]
  | some b' => simp [(List.getElem?_eq_some_iff.mp h).1, eq_comm]

theorem ensureOpen_eq_ok_iff {d d' : Draft} {u : Unit} :
    ensureOpen d = .ok u d' ↔ d.Valid ∧ d' = d.opened := by
  unfold ensureOpen
  simp only [bind_eq_ok_iff, isOpen_eq_ok_iff]
  constructor
  · rintro ⟨b, r, ⟨hv, rfl, rfl⟩, h⟩
    refine ⟨hv, ?_⟩
    by_cases ho : r.isOpen
    · rw [if_pos ho] at h
      rw [Draft.opened_of_isOpen ho]
      exact (pure_eq_ok_iff.mp h).2
    · rw [if_neg ho] at h
      cases h
      rw [Draft.opened, if_neg ho]
      rfl
  · rintro ⟨hv, rfl⟩
    refine ⟨d.isOpen, d, ⟨hv, rfl, rfl⟩, ?_⟩
    by_cases ho : d.isOpen
    · rw [if_pos ho, Draft.opened_of_isOpen ho]
      rfl
    · rw [if_neg ho, Draft.opened, if_neg ho]
      rfl

theorem onFunction_eq_ok_iff {α : Type} {change : Function → Except Error (α × Function)}
    {d d' : Draft} {a : α} :
    onFunction change d = .ok a d' ↔
      ∃ f, change d.function = .ok (a, f) ∧ d' = { d with function := f } := by
  unfold onFunction
  cases change d.function with
  | error e => simp
  | ok r =>
      obtain ⟨b, f⟩ := r
      simp only [EStateM.Result.ok.injEq, Except.ok.injEq, Prod.mk.injEq]
      grind

theorem onProgram_eq_ok_iff {α : Type} {change : Program → Except Error (α × Program)}
    {d d' : Draft} {a : α} :
    onProgram change d = .ok a d' ↔
      ∃ p, change d.program = .ok (a, p) ∧ d' = { d with program := p } := by
  unfold onProgram
  cases change d.program with
  | error e => simp
  | ok r =>
      obtain ⟨b, p⟩ := r
      simp only [EStateM.Result.ok.injEq, Except.ok.injEq, Prod.mk.injEq]
      grind

theorem currentBlock_eq_ok_iff {d d' : Draft} {b : BlockId} :
    currentBlock d = .ok b d' ↔ b = d.current ∧ d' = d := by
  change EStateM.Result.ok d.current d = .ok b d' ↔ _
  simp [eq_comm]

theorem push_eq_ok_iff {instr : Instr} {d d' : Draft} {u : Unit} :
    push instr d = .ok u d' ↔ d.Valid ∧ d' = d.append instr := by
  unfold push
  simp only [bind_eq_ok_iff, onFunction_eq_ok_iff, currentBlock_eq_ok_iff]
  constructor
  · rintro ⟨_, _, ⟨rfl, rfl⟩, f, hf, rfl⟩
    rename_i d
    cases hp : d.function.push d.current instr with
    | error e => simp [hp, bind, Except.bind] at hf
    | ok g =>
        obtain ⟨hv, rfl⟩ := Function.push_eq_ok_iff.mp hp
        simp only [hp, bind, Except.bind, pure, Except.pure, Except.ok.injEq, Prod.mk.injEq,
          true_and] at hf
        subst hf
        exact ⟨hv, rfl⟩
  · rintro ⟨hv, rfl⟩
    refine ⟨_, _, ⟨rfl, rfl⟩, _, ?_, rfl⟩
    rw [Function.push_eq_ok_iff.mpr ⟨hv, rfl⟩]
    rfl

theorem emit_eq_ok_iff {operation : Operation} {d d' : Draft} {v : Operand} :
    emit operation d = .ok v d' ↔
      d.Valid ∧ v = .value d.function.nextValue ∧ d' = d.opened.define operation := by
  unfold emit
  simp only [bind_eq_ok_iff, ensureOpen_eq_ok_iff, onFunction_eq_ok_iff, push_eq_ok_iff,
    pure_eq_ok_iff]
  constructor
  · rintro ⟨_, _, ⟨hv, rfl⟩, id, _, ⟨f, hf, rfl⟩, _, _, ⟨_, rfl⟩, rfl, rfl⟩
    cases hf
    exact ⟨hv, by simp, rfl⟩
  · rintro ⟨hv, rfl, rfl⟩
    exact ⟨(), _, ⟨hv, rfl⟩, _, _, ⟨_, rfl, rfl⟩, (), _, ⟨.of_isOpen d.isOpen_opened, rfl⟩,
      by simp, rfl⟩

theorem store_eq_ok_iff {value address : Operand} {d d' : Draft} {u : Unit} :
    store value address d = .ok u d' ↔ d.Valid ∧ d' = d.opened.append (.store value address) := by
  unfold store
  simp only [bind_eq_ok_iff, ensureOpen_eq_ok_iff, push_eq_ok_iff]
  constructor
  · rintro ⟨_, _, ⟨hv, rfl⟩, _, rfl⟩
    exact ⟨hv, rfl⟩
  · rintro ⟨hv, rfl⟩
    exact ⟨(), _, ⟨hv, rfl⟩, .of_isOpen d.isOpen_opened, rfl⟩

theorem terminate_eq_ok_iff {t : Terminator} {d d' : Draft} {u : Unit} :
    terminate t d = .ok u d' ↔ d.Valid ∧ d' = d.opened.endedBy t := by
  unfold terminate
  simp only [bind_eq_ok_iff, ensureOpen_eq_ok_iff, onFunction_eq_ok_iff, currentBlock_eq_ok_iff]
  have hend : d.opened.function.terminate d.opened.current t =
      .ok (d.opened.function.onBlock d.opened.current (.endedBy t)) :=
    Function.terminate_eq_ok_iff.mpr ⟨Draft.isOpen_iff.mp d.isOpen_opened, rfl⟩
  constructor
  · rintro ⟨_, _, ⟨hv, rfl⟩, _, _, ⟨rfl, rfl⟩, f, hf, rfl⟩
    rw [hend] at hf
    cases hf
    exact ⟨hv, rfl⟩
  · rintro ⟨hv, rfl⟩
    refine ⟨(), _, ⟨hv, rfl⟩, _, _, ⟨rfl, rfl⟩, _, ?_, rfl⟩
    rw [hend]
    rfl

theorem terminateIfOpen_eq_ok_iff {t : Terminator} {d d' : Draft} {u : Unit} :
    terminateIfOpen t d = .ok u d' ↔ d.Valid ∧ d' = d.endedIfOpen t := by
  unfold terminateIfOpen Draft.endedIfOpen
  simp only [bind_eq_ok_iff, isOpen_eq_ok_iff]
  constructor
  · rintro ⟨_, _, ⟨hv, rfl, rfl⟩, h⟩
    split at h
    · next ho => rw [if_pos ho, (terminate_eq_ok_iff.mp h).2, Draft.opened_of_isOpen ho]
                 exact ⟨hv, rfl⟩
    · next ho => rw [if_neg ho, (pure_eq_ok_iff.mp h).2]
                 exact ⟨hv, rfl⟩
  · rintro ⟨hv, rfl⟩
    refine ⟨_, _, ⟨hv, rfl, rfl⟩, ?_⟩
    split
    · next ho => exact terminate_eq_ok_iff.mpr ⟨hv, by rw [Draft.opened_of_isOpen ho]⟩
    · rfl

end Build
end BCompiler
