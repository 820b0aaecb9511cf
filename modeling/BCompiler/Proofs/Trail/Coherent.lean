import BCompiler.Proofs.Assignment.Certificate
import BCompiler.Proofs.Trail.Statement

/-!
Functions whose code refers only to what there is.

A function is coherent in a program if all that its code refers to is there: values at the types at
which they are used, parameters, symbols, functions and blocks. Every trail keeps to this, so a
function is coherent however far its body was compiled.
-/
namespace BCompiler

namespace Block

theorem needs_append (instr : Instr) (b : Block) :
    (b.append instr).needs.Perm (instr.needs ++ b.needs) := by
  unfold needs append
  rw [List.flatMap_append, List.flatMap_singleton, List.append_assoc]
  exact List.perm_append_comm_assoc _ _ _

theorem needs_endedBy {b : Block} (h : b.terminator = none) (t : Terminator) :
    (b.endedBy t).needs.Perm (t.needs ++ b.needs) := by
  unfold needs endedBy
  rw [h, Option.map_none, Option.getD_none, List.append_nil, Option.map_some, Option.getD_some]
  exact List.perm_append_comm

/-- A stack slot needs nothing. -/
theorem needs_insert {b : Block} {place : Nat} (h : place ≤ b.instrs.length) (id : ValueId)
    (words : Option UInt64) : (b.insert place (.define id (.alloca words))).needs.Perm b.needs :=
  ((List.perm_insertIdx _ _ h).flatMap_right Instr.needs).append_right _

end Block

theorem cons_range_perm (n : Nat) : (n :: List.range n).Perm (List.range (n + 1)) := by
  rw [List.range_succ]
  exact (List.perm_append_singleton _ _).symm

/-- All that the code of a function refers to is there, and every value is defined once. -/
structure Function.Coherent (p : Program) (f : Function) : Prop where
  once : f.definitions.Perm (List.range f.nextValue)
  met : ∀ need ∈ f.needs, f.Meets p need
  named : ∀ name ∈ f.blockNames, isSymbol name

theorem Function.Coherent.mono {p p' : Program} {f : Function} (hp : p.Retains p')
    (h : f.Coherent p) : f.Coherent p' where
  once := h.once
  met := fun need hn => (h.met need hn).mono hp rfl (List.Subset.refl _) (Nat.le_refl _)
  named := h.named

/-- A coherent function under construction, whose local names and labels are there too. -/
structure Draft.Coherent (d : Draft) : Prop extends d.function.Coherent d.program where
  room : ∃ b, d.function.blocks[0]? = some b ∧ d.function.slots ≤ b.instrs.length
  slots : ∀ {x a}, d.locals.lookup x = some a → d.function.Meets d.program (.operand .pointer a)
  labels : ∀ label ∈ d.labels, label.block < d.function.blocks.length

namespace Draft.Coherent

variable {d : Draft}

theorem meets (h : d.Coherent) {need : Need} (hn : d.Has need) :
    d.function.Meets d.program need := by
  cases hn with
  | met hm => exact hm
  | slot hx => exact h.slots hx
  | label hm => exact .block (h.labels _ hm)

theorem ofFunction (p : Program) (id : FunctionId) (name : String) (params : List String) :
    (Draft.ofFunction p id (.entered name params)).Coherent where
  once := List.Perm.refl _
  met := fun _ hn => absurd hn List.not_mem_nil
  named := fun x hx => by
    cases List.mem_singleton.mp hx
    decide
  room := ⟨_, rfl, Nat.le_refl _⟩
  slots := fun hx => by cases hx
  labels := fun _ hm => absurd hm List.not_mem_nil

/-- A change of the program that retains what there is. -/
theorem withProgram (h : d.Coherent) {p : Program} (hp : d.program.Retains p) :
    ({ d with program := p }).Coherent where
  toCoherent := h.toCoherent.mono hp
  room := h.room
  slots := fun hx => (h.slots hx).mono hp rfl (List.Subset.refl _) (Nat.le_refl _)
  labels := h.labels

theorem room_onBlock (h : d.Coherent) {id : BlockId} {change : Block → Block}
    (hchange : ∀ b, b.instrs.length ≤ (change b).instrs.length) :
    ∃ b, (d.function.onBlock id change).blocks[0]? = some b ∧
      d.function.slots ≤ b.instrs.length := by
  obtain ⟨b, hb, hle⟩ := h.room
  rw [Function.getElem?_onBlock, hb]
  split
  · exact ⟨change b, rfl, Nat.le_trans hle (hchange b)⟩
  · exact ⟨b, rfl, hle⟩

/-- More code in the current block, which needs only what the draft has. -/
theorem onCurrent (h : d.Coherent) {d' : Draft} {change : Block → Block} {extra : List Need}
    (hd' : d'.function.blocks = (d.function.onBlock d.current change).blocks)
    (hopen : d.isOpen) (hr : d.Retains d') (hslots : d'.function.slots = d.function.slots)
    (hrest : (d'.locals, d'.labels) = (d.locals, d.labels))
    (hlength : ∀ b, b.instrs.length ≤ (change b).instrs.length)
    (hneeds : ∀ b, b.terminator = none → (change b).needs.Perm (extra ++ b.needs))
    (hextra : ∀ need ∈ extra, d.Has need) (hnames : d'.function.blockNames = d.function.blockNames)
    (honce : d'.function.definitions.Perm (List.range d'.function.nextValue)) : d'.Coherent := by
  simp only [Prod.mk.injEq] at hrest
  obtain ⟨hlocals, hlabels⟩ := hrest
  obtain ⟨b, hb, hnone⟩ := isOpen_iff.mp hopen
  have hperm : d'.function.needs.Perm (extra ++ d.function.needs) := by
    unfold Function.needs
    rw [hd']
    exact Function.flatMap_modify_perm hb (hneeds b hnone)
  refine ⟨⟨honce, fun need hn => ?_, hnames ▸ h.named⟩, ?_, fun hx => ?_, fun label hm => ?_⟩
  · rcases List.mem_append.mp (hperm.mem_iff.mp hn) with hn | hn
    · exact hr.meets (h.meets (hextra need hn))
    · exact hr.meets (h.met need hn)
  · rw [hd', hslots]
    exact h.room_onBlock hlength
  · exact hr.meets (h.slots (hlocals ▸ hx))
  · exact Nat.lt_of_lt_of_le (h.labels label (hlabels ▸ hm)) hr.length_le

theorem append (h : d.Coherent) {instr : Instr} (hopen : d.isOpen) (hd : instr.definition? = none)
    (hn : ∀ need ∈ instr.needs, d.Has need) : (d.append instr).Coherent := by
  refine h.onCurrent rfl hopen (.append d instr) rfl rfl (fun b => by simp [Block.append])
    (fun b _ => b.needs_append instr) hn (d.blockNames_append instr) ?_
  have hdefs : (d.append instr).function.definitions.Perm ([] ++ d.function.definitions) := by
    obtain ⟨b, hb, _⟩ := isOpen_iff.mp hopen
    refine Function.flatMap_modify_perm hb ?_
    rw [Function.definitions_append, hd, Option.toList_none, List.append_nil]
    exact List.Perm.refl _
  exact hdefs.trans h.once

theorem define (h : d.Coherent) {operation : Operation} (hopen : d.isOpen)
    (hn : ∀ need ∈ operation.needs, d.Has need) : (d.define operation).Coherent := by
  refine h.onCurrent rfl hopen (.define d operation) rfl rfl (fun b => by simp [Block.append])
    (fun b _ => b.needs_append _) hn (d.blockNames_define operation) ?_
  have hdefs : (d.define operation).function.definitions.Perm
      ([d.function.nextValue] ++ d.function.definitions) := by
    obtain ⟨b, hb, _⟩ := isOpen_iff.mp hopen
    refine Function.flatMap_modify_perm hb ?_
    rw [Function.definitions_append]
    exact List.perm_append_comm
  exact hdefs.trans ((h.once.append_left _).trans (cons_range_perm _))

theorem endedBy (h : d.Coherent) {t : Terminator} (hopen : d.isOpen)
    (hn : ∀ need ∈ t.needs, d.Has need) : (d.endedBy t).Coherent := by
  refine h.onCurrent rfl hopen (.endedBy d t) rfl rfl (fun b => Nat.le_refl _)
    (fun b hb => Block.needs_endedBy hb t) hn (d.blockNames_endedBy t) ?_
  have hdefs : (d.endedBy t).function.definitions.Perm ([] ++ d.function.definitions) := by
    obtain ⟨b, hb, _⟩ := isOpen_iff.mp hopen
    exact Function.flatMap_modify_perm hb (List.Perm.refl _)
  exact hdefs.trans h.once

theorem addBlock (h : d.Coherent) {name : String} (hname : isSymbol name) :
    (d.addBlock name).Coherent where
  once := by
    have hdefs : (d.addBlock name).function.definitions = d.function.definitions := by
      simp [Function.definitions, Draft.addBlock, Block.definitions, Block.empty]
    exact hdefs ▸ h.once
  met := by
    have hneeds : (d.addBlock name).function.needs = d.function.needs := by
      simp [Function.needs, Draft.addBlock, Block.needs, Block.empty]
    rw [hneeds]
    exact fun need hn => (Retains.addBlock d name).meets (h.met need hn)
  named := by
    rw [blockNames_addBlock]
    intro x hx
    rcases List.mem_append.mp hx with hx | hx
    · exact h.named x hx
    · cases List.mem_singleton.mp hx
      exact hname
  room := by
    obtain ⟨b, hb, hle⟩ := h.room
    exact ⟨b, Function.getElem?_addBlock_of_eq_some name hb, hle⟩
  slots := fun hx => (Retains.addBlock d name).meets (h.slots hx)
  labels := fun label hm =>
    Nat.lt_of_lt_of_le (h.labels label hm) (Retains.addBlock d name).length_le

theorem withSlot (h : d.Coherent) {name : String} (words : Option UInt64)
    (hname : d.locals.lookup name = none) : (d.withSlot name words).Coherent := by
  obtain ⟨b, hb, hle⟩ := h.room
  have hr := Retains.withSlot d words hname
  have hdefs : (d.withSlot name words).function.definitions.Perm
      ([d.function.nextValue] ++ d.function.definitions) :=
    Function.flatMap_modify_perm hb ((List.perm_insertIdx _ _ hle).filterMap _)
  have hneeds : (d.withSlot name words).function.needs.Perm ([] ++ d.function.needs) :=
    Function.flatMap_modify_perm hb (Block.needs_insert hle _ words)
  have hentry : (d.withSlot name words).function.blocks[0]? =
      some (b.insert d.function.slots (.define d.function.nextValue (.alloca words))) := by
    change (d.function.onBlock 0 _).blocks[0]? = _
    rw [Function.getElem?_onBlock, if_pos rfl, hb]
    rfl
  refine ⟨⟨?_, fun need hn => ?_, ?_⟩, ⟨_, hentry, ?_⟩, fun {x a} hx => ?_, fun label hm => ?_⟩
  · exact hdefs.trans ((h.once.append_left _).trans (cons_range_perm _))
  · exact hr.meets (h.met need (hneeds.mem_iff.mp hn))
  · exact d.blockNames_withSlot name words ▸ h.named
  · change d.function.slots + 1 ≤ (b.instrs.insertIdx _ _).length
    rw [List.length_insertIdx_of_le_length hle]
    exact Nat.succ_le_succ hle
  · change ((name, _) :: d.locals).lookup x = some a at hx
    rw [List.lookup_cons] at hx
    split at hx
    · cases hx
      have hslot : .define d.function.nextValue (.alloca words) ∈
          (d.withSlot name words).function.instrs :=
        Function.mem_instrs.mpr ⟨0, _, hentry, (List.mem_insertIdx hle).mpr (.inl rfl)⟩
      exact .value hslot
    · exact hr.meets (h.slots hx)
  · exact Nat.lt_of_lt_of_le (h.labels label hm) hr.length_le

theorem withLabel (h : d.Coherent) {name : String} (hname : isName name) :
    (d.withLabel name).Coherent := by
  have hsymbol : isSymbol ("label." ++ name) :=
    isSymbol_append.mpr ⟨by decide, isSymbol_of_isName hname⟩
  refine { h.addBlock hsymbol with labels := fun label hm => ?_ }
  change label.block < (d.addBlock ("label." ++ name)).function.blocks.length
  rcases List.mem_append.mp hm with hm | hm
  · exact (h.addBlock hsymbol).labels label hm
  · cases List.mem_singleton.mp hm
    simp [Draft.addBlock]

theorem labelDefined (h : d.Coherent) (name : String) : (d.labelDefined name).Coherent := by
  refine { h with labels := fun label hm => ?_ }
  obtain ⟨old, hold, rfl⟩ := List.mem_map.mp hm
  unfold Label.define
  split <;> exact h.labels old hold

end Draft.Coherent

theorem Trail.coherent {d d' : Draft} (ht : Trail d d') (h : d.Coherent) : d'.Coherent := by
  induction ht with
  | refl d => exact h
  | trans _ _ ih₁ ih₂ => exact ih₂ (ih₁ h)
  | define hopen _ hn => exact h.define hopen hn
  | @store d value address hopen hv ha =>
      refine h.append hopen rfl fun need hm => ?_
      rcases List.mem_cons.mp hm with rfl | hm
      · exact hv
      · cases List.mem_singleton.mp hm
        exact ha
  | ended hopen hn => exact h.endedBy hopen hn
  | addBlock hname => exact h.addBlock hname
  | nextNumber d => exact { h with }
  | goTo _ => exact { h with }
  | slot hname _ => exact h.withSlot _ hname
  | label hname => exact h.withLabel hname
  | labelDefined d name => exact h.labelDefined name
  | string d text => exact h.withProgram (.addString _ text)
  | declare _ _ => exact h.withProgram (.declareFunction _ _)
  | external _ hb => exact h.withProgram (.bindExternal hb)

end BCompiler
