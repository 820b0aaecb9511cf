import BCompiler.Proofs.Closing
import BCompiler.Proofs.Execution
import BCompiler.Proofs.Trail.Coherent

/-!
What is known wherever a run comes to.

A place behind an instruction is reached through that instruction alone, and every value is computed
by one instruction. So what a run finds in its values is known from the code, whatever way it took:
a slot has its address, and a value that is computed right behind another one agrees with it until
that one is computed anew.
-/
namespace BCompiler

theorem eq_of_getElem?_of_pairwise {α : Type} {R : α → α → Prop} {l : List α} (h : l.Pairwise R)
    {i j : Nat} {x y : α} (hi : l[i]? = some x) (hj : l[j]? = some y) (hxy : ¬R x y)
    (hyx : ¬R y x) : i = j := by
  obtain ⟨hil, rfl⟩ := List.getElem?_eq_some_iff.mp hi
  obtain ⟨hjl, rfl⟩ := List.getElem?_eq_some_iff.mp hj
  rcases Nat.lt_trichotomy i j with hlt | heq | hlt
  · exact absurd (List.pairwise_iff_getElem.mp h i j hil hjl hlt) hxy
  · exact heq
  · exact absurd (List.pairwise_iff_getElem.mp h j i hjl hil hlt) hyx

namespace Function

variable {f : Function}

/-- A value is defined at one place only. -/
theorem place_unique (honce : f.definitions.Nodup) {k k' : BlockId} {b b' : Block} {i i' : Nat}
    {instr instr' : Instr} {id : ValueId} (hb : f.blocks[k]? = some b)
    (hi : b.instrs[i]? = some instr) (hd : instr.definition? = some id)
    (hb' : f.blocks[k']? = some b') (hi' : b'.instrs[i']? = some instr')
    (hd' : instr'.definition? = some id) : k = k' ∧ i = i' := by
  obtain ⟨hwithin, hacross⟩ := List.pairwise_flatMap.mp honce
  have hm : id ∈ b.definitions := List.mem_filterMap.mpr ⟨instr, List.mem_of_getElem? hi, hd⟩
  have hm' : id ∈ b'.definitions := List.mem_filterMap.mpr ⟨instr', List.mem_of_getElem? hi', hd'⟩
  have hk : k = k' := eq_of_getElem?_of_pairwise hacross hb hb'
    (fun hne => hne id hm id hm' rfl) fun hne => hne id hm' id hm rfl
  subst hk
  cases hb.symm.trans hb'
  refine ⟨rfl, eq_of_getElem?_of_pairwise
    (List.pairwise_filterMap.mp (hwithin b (List.mem_of_getElem? hb))) hi hi' ?_ ?_⟩
  · exact fun hne => hne id hd id hd' rfl
  · exact fun hne => hne id hd' id hd rfl

end Function

namespace Machine

variable {m : Machine} {memory : Memory} {c c' : Config}

/-- The places that a run comes to if memory is as given at first. -/
inductive Reaches (m : Machine) (memory : Memory) : Config → Prop
  | start : Reaches m memory (.start memory)
  | step {c c' : Config} : Reaches m memory c → m.step c = .next c' → Reaches m memory c'

/-- The instruction that is to run, if there is one left in the block. -/
def next? (m : Machine) (c : Config) : Option Instr :=
  m.function.blocks[c.block]?.bind fun b => b.instrs[c.index]?

theorem next?_eq_some {instr : Instr} :
    m.next? c = some instr ↔
      ∃ b, m.function.blocks[c.block]? = some b ∧ b.instrs[c.index]? = some instr :=
  Option.bind_eq_some_iff

theorem enter_of_terminator {t : Terminator} (h : m.terminator c t = .next c') :
    ∃ target, c' = c.enter target := by
  cases t with
  | branch target =>
      cases h
      exact ⟨_, rfl⟩
  | condBranch bit thenBlock elseBlock =>
      rw [terminator] at h
      split at h
      · cases h
        exact ⟨_, rfl⟩
      · cases h
  | switch value default cases =>
      rw [terminator] at h
      split at h
      · cases h
        exact ⟨_, rfl⟩
      · cases h
  | ret value =>
      rw [terminator] at h
      split at h <;> cases h

/-- A step runs the next instruction, or enters a block if there is none. -/
theorem step_cases (h : m.step c = .next c') :
    (∃ instr s, m.next? c = some instr ∧ m.instr c.origin c.state instr = some s ∧
      c' = { c with index := c.index + 1, state := s }) ∨
      m.next? c = none ∧ ∃ target, c' = c.enter target := by
  unfold step at h
  split at h
  · cases h
  · next b hb =>
      split at h
      · next instr hi =>
          split at h
          · next s hs =>
              cases h
              exact .inl ⟨instr, s, next?_eq_some.mpr ⟨b, hb, hi⟩, hs, rfl⟩
          · cases h
      · next hi =>
          split at h
          · refine .inr ⟨?_, enter_of_terminator h⟩
            rw [next?, hb]
            exact hi
          · cases h

theorem instr_define {origin : Option BlockId} {s s' : State} {id : ValueId} {operation : Operation}
    (h : m.instr origin s (.define id operation) = some s') :
    ∃ word memory, m.operation origin s id operation = some (word, memory) ∧
      s' = s.define id word memory := by
  obtain ⟨⟨word, memory⟩, hr, rfl⟩ := Option.map_eq_some_iff.mp h
  exact ⟨word, memory, hr, rfl⟩

theorem instr_store {origin : Option BlockId} {s s' : State} {value address : Operand}
    (h : m.instr origin s (.store value address) = some s') :
    ∃ a word, m.operand s address = some a ∧ m.operand s value = some word ∧
      s' = s.store a word := by
  obtain ⟨a, ha, h⟩ := Option.bind_eq_some_iff.mp h
  obtain ⟨word, hw, h⟩ := Option.bind_eq_some_iff.mp h
  exact ⟨a, word, ha, hw, (Option.some.inj h).symm⟩

/-- An instruction changes no value but its own. -/
theorem values_of_instr {origin : Option BlockId} {s s' : State} {instr : Instr}
    (h : m.instr origin s instr = some s') {id : ValueId} (hd : instr.definition? ≠ some id) :
    s'.values id = s.values id := by
  cases instr with
  | define id' operation =>
      obtain ⟨word, memory, _, rfl⟩ := instr_define h
      exact if_neg fun he => hd (congrArg some he.symm)
  | store value address =>
      obtain ⟨a, word, _, _, rfl⟩ := instr_store h
      rfl

namespace Reaches

/-- A place behind an instruction is reached through that instruction. -/
theorem before (h : m.Reaches memory c) {i : Nat} (hi : c.index = i + 1) :
    ∃ c₀ instr, m.Reaches memory c₀ ∧ c₀.block = c.block ∧ c₀.index = i ∧
      m.next? c₀ = some instr ∧ m.instr c₀.origin c₀.state instr = some c.state := by
  cases h with
  | start => cases hi
  | @step c₀ _ h₀ hstep =>
      rcases step_cases hstep with ⟨instr, s, hnext, hs, rfl⟩ | ⟨_, target, rfl⟩
      · exact ⟨c₀, instr, h₀, rfl, Nat.succ.inj hi, hnext, hs⟩
      · cases hi

/-- A slot that has been made has its address, wherever a run comes to. -/
theorem slot_value (honce : m.function.definitions.Nodup) {id : ValueId} {words : Option UInt64}
    (hslot : .define id (.alloca words) ∈ m.function.instrs) (h : m.Reaches memory c) {a : Word}
    (ha : c.state.values id = some a) : a = m.slot id := by
  obtain ⟨k, b, hb, hm⟩ := Function.mem_instrs.mp hslot
  obtain ⟨i, hi⟩ := List.mem_iff_getElem?.mp hm
  induction h with
  | start => cases ha
  | @step c _ _ hstep ih =>
      rcases step_cases hstep with ⟨instr, s, hnext, hs, rfl⟩ | ⟨_, target, rfl⟩
      · by_cases hd : instr.definition? = some id
        · obtain ⟨b', hb', hi'⟩ := next?_eq_some.mp hnext
          obtain ⟨rfl, rfl⟩ := Function.place_unique honce hb hi rfl hb' hi' hd
          cases hb.symm.trans hb'
          cases hi.symm.trans hi'
          obtain ⟨word, memory, hr, rfl⟩ := instr_define hs
          cases hr
          exact (Option.some.inj ((if_pos rfl).symm.trans ha)).symm
        · exact ih ((values_of_instr hs hd).symm.trans ha)
      · exact ih ha

/-- The word of a value was there when the run last came from the instruction that computes it. -/
theorem computed (honce : m.function.definitions.Nodup) {k : BlockId} {b : Block} {i : Nat}
    {id : ValueId} {operation : Operation} (hb : m.function.blocks[k]? = some b)
    (hi : b.instrs[i]? = some (.define id operation)) (h : m.Reaches memory c) {word : Word}
    (hw : c.state.values id = some word) :
    ∃ c₀ n, m.Reaches memory c₀ ∧ m.Steps n c₀ c ∧ c₀.block = k ∧ c₀.index = i + 1 ∧
      c₀.state.values id = some word := by
  induction h with
  | start => cases hw
  | @step c c' hr hstep ih =>
      have hsame (hw : c.state.values id = some word) :
          ∃ c₀ n, m.Reaches memory c₀ ∧ m.Steps n c₀ c' ∧ c₀.block = k ∧ c₀.index = i + 1 ∧
            c₀.state.values id = some word := by
        obtain ⟨c₀, n, hr₀, hsteps, hplace⟩ := ih hw
        exact ⟨c₀, n + 1, hr₀, hsteps.trans (.one hstep), hplace⟩
      rcases step_cases hstep with ⟨instr, s, hnext, hs, rfl⟩ | ⟨_, target, rfl⟩
      · by_cases hd : instr.definition? = some id
        · -- The value is computed by this step, so the place behind it is here.
          obtain ⟨b', hb', hi'⟩ := next?_eq_some.mp hnext
          obtain ⟨rfl, rfl⟩ := Function.place_unique honce hb hi rfl hb' hi' hd
          exact ⟨_, 0, hr.step hstep, .refl _, rfl, rfl, hw⟩
        · exact hsame ((values_of_instr hs hd).symm.trans hw)
      · exact hsame hw

/-- A pointer that is made from a value right behind it agrees with it, wherever a run comes to. -/
theorem copied (honce : m.function.definitions.Nodup) {k : BlockId} {b : Block} {i : Nat}
    {word pointer : ValueId} {operation : Operation} (hb : m.function.blocks[k]? = some b)
    (hword : b.instrs[i]? = some (.define word operation))
    (hpointer : b.instrs[i + 1]? = some (.define pointer (.toPointer (.value word))))
    (h : m.Reaches memory c) :
    m.next? c = some (.define pointer (.toPointer (.value word))) ∨
      c.state.values pointer = c.state.values word := by
  induction h with
  | start => exact .inr rfl
  | @step c _ _ hstep ih =>
      rcases step_cases hstep with ⟨instr, s, hnext, hs, rfl⟩ | ⟨hnone, target, rfl⟩
      · obtain ⟨b', hb', hi'⟩ := next?_eq_some.mp hnext
        by_cases hw : instr.definition? = some word
        · -- The value is computed anew, and the pointer comes next.
          obtain ⟨rfl, rfl⟩ := Function.place_unique honce hb hword rfl hb' hi' hw
          exact .inl (next?_eq_some.mpr ⟨b, hb, hpointer⟩)
        · refine .inr ?_
          by_cases hp : instr.definition? = some pointer
          · obtain ⟨rfl, hindex⟩ := Function.place_unique honce hb hpointer rfl hb' hi' hp
            cases hb.symm.trans hb'
            rw [hindex] at hpointer
            cases hpointer.symm.trans hi'
            obtain ⟨a, memory, hr, rfl⟩ := instr_define hs
            obtain ⟨a', ha', hr⟩ := Option.bind_eq_some_iff.mp hr
            cases hr
            exact (if_pos rfl).trans (ha'.symm.trans (values_of_instr hs hw).symm)
          · have hsame := ih.resolve_left fun he => by
              cases hnext.symm.trans he
              exact hp rfl
            exact (values_of_instr hs hp).trans (hsame.trans (values_of_instr hs hw).symm)
      · exact .inr (ih.resolve_left fun he => by cases hnone.symm.trans he)

end Reaches
end Machine

/-- Slots apart, the code of the first function stands in the second one too, with more behind it
maybe. -/
def Function.Prolongs (f g : Function) : Prop :=
  ∀ (k : BlockId) (b : Block), f.blocks[k]? = some b →
    ∃ b', g.blocks[k]? = some b' ∧ b.withoutSlots.instrs <+: b'.withoutSlots.instrs

namespace Function.Prolongs

variable {f g h : Function}

theorem refl (f : Function) : f.Prolongs f := fun _ b hb => ⟨b, hb, List.prefix_rfl⟩

theorem trans (hfg : f.Prolongs g) (hgh : g.Prolongs h) : f.Prolongs h := by
  intro k b hb
  obtain ⟨b', hb', hp⟩ := hfg k b hb
  obtain ⟨b'', hb'', hp'⟩ := hgh k b' hb'
  exact ⟨b'', hb'', hp.trans hp'⟩

theorem of_extends (he : f.Extends g) : f.Prolongs g := by
  intro k b hb
  obtain ⟨b', hb', rfl | ⟨_, hp⟩⟩ := he k b hb
  · exact ⟨_, hb', List.prefix_rfl⟩
  · exact ⟨b', hb', hp.filter _⟩

theorem withSlot (f : Function) (words : Option UInt64) : f.Prolongs (f.withSlot words) := by
  intro k b hb
  have hblock := getElem?_onBlock f 0 k
    (.insert f.slots (.define f.nextValue (.alloca words)))
  rw [hb] at hblock
  split at hblock
  · have hsame : (b.insert f.slots (.define f.nextValue (.alloca words))).withoutSlots.instrs =
        b.withoutSlots.instrs := filter_insertIdx (by rfl) _ _
    exact ⟨_, hblock, hsame ▸ List.prefix_rfl⟩
  · exact ⟨b, hblock, List.prefix_rfl⟩

end Function.Prolongs

theorem Trail.prolongs {d d' : Draft} (h : Trail d d') : d.function.Prolongs d'.function := by
  induction h with
  | trans _ _ ih₁ ih₂ => exact ih₁.trans ih₂
  | define ho _ _ => exact .of_extends (Draft.extends_define ho _)
  | store ho _ _ =>
      exact .of_extends (Draft.extends_onBlock ho rfl fun _ => List.prefix_append _ _)
  | ended ho _ => exact .of_extends (Draft.extends_endedBy ho _)
  | addBlock _ | label _ => exact .of_extends (Function.extends_addBlock _ _)
  | slot _ _ => exact .withSlot _ _
  | refl | nextNumber | goTo | labelDefined | string | declare | external => exact .refl _

namespace Block

def slotCount (b : Block) : Nat := b.instrs.countP Instr.isSlot

theorem withoutSlots_append {instr : Instr} (h : instr.isSlot = false) (b : Block) :
    (b.append instr).withoutSlots.instrs = b.withoutSlots.instrs ++ [instr] := by
  simp [withoutSlots, append, h]

theorem getElem?_withoutSlots_append {instr : Instr} (h : instr.isSlot = false) (b : Block) :
    (b.append instr).withoutSlots.instrs[b.withoutSlots.instrs.length]? = some instr := by
  rw [withoutSlots_append h, List.getElem?_concat_length]

/-- If the slots stand in front, the rest of the code begins behind so many instructions. -/
theorem getElem?_of_split {b : Block} {top rest : List Instr} (h : b.instrs = top ++ rest)
    (htop : ∀ instr ∈ top, instr.isSlot) (hrest : ∀ instr ∈ rest, instr.isSlot = false) (i : Nat) :
    b.instrs[b.slotCount + i]? = b.withoutSlots.instrs[i]? := by
  have hnone : ∀ instr ∈ rest, ¬instr.isSlot = true := fun instr hm => by
    rw [hrest instr hm]
    exact Bool.false_ne_true
  have hcount : b.slotCount = top.length := by
    rw [slotCount, h, List.countP_append, List.countP_eq_length.mpr htop,
      List.countP_eq_zero.mpr hnone, Nat.add_zero]
  rw [instrs_withoutSlots h htop hrest, hcount, h,
    List.getElem?_append_right (Nat.le_add_right _ _), Nat.add_sub_cancel_left]

end Block

theorem Function.Hoisted.getElem? {slots : List Slot} {f : Function} (h : f.Hoisted slots)
    {k : BlockId} {b : Block} (hb : f.blocks[k]? = some b) (i : Nat) :
    b.instrs[b.slotCount + i]? = b.withoutSlots.instrs[i]? := by
  by_cases hk : k = 0
  · subst hk
    obtain ⟨b', rest, hb', hinstrs, hrest⟩ := h.entry
    cases hb.symm.trans hb'
    exact Block.getElem?_of_split hinstrs Slot.isSlot_of_mem hrest i
  · exact Block.getElem?_of_split (List.nil_append _).symm (List.forall_mem_nil _)
      (h.others k b hk hb) i

/-- An operand that a draft has reads no value that is still to come. -/
theorem Draft.Coherent.below {d : Draft} (h : d.Coherent) {type : ValueType} {v : Operand}
    (hv : d.Has (.operand type v)) : v.Below d.function.nextValue := by
  rintro id rfl
  cases h.meets hv with
  | value hi =>
      obtain ⟨b, hb, hi⟩ := List.mem_flatMap.mp hi
      have hm : id ∈ d.function.definitions :=
        List.mem_flatMap.mpr ⟨b, hb, List.mem_filterMap.mpr ⟨_, hi, rfl⟩⟩
      exact List.mem_range.mp (h.once.mem_iff.mp hm)

/-- The slots stand in front of all other code, and every value is defined once. -/
structure Function.Orderly (f : Function) : Prop where
  hoisted : ∃ slots, f.Hoisted slots
  once : f.definitions.Nodup

namespace Machine

variable {m : Machine} {memory : Memory} {c : Config} {d d₁ d' : Draft}

/-- The run stands where the code of the draft ends: in its current block, behind the slots that the
function has there and the code that the draft has beside its slots. -/
def Stands (d : Draft) (c : Config) (m : Machine) : Prop :=
  c.block = d.current ∧ ∃ b b', d.function.blocks[d.current]? = some b ∧
    m.function.blocks[d.current]? = some b' ∧
    c.index = b'.slotCount + b.withoutSlots.instrs.length

/-- The code of a draft stands in the function behind its slots. -/
theorem fetch (h : m.function.Orderly) (hp : d.function.Prolongs m.function) {k : BlockId}
    {b : Block} (hb : d.function.blocks[k]? = some b) :
    ∃ b', m.function.blocks[k]? = some b' ∧ ∀ i instr, b.withoutSlots.instrs[i]? = some instr →
      b'.instrs[b'.slotCount + i]? = some instr := by
  obtain ⟨b', hb', more, hmore⟩ := hp k b hb
  obtain ⟨slots, hslots⟩ := h.hoisted
  refine ⟨b', hb', fun i instr hi => ?_⟩
  rw [hslots.getElem? hb' i, ← hmore,
    List.getElem?_append_left (List.getElem?_eq_some_iff.mp hi).1, hi]

/-- Where the code of a draft ends with an instruction, a run has just run it. -/
theorem Reaches.passed (hr : m.Reaches memory c) (h : m.function.Orderly) {b : Block}
    {instr : Instr} (hcurrent : d'.current = d.current)
    (hb : d.function.blocks[d.current]? = some b)
    (hb' : d'.function.blocks[d.current]? = some (b.append instr)) (hi : instr.isSlot = false)
    (hp : d'.function.Prolongs m.function) (hc : m.Stands d' c) :
    ∃ c₀, m.Reaches memory c₀ ∧ m.Stands d c₀ ∧ m.next? c₀ = some instr ∧
      m.instr c₀.origin c₀.state instr = some c.state := by
  obtain ⟨hblock, b₁, b₂, hb₁, hb₂, hindex⟩ := hc
  rw [hcurrent] at hblock hb₁ hb₂
  cases hb'.symm.trans hb₁
  rw [Block.withoutSlots_append hi, List.length_append, List.length_singleton,
    ← Nat.add_assoc] at hindex
  obtain ⟨c₀, instr₀, hr₀, hblock₀, hindex₀, hnext, hs⟩ := hr.before hindex
  obtain ⟨b₃, hb₃, hfetch⟩ := fetch h hp hb'
  cases hb₂.symm.trans hb₃
  have hinstr : b₂.instrs[c₀.index]? = some instr := by
    rw [hindex₀]
    exact hfetch _ _ (Block.getElem?_withoutSlots_append hi b)
  have hhere : m.next? c₀ = some instr :=
    next?_eq_some.mpr ⟨b₂, by rw [hblock₀, hblock, hb₂], hinstr⟩
  cases hnext.symm.trans hhere
  exact ⟨c₀, hr₀, ⟨hblock₀.trans hblock, b, b₂, hb, hb₂, hindex₀⟩, hnext, hs⟩

/-- What an emission leaves in the current block. -/
theorem getElem?_define (d : Draft) (operation : Operation) :
    ∃ b, d.opened.function.blocks[d.opened.current]? = some b ∧
      (d.opened.define operation).function.blocks[d.opened.current]? =
        some (b.append (.define d.function.nextValue operation)) := by
  obtain ⟨b, hb, _⟩ := Draft.isOpen_iff.mp d.isOpen_opened
  refine ⟨b, hb, ?_⟩
  change (d.opened.function.onBlock d.opened.current _).blocks[d.opened.current]? = _
  rw [Function.getElem?_onBlock, if_pos rfl, hb, d.nextValue_opened]
  rfl

/-- Where the code of a draft ends with a value, the run has just computed it. -/
theorem Reaches.emitted (hr : m.Reaches memory c) (h : m.function.Orderly) {operation : Operation}
    {v : Operand} (hs : Build.emit operation d = .ok v d') (ho : operation.isSlot = false)
    (hp : d'.function.Prolongs m.function) (hc : m.Stands d' c) :
    ∃ c₀ word memory', m.Reaches memory c₀ ∧ m.Stands d.opened c₀ ∧
      m.next? c₀ = some (.define d.function.nextValue operation) ∧
      m.operation c₀.origin c₀.state d.function.nextValue operation = some (word, memory') ∧
      c.state = c₀.state.define d.function.nextValue word memory' ∧
      m.operand c.state v = some word := by
  obtain ⟨_, rfl, rfl⟩ := Build.emit_eq_ok_iff.mp hs
  obtain ⟨b, hb, hb'⟩ := getElem?_define d operation
  have hcurrent : (d.opened.define operation).current = d.opened.current := rfl
  obtain ⟨c₀, hr₀, hc₀, hnext, hinstr⟩ := hr.passed h hcurrent hb hb' ho hp hc
  obtain ⟨word, memory', hop, hstate⟩ := instr_define hinstr
  exact ⟨c₀, word, memory', hr₀, hc₀, hnext, hop, hstate, hstate ▸ if_pos rfl⟩

theorem Reaches.stored (hr : m.Reaches memory c) (h : m.function.Orderly) {value address : Operand}
    {u : Unit} (hs : Build.store value address d = .ok u d')
    (hp : d'.function.Prolongs m.function) (hc : m.Stands d' c) :
    ∃ c₀ a word, m.Reaches memory c₀ ∧ m.Stands d.opened c₀ ∧
      m.operand c₀.state address = some a ∧ m.operand c₀.state value = some word ∧
      c.state = c₀.state.store a word := by
  obtain ⟨_, rfl⟩ := Build.store_eq_ok_iff.mp hs
  obtain ⟨b, hb, _⟩ := Draft.isOpen_iff.mp d.isOpen_opened
  have hb' : (d.opened.append (.store value address)).function.blocks[d.opened.current]? =
      some (b.append (.store value address)) := by
    change (d.opened.function.onBlock d.opened.current _).blocks[d.opened.current]? = _
    rw [Function.getElem?_onBlock, if_pos rfl, hb]
    rfl
  have hcurrent : (d.opened.append (.store value address)).current = d.opened.current := rfl
  obtain ⟨c₀, hr₀, hc₀, _, hinstr⟩ := hr.passed h hcurrent hb hb' rfl hp hc
  obtain ⟨a, word, ha, hw, hstate⟩ := instr_store hinstr
  exact ⟨c₀, a, word, hr₀, hc₀, ha, hw, hstate⟩

/-- A value that was emitted has the word that it had when the run last stood behind it. -/
theorem Reaches.standing (hr : m.Reaches memory c) (h : m.function.Orderly) {operation : Operation}
    {v : Operand} (hs : Build.emit operation d = .ok v d') (ho : operation.isSlot = false)
    (hp : d'.function.Prolongs m.function) {word : Word} (hw : m.operand c.state v = some word) :
    ∃ c₀ n, m.Reaches memory c₀ ∧ m.Steps n c₀ c ∧ m.Stands d' c₀ ∧
      m.operand c₀.state v = some word := by
  obtain ⟨_, rfl, rfl⟩ := Build.emit_eq_ok_iff.mp hs
  obtain ⟨b, _, hb⟩ := getElem?_define d operation
  obtain ⟨b', hb', hfetch⟩ := fetch h hp hb
  have hslot : (Instr.define d.function.nextValue operation).isSlot = false := ho
  have hinstr := hfetch _ _ (Block.getElem?_withoutSlots_append hslot b)
  obtain ⟨c₀, n, hr₀, hsteps, hblock, hindex, hw₀⟩ := hr.computed h.once hb' hinstr hw
  refine ⟨c₀, n, hr₀, hsteps, ⟨hblock, _, b', hb, hb', ?_⟩, hw₀⟩
  rw [hindex, Block.withoutSlots_append hslot, List.length_append, List.length_singleton,
    Nat.add_assoc]

/-- Two values that are emitted one after the other are computed one after the other. -/
theorem adjacent (h : m.function.Orderly) {first second : Operation} {v v' : Operand}
    (hs : Build.emit first d = .ok v d₁) (hs' : Build.emit second d₁ = .ok v' d')
    (ho : first.isSlot = false) (ho' : second.isSlot = false)
    (hp : d'.function.Prolongs m.function) :
    ∃ (k : BlockId) (b : Block) (i : Nat), m.function.blocks[k]? = some b ∧
      b.instrs[i]? = some (.define d.function.nextValue first) ∧
      b.instrs[i + 1]? = some (.define d₁.function.nextValue second) := by
  have hopen := Draft.isOpen_emit hs
  obtain ⟨_, _, rfl⟩ := Build.emit_eq_ok_iff.mp hs
  obtain ⟨_, _, rfl⟩ := Build.emit_eq_ok_iff.mp hs'
  obtain ⟨b, _, hb⟩ := getElem?_define d first
  obtain ⟨b₁, hb₁, hb₂⟩ := getElem?_define (d.opened.define first) second
  rw [Draft.opened_of_isOpen hopen] at hb₁ hb₂ hp
  cases hb.symm.trans hb₁
  obtain ⟨b', hb', hfetch⟩ := fetch h hp hb₂
  have hcode : ((b.append (.define d.function.nextValue first)).append
      (.define (d.opened.define first).function.nextValue second)).withoutSlots.instrs =
      b.withoutSlots.instrs ++ [.define d.function.nextValue first,
        .define (d.opened.define first).function.nextValue second] := by
    simp [Block.withoutSlots, Block.append, Instr.isSlot, ho, ho']
  refine ⟨_, b', b'.slotCount + b.withoutSlots.instrs.length, hb', hfetch _ _ ?_,
    (Nat.add_assoc b'.slotCount _ 1).symm ▸ hfetch _ _ ?_⟩
  · rw [hcode]
    simp
  · rw [hcode]
    simp

end Machine
end BCompiler
