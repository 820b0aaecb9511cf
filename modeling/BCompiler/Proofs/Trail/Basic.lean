import BCompiler.Proofs.Trail.Need

/-!
What building does to a draft, whether it succeeds or fails.

Every step on a draft is made of small changes, and a step that fails has made some of them. A trail
is a sequence of such changes. Code that a trail adds refers to what the draft has at that moment.
-/
namespace BCompiler

/-- The changes that lead from a draft to another. -/
inductive Trail : Draft → Draft → Prop
  | refl (d : Draft) : Trail d d
  | trans {d d₁ d₂ : Draft} : Trail d d₁ → Trail d₁ d₂ → Trail d d₂
  | define {d : Draft} {operation : Operation} : d.isOpen → operation.isSlot = false →
      (∀ need ∈ operation.needs, d.Has need) → Trail d (d.define operation)
  | store {d : Draft} {value address : Operand} : d.isOpen → d.Has (.operand .word value) →
      d.Has (.operand .pointer address) → Trail d (d.append (.store value address))
  | ended {d : Draft} {t : Terminator} : d.isOpen → (∀ need ∈ t.needs, d.Has need) →
      Trail d (d.endedBy t)
  | addBlock {d : Draft} {name : String} : isSymbol name → Trail d (d.addBlock name)
  | nextNumber (d : Draft) : Trail d d.nextNumber
  | goTo {d : Draft} {block : BlockId} : d.Has (.block block) → Trail d (d.goTo block)
  | slot {d : Draft} {name : String} {words : Option UInt64} : d.locals.lookup name = none →
      0 < d.function.blocks.length → Trail d (d.withSlot name words)
  | label {d : Draft} {name : String} : isName name → Trail d (d.withLabel name)
  | labelDefined (d : Draft) (name : String) : Trail d (d.labelDefined name)
  | string (d : Draft) (text : String) :
      Trail d { d with program := (d.program.addString text).2 }
  | declare {d : Draft} {name : String} : isName name → name ∉ d.program.module.globalNames →
      Trail d { d with program := d.program.declareFunction name }
  | external {d : Draft} {name : String} {p : Program} : isName name →
      d.program.bindExternal name = .ok p → Trail d { d with program := p }

namespace Function

theorem mem_instrs {f : Function} {instr : Instr} :
    instr ∈ f.instrs ↔ ∃ (k : BlockId) (b : Block), f.blocks[k]? = some b ∧ instr ∈ b.instrs := by
  unfold instrs
  rw [List.mem_flatMap]
  constructor
  · rintro ⟨b, hb, hi⟩
    obtain ⟨k, hk⟩ := List.mem_iff_getElem?.mp hb
    exact ⟨k, b, hk, hi⟩
  · rintro ⟨k, b, hk, hi⟩
    exact ⟨b, List.mem_of_getElem? hk, hi⟩

theorem instrs_onBlock {f : Function} {id : BlockId} {change : Block → Block}
    (h : ∀ b, b.instrs ⊆ (change b).instrs) : f.instrs ⊆ (f.onBlock id change).instrs := by
  intro instr hi
  obtain ⟨k, b, hb, hi⟩ := mem_instrs.mp hi
  rw [mem_instrs]
  by_cases hk : k = id
  · exact ⟨k, change b, by rw [getElem?_onBlock, if_pos hk, hb]; rfl, h b hi⟩
  · exact ⟨k, b, by rw [getElem?_onBlock, if_neg hk, hb], hi⟩

/-- What a change puts into a block is among the instructions. -/
theorem mem_instrs_onBlock {f : Function} {id : BlockId} {change : Block → Block} {instr : Instr}
    (hid : id < f.blocks.length) (h : ∀ b, instr ∈ (change b).instrs) :
    instr ∈ (f.onBlock id change).instrs := by
  refine mem_instrs.mpr ⟨id, change f.blocks[id], ?_, h _⟩
  rw [getElem?_onBlock, if_pos rfl, List.getElem?_eq_getElem hid]
  rfl

theorem instrs_addBlock (f : Function) (name : String) :
    (f.addBlock name).2.instrs = f.instrs := by
  simp [instrs, Block.empty]

end Function

namespace Block

theorem subset_insert (place : Nat) (instr : Instr) (b : Block) :
    b.instrs ⊆ (b.insert place instr).instrs := by
  intro x hx
  unfold insert
  by_cases hp : place ≤ b.instrs.length
  · exact (List.mem_insertIdx hp).mpr (.inr hx)
  · dsimp only
    rwa [List.insertIdx_of_length_lt (Nat.not_le.mp hp)]

end Block

namespace Draft.Retains

variable (d : Draft)

/-- A change that touches nothing but the code. -/
theorem code {d' : Draft} (h : d.Continues d') (hinstrs : d.function.instrs ⊆ d'.function.instrs)
    (hrest : (d'.program, d'.locals, d'.labels) = (d.program, d.locals, d.labels)) :
    d.Retains d' := by
  simp only [Prod.mk.injEq] at hrest
  obtain ⟨hprogram, hlocals, hlabels⟩ := hrest
  refine ⟨h, hprogram ▸ .refl _, hinstrs, hlocals ▸ fun hx => hx, ?_⟩
  exact fun label hm => ⟨label, hlabels ▸ hm, rfl⟩

theorem withProgram {p : Program} (h : d.program.Retains p)
    (hf : d.program.module.functions <+: p.module.functions) :
    d.Retains { d with program := p } :=
  { refl d with toContinues := .program p hf, program := h }

theorem append (instr : Instr) : d.Retains (d.append instr) :=
  code d (.append d instr) (Function.instrs_onBlock fun _ => List.subset_append_left _ _) rfl

theorem define (operation : Operation) : d.Retains (d.define operation) :=
  code d (.define d operation) (Function.instrs_onBlock fun _ => List.subset_append_left _ _) rfl

theorem endedBy (t : Terminator) : d.Retains (d.endedBy t) :=
  code d (.endedBy d t) (Function.instrs_onBlock fun _ => List.Subset.refl _) rfl

theorem addBlock (name : String) : d.Retains (d.addBlock name) :=
  code d (.addBlock d name) (d.function.instrs_addBlock name ▸ List.Subset.refl _) rfl

theorem withSlot {name : String} (words : Option UInt64) (h : d.locals.lookup name = none) :
    d.Retains (d.withSlot name words) where
  toContinues := .code rfl (d.blockNames_withSlot name words)
  program := .refl _
  instrs := Function.instrs_onBlock (Block.subset_insert _ _)
  slots := by
    intro x a hx
    have hne : x ≠ name := by
      rintro rfl
      rw [h] at hx
      cases hx
    rwa [Draft.withSlot, List.lookup_cons, beq_false_of_ne hne]
  labels := fun label hm => ⟨label, hm, rfl⟩

theorem withLabel (name : String) : d.Retains (d.withLabel name) :=
  { addBlock d ("label." ++ name) with
    labels := fun label hm => ⟨label, List.mem_append_left _ hm, rfl⟩ }

theorem labelDefined (name : String) : d.Retains (d.labelDefined name) :=
  { refl d with
    labels := fun label hm => by
      refine ⟨_, List.mem_map.mpr ⟨label, hm, rfl⟩, ?_⟩
      unfold Label.define
      split <;> rfl }

end Draft.Retains

theorem Trail.retains {d d' : Draft} (h : Trail d d') : d.Retains d' := by
  induction h with
  | refl d => exact .refl d
  | trans _ _ ih₁ ih₂ => exact ih₁.trans ih₂
  | define _ _ _ => exact .define _ _
  | store _ _ _ => exact .append _ _
  | ended _ _ => exact .endedBy _ _
  | addBlock _ => exact .addBlock _ _
  | nextNumber d => exact .code d (.nextNumber d) (List.Subset.refl _) rfl
  | goTo _ => exact .code _ (.goTo _ _) (List.Subset.refl _) rfl
  | slot hl _ => exact .withSlot _ _ hl
  | label _ => exact .withLabel _ _
  | labelDefined d name => exact .labelDefined d name
  | string d text => exact .withProgram d (.addString _ text) List.prefix_rfl
  | declare _ _ => exact .withProgram _ (.declareFunction _ _) (Module.prefix_declareFunction _ _)
  | external _ hb =>
      exact .withProgram _ (.bindExternal hb)
        (Program.functions_bindExternal hb ▸ List.prefix_rfl)

theorem Trail.has {d d' : Draft} (h : Trail d d') {need : Need} (hn : d.Has need) : d'.Has need :=
  h.retains.has hn

end BCompiler
