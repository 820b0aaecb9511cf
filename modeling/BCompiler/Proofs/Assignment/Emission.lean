import BCompiler.Proofs.Frame

/-!
Single assignment along the code of expressions.

At each point of a draft, the operands that are known may be read at the end of the current block.
A conditional lets its blocks rely on what was known before it; the block where its arms meet is
entered from the ends of the two arms and from nowhere else.
-/
namespace BCompiler
namespace Draft

/-- A draft whose function has a certificate. Names stand for stack slots, and labels for blocks
that may be entered from anywhere. -/
structure Sound (rely : Reliance) (d : Draft) : Prop where
  code : d.function.Sound rely
  valid : d.Valid
  locals : ∀ x ∈ d.locals, ∃ m ∈ d.function.slotIds, x.2 = .value m
  labels : ∀ label ∈ d.labels, d.function.Plain rely label.block

/-- The value may be read by the next instruction. -/
def Reliable (rely : Reliance) (d : Draft) (m : ValueId) : Prop :=
  m ∈ d.function.slotIds ∨ d.isOpen ∧ d.function.AssignedAfter rely d.current m

/-- The operands may be read by the next instruction. -/
def Knows (rely : Reliance) (d : Draft) (known : List Typed) : Prop :=
  ∀ x ∈ known, ∀ m ∈ x.2.uses, d.Reliable rely m

/-- What stays true of the blocks that a draft has. -/
abbrev Grows (rely rely' : Reliance) (d d' : Draft) : Prop :=
  Function.Grows d.function.blocks.length rely rely' d.function d'.function

variable {rely rely' : Reliance} {d d' : Draft}

theorem Grows.trans' {rely'' : Reliance} {d'' : Draft} (h : d.Grows rely rely' d')
    (h' : d'.Grows rely' rely'' d'') : d.Grows rely rely'' d'' :=
  Function.Grows.trans h (h'.below h.length)

theorem Reliable.assignedAfter {m : ValueId} (h : d.Reliable rely m) :
    d.function.AssignedAfter rely d.current m := h.elim .inl And.right

theorem Reliable.grow {n : Nat} {m : ValueId} (hm : d.Reliable rely m)
    (hg : Function.Grows n rely rely' d.function d'.function)
    (hcurrent : d.isOpen → d'.isOpen ∧ d'.current = d.current ∧ d.current < n) :
    d'.Reliable rely' m := by
  rcases hm with hs | ⟨ho, hm⟩
  · exact .inl (hg.slots hs)
  · obtain ⟨ho', hc, hlt⟩ := hcurrent ho
    exact .inr ⟨ho', hc ▸ hm.mono hg hlt⟩

namespace Sound

/-- A draft with new code but the same names and labels. -/
theorem grow (h : d.Sound rely) (hg : d.Grows rely rely' d') (hcode : d'.function.Sound rely')
    (hvalid : d'.Valid) (hlocals : d'.locals = d.locals) (hlabels : d'.labels = d.labels) :
    d'.Sound rely' := by
  refine ⟨hcode, hvalid, ?_, ?_⟩
  · intro x hx
    obtain ⟨m, hm, he⟩ := h.locals x (hlocals ▸ hx)
    exact ⟨m, hg.slots hm, he⟩
  · intro label hl
    have hplain := h.labels label (hlabels ▸ hl)
    exact hplain.mono hg hplain.lt

theorem addBlock (h : d.Sound rely) (name : String) :
    d.Grows rely rely (d.addBlock name) ∧ (d.addBlock name).Sound rely := by
  have hg : d.Grows rely rely (d.addBlock name) := h.code.grows_addBlock name
  exact ⟨hg, h.grow hg (h.code.addBlock name) (Nat.lt_of_lt_of_le h.valid hg.length) rfl rfl⟩

theorem nextNumber (h : d.Sound rely) : d.nextNumber.Sound rely :=
  ⟨h.code, h.valid, h.locals, h.labels⟩

theorem goTo (h : d.Sound rely) {next : BlockId} (hnext : next < d.function.blocks.length) :
    (d.goTo next).Sound rely := ⟨h.code, hnext, h.locals, h.labels⟩

theorem withProgram (h : d.Sound rely) (p : Program) : ({ d with program := p }).Sound rely :=
  ⟨h.code, h.valid, h.locals, h.labels⟩

/-- Going on in a new block keeps what the stack slots hold. -/
theorem opened (h : d.Sound rely) :
    d.Grows rely rely d.opened ∧ d.opened.Sound rely ∧
      ∀ m, d.Reliable rely m → d.opened.Reliable rely m := by
  by_cases ho : d.isOpen
  · rw [opened_of_isOpen ho]
    exact ⟨.refl _ _ _, h, fun _ hm => hm⟩
  · unfold Draft.opened
    rw [if_neg ho]
    obtain ⟨hg, hnew⟩ := h.nextNumber.addBlock ("dead." ++ toString d.nextGroup)
    have hlt : d.function.blocks.length <
        (d.nextNumber.addBlock ("dead." ++ toString d.nextGroup)).function.blocks.length := by
      simp [Draft.addBlock, Draft.nextNumber]
    refine ⟨hg, hnew.goTo hlt, fun m hm => .inl ?_⟩
    exact hg.slots (hm.resolve_right fun hm => ho hm.1)

end Sound
end Draft

theorem Operation.uses_of_isPlain {operation : Operation} (h : operation.isPlain) :
    operation.uses none = operation.demands.flatMap fun x => x.2.uses := by
  cases operation <;> first | rfl | cases h

namespace Draft

variable {rely rely' : Reliance} {d d' : Draft} {known : List Typed}

theorem Knows.uses (h : d.Knows rely known) {operation : Operation} (hp : operation.isPlain)
    (hd : ∀ x ∈ operation.demands, x ∈ known) {m : ValueId} (hm : m ∈ operation.uses none) :
    d.Reliable rely m := by
  rw [Operation.uses_of_isPlain hp] at hm
  obtain ⟨x, hx, hm⟩ := List.mem_flatMap.mp hm
  exact h x (hd x hx) m hm

theorem mem_definitionsIn_define (hlt : d.current < d.function.blocks.length)
    (operation : Operation) :
    d.function.nextValue ∈ (d.define operation).function.definitionsIn d.current := by
  have hb : (d.define operation).function.blocks[d.current]? = _ :=
    Function.getElem?_onBlock_eq_some.mpr
      ⟨_, List.getElem?_eq_getElem hlt, (if_pos rfl).symm⟩
  rw [Function.definitionsIn_of_getElem? hb, Function.definitions_append]
  exact List.mem_append_right _ (.head _)

namespace Sound

/-- Add an instruction in an open block. -/
theorem define {operation : Operation} (h : d.Sound rely) (ho : d.isOpen)
    (hp : operation.isPlain) (huses : ∀ m ∈ operation.uses none, d.Reliable rely m) :
    d.Grows rely rely (d.define operation) ∧
      (d.define operation).Sound rely ∧
      (d.define operation).Reliable rely d.function.nextValue := by
  have hphi : (Instr.define d.function.nextValue operation).isPhi = false := by
    cases operation <;> first | rfl | cases hp
  obtain ⟨hlt, hnone⟩ := (isOpen_iff_open d).mp ho
  have hg : d.Grows rely rely (d.define operation) := h.code.grows_append _ (.inl hphi)
  refine ⟨hg, h.grow hg ?_ ?_ rfl rfl, .inr ⟨isOpen_define ho _, .inr (.inr ?_)⟩⟩
  · refine h.code.append hnone hlt (fun m hm => (huses m hm).assignedAfter) ?_ ?_
    · rw [List.range_succ]
      exact (List.perm_append_singleton _ _).symm
    · rintro id arms ⟨⟩
      cases hp
  · exact Nat.lt_of_lt_of_eq hlt (Function.length_onBlock ..).symm
  · exact mem_definitionsIn_define hlt _

theorem append {instr : Instr} (h : d.Sound rely) (ho : d.isOpen)
    (hd : instr.definition? = none) (huses : ∀ m ∈ instr.uses none, d.Reliable rely m) :
    d.Grows rely rely (d.append instr) ∧
      (d.append instr).Sound rely := by
  have hphi : instr.isPhi = false := by
    cases instr with
    | define => cases hd
    | store => rfl
  obtain ⟨hlt, hnone⟩ := (isOpen_iff_open d).mp ho
  have hg : d.Grows rely rely (d.append instr) :=
    h.code.grows_append d.function.nextValue (.inl hphi)
  refine ⟨hg, h.grow hg ?_ ?_ rfl rfl⟩
  · refine h.code.append hnone hlt (fun m hm => (huses m hm).assignedAfter) ?_ ?_
    · rw [hd]
      exact .refl _
    · rintro id arms rfl
      cases hd
  · exact Nat.lt_of_lt_of_eq hlt (Function.length_onBlock ..).symm

/-- End an open block. -/
theorem endedBy {t : Terminator} (h : d.Sound rely) (ho : d.isOpen)
    (huses : ∀ m ∈ t.uses, d.Reliable rely m)
    (htargets : ∀ k ∈ t.successors, k < d.function.blocks.length ∧ d.function.PhiFree k ∧
      ∀ m, rely k m → d.Reliable rely m) :
    d.Grows rely rely (d.endedBy t) ∧
      (d.endedBy t).Sound rely := by
  obtain ⟨hlt, hnone⟩ := (isOpen_iff_open d).mp ho
  have hg : d.Grows rely rely (d.endedBy t) := Function.grows_endedBy rely d.function d.current t _
  refine ⟨hg, h.grow hg ?_ ?_ rfl rfl⟩
  · refine h.code.endedBy hnone hlt (fun m hm => (huses m hm).assignedAfter) fun k hk => ?_
    obtain ⟨hk, hfree, hrely⟩ := htargets k hk
    exact ⟨hk, hfree, fun m hm => (hrely m hm).assignedAfter⟩
  · exact Nat.lt_of_lt_of_eq hlt (Function.length_onBlock ..).symm

theorem emit {operation : Operation} {v : Operand} (h : d.Sound rely) (hk : d.Knows rely known)
    (hp : operation.isPlain) (hd : ∀ x ∈ operation.demands, x ∈ known)
    (hs : Build.emit operation d = .ok v d') :
    d.Grows rely rely d' ∧ d'.Sound rely ∧ d'.Knows rely ((operation.type, v) :: known) := by
  obtain ⟨_, rfl, rfl⟩ := Build.emit_eq_ok_iff.mp hs
  obtain ⟨hg, hopened, hreliable⟩ := h.opened
  have ho := isOpen_opened d
  obtain ⟨hg', hnew, hvalue⟩ := hopened.define ho hp fun m hm => hreliable m (hk.uses hp hd hm)
  rw [nextValue_opened] at hvalue
  refine ⟨hg.trans' hg', hnew, ?_⟩
  intro x hx m hm
  rcases List.mem_cons.mp hx with rfl | hx
  · cases List.mem_singleton.mp hm
    exact hvalue
  · refine (hreliable m (hk x hx m hm)).grow hg' fun _ => ⟨isOpen_define ho _, rfl, ?_⟩
    exact ((isOpen_iff_open _).mp ho).1

theorem store {value address : Operand} {u : Unit} (h : d.Sound rely) (hk : d.Knows rely known)
    (hv : (.word, value) ∈ known) (ha : (.pointer, address) ∈ known)
    (hs : Build.store value address d = .ok u d') :
    d.Grows rely rely d' ∧ d'.Sound rely ∧ d'.Knows rely known := by
  obtain ⟨_, rfl⟩ := Build.store_eq_ok_iff.mp hs
  obtain ⟨hg, hopened, hreliable⟩ := h.opened
  have ho := isOpen_opened d
  have huses : ∀ m ∈ (Instr.store value address).uses none, d.opened.Reliable rely m := by
    intro m hm
    rcases List.mem_append.mp hm with hm | hm
    · exact hreliable m (hk _ hv m hm)
    · exact hreliable m (hk _ ha m hm)
  obtain ⟨hg', hnew⟩ := hopened.append ho rfl huses
  refine ⟨hg.trans' hg', hnew, fun x hx m hm => ?_⟩
  refine (hreliable m (hk x hx m hm)).grow hg' fun _ => ⟨isOpen_append ho _, rfl, ?_⟩
  exact ((isOpen_iff_open _).mp ho).1

end Sound

/-- Nothing leads to the blocks of a new construct, which may rely on any values. -/
theorem Sound.addGroup (h : d.Sound rely) (construct first second last : String)
    (blocks : List BlockId) (P : ValueId → Prop)
    (hblocks : ∀ k ∈ blocks, d.function.blocks.length ≤ k ∧ k ≤ d.function.blocks.length + 2) :
    let rely' : Reliance := fun i m => rely i m ∨ i ∈ blocks ∧ P m
    let d' := d.addGroup construct first second last
    d.Grows rely rely' d' ∧ d'.Sound rely' ∧ ∀ m, d.Reliable rely m → d'.Reliable rely' m := by
  intro rely' d'
  obtain ⟨hg₁, h₁⟩ := h.nextNumber.addBlock
    (construct ++ "." ++ toString d.nextGroup ++ "." ++ first)
  obtain ⟨hg₂, h₂⟩ := h₁.addBlock (construct ++ "." ++ toString d.nextGroup ++ "." ++ second)
  obtain ⟨hg₃, h₃⟩ := h₂.addBlock (construct ++ "." ++ toString d.nextGroup ++ "." ++ last)
  have hg : d.Grows rely rely d' := hg₁.trans' (hg₂.trans' hg₃)
  have hg' : d.Grows rely rely' d' := by
    refine { hg with rely := fun i hi m => ⟨fun hm => ?_, .inl⟩ }
    exact hm.resolve_right fun hb => Nat.not_lt.mpr (hblocks i hb.1).1 hi
  have hcode : d'.function.Sound rely' := by
    refine h₃.code.extend blocks P ?_ ?_ ?_
    · intro k hk
      obtain ⟨name, hb⟩ := getElem?_addGroup (d := d) construct first second last (hblocks k hk).1
        (hblocks k hk).2
      exact (List.getElem?_eq_some_iff.mp hb).1
    · intro h0
      exact Nat.not_lt.mpr (hblocks 0 h0).1 (Nat.lt_of_le_of_lt (Nat.zero_le _) h.valid)
    · intro i k hk hs
      have hs : k ∈ d'.function.successors i := hs
      rw [successors_addGroup] at hs
      exact Nat.not_lt.mpr (hblocks k hk).1 (h.code.bounded i k hs)
  refine ⟨hg', h.grow hg' hcode h₃.valid rfl rfl, fun m hm => hm.grow hg' fun ho => ?_⟩
  exact ⟨isOpen_addBlock (isOpen_addBlock (isOpen_addBlock ho _) _) _, rfl, h.valid⟩

/-- A branch on a word to blocks that rely on no more than can be relied on here. -/
theorem Sound.branched {word : Operand} {t e : BlockId} (h : d.Sound rely)
    (hword : ∀ m ∈ word.uses, d.Reliable rely m)
    (htargets : ∀ k ∈ [t, e], k < d.function.blocks.length ∧ d.function.PhiFree k ∧
      ∀ m, rely k m → d.Reliable rely m) :
    d.Grows rely rely (d.branched word t e) ∧ (d.branched word t e).Sound rely := by
  obtain ⟨hg₁, h₁, hreliable₁⟩ := h.opened
  have ho := isOpen_opened d
  have huses : ∀ m ∈ (Operation.compare .ne word (.const 0)).uses none,
      d.opened.Reliable rely m := by
    intro m hm
    refine hreliable₁ m (hword m ?_)
    simpa [Operation.uses, Operation.demands, Operand.uses] using hm
  obtain ⟨hg₂, h₂, hvalue⟩ := h₁.define ho rfl huses
  have hg := hg₁.trans' hg₂
  obtain ⟨hg₃, h₃⟩ := h₂.endedBy (t := .condBranch (.value d.function.nextValue) t e)
    (isOpen_define ho _) (by
      intro m hm
      cases List.mem_singleton.mp hm
      rwa [nextValue_opened] at hvalue) (by
      intro k hk
      obtain ⟨hlt, hfree, hrely⟩ := htargets k hk
      refine ⟨Nat.lt_of_lt_of_le hlt hg.length, hg.phiFree k hlt hfree, fun m hm => ?_⟩
      refine (hreliable₁ m (hrely m hm)).grow hg₂ fun _ => ⟨isOpen_define ho _, rfl, ?_⟩
      exact ((isOpen_iff_open _).mp ho).1)
  exact ⟨hg.trans' hg₃, h₃⟩

/-- The blocks of a new construct and a branch to the first two of them. All three may rely on what
can be relied on here. -/
theorem Sound.fork {construct : String} {word : Operand} {g : BlockGroup} (h : d.Sound rely)
    (P : ValueId → Prop) (hP : ∀ m, P m → d.Reliable rely m)
    (hword : ∀ m ∈ word.uses, d.Reliable rely m)
    (hs : Build.fork construct word d = .ok g d') :
    let rely' : Reliance := fun i m => rely i m ∨ i ∈ [g.first, g.second, g.last] ∧ P m
    d.Grows rely rely' d' ∧ d'.Sound rely' ∧ (∀ i, g.last ∉ d'.function.successors i) ∧
      ∀ k ∈ [g.first, g.second, g.last], ∃ name, d'.function.blocks[k]? = some (.empty name) := by
  intro rely'
  obtain ⟨_, rfl, rfl⟩ := Build.fork_eq_ok_iff.mp hs
  have hgroup : ∀ k ∈ [d.group.first, d.group.second, d.group.last],
      d.function.blocks.length ≤ k ∧ k ≤ d.function.blocks.length + 2 := by
    intro k hk
    simp only [List.mem_cons, List.not_mem_nil, or_false] at hk
    rcases hk with rfl | rfl | rfl <;> simp [group]
  have hempty : ∀ k ∈ [d.group.first, d.group.second, d.group.last], ∃ name,
      (d.addGroup construct "then" "else" "end").function.blocks[k]? = some (.empty name) :=
    fun k hk => getElem?_addGroup _ _ _ _ (hgroup k hk).1 (hgroup k hk).2
  obtain ⟨hg₁, h₁, hreliable₁⟩ := h.addGroup construct "then" "else" "end" _ P hgroup
  obtain ⟨hg₂, h₂⟩ := h₁.branched (t := d.group.first) (e := d.group.second)
    (fun m hm => hreliable₁ m (hword m hm)) (by
      intro k hk
      have hk : k ∈ [d.group.first, d.group.second, d.group.last] := by
        simp only [List.mem_cons, List.not_mem_nil, or_false] at hk ⊢
        exact hk.imp_right .inl
      obtain ⟨name, hb⟩ := hempty k hk
      refine ⟨(List.getElem?_eq_some_iff.mp hb).1, Function.phiFree_of_empty hb, fun m hm => ?_⟩
      rcases hm with hm | ⟨_, hm⟩
      · exact absurd (h.code.fresh k m hm) (Nat.not_lt.mpr (hgroup k hk).1)
      · exact hreliable₁ m (hP m hm))
  have hempty' := fun k hk => (getElem?_fork h.valid hs k hk).2
  obtain ⟨_, hfirst⟩ := hempty' d.group.first (.head _)
  refine ⟨hg₁.trans' hg₂, h₂.goTo (List.getElem?_eq_some_iff.mp hfirst).1, fun i hi => ?_, hempty'⟩
  rcases successors_branched hi with hk | hk
  · simp [group] at hk
  · rw [successors_addGroup] at hk
    exact Nat.not_lt.mpr (hgroup _ (.tail _ (.tail _ (.head _)))).1 (h.code.bounded i _ hk)

/-- Leave an arm for the block where the arms meet. -/
theorem Sound.leave {last exit : BlockId} (h : d.Sound rely) (ho : d.isOpen)
    (hlast : last < d.function.blocks.length) (hfree : d.function.PhiFree last)
    (hrely : ∀ m, rely last m → d.Reliable rely m) (hs : Build.leave last d = .ok exit d') :
    exit = d.current ∧ d' = d.endedBy (.branch last) ∧ d.Grows rely rely d' ∧ d'.Sound rely := by
  obtain ⟨_, rfl, rfl⟩ := Build.leave_eq_ok_iff.mp hs
  rw [opened_of_isOpen ho]
  refine ⟨rfl, rfl, h.endedBy ho nofun fun k hk => ?_⟩
  cases List.mem_singleton.mp hk
  exact ⟨hlast, hfree, hrely⟩

/-- A phi at the beginning of the current block. -/
theorem Sound.phi {arms : List (Operand × BlockId)} {name : String} (h : d.Sound rely)
    (hempty : d.function.blocks[d.current]? = some (.empty name))
    (hready : d.function.PhiReady rely d.current arms) :
    (d.define (.phi arms)).function.Sound rely ∧
      d.function.nextValue ∈ (d.define (.phi arms)).function.definitionsIn d.current := by
  have ho : d.isOpen := isOpen_iff.mpr ⟨_, hempty, rfl⟩
  obtain ⟨hlt, hnone⟩ := (isOpen_iff_open d).mp ho
  constructor
  · refine h.code.append hnone hlt (by simp [Instr.uses, Operation.uses]) ?_ ?_
    · rw [List.range_succ]
      exact (List.perm_append_singleton _ _).symm
    · rintro id arms' ⟨⟩
      exact hready
  · exact mem_definitionsIn_define hlt _

/-- What the code of an expression does to the certificate of a draft that knows some operands. -/
def Certifies (d : Draft) (known : List Typed) (d' : Draft) (known' : List Typed) : Prop :=
  ∀ rely, d.Sound rely → d.Knows rely known →
    ∃ rely', d.Grows rely rely' d' ∧ d'.Sound rely' ∧ d'.Knows rely' known'

/-- The values that the operands read. -/
def ReadBy (known : List Typed) (m : ValueId) : Prop := ∃ x ∈ known, m ∈ x.2.uses

/-- A block that holds nothing yet and will know the operands when it is entered. -/
structure Waits (rely : Reliance) (known : List Typed) (d : Draft) (k : BlockId) : Prop where
  empty : ∃ name, d.function.blocks[k]? = some (.empty name)
  rely : ∀ m, rely k m ↔ ReadBy known m

theorem Waits.lt {k : BlockId} (h : d.Waits rely known k) : k < d.function.blocks.length := by
  obtain ⟨_, hb⟩ := h.empty
  exact (List.getElem?_eq_some_iff.mp hb).1

theorem Waits.isOpen {k : BlockId} (h : d.Waits rely known k) : (d.goTo k).isOpen := by
  obtain ⟨_, hb⟩ := h.empty
  exact isOpen_iff.mpr ⟨_, hb, rfl⟩

theorem Waits.knows {k : BlockId} (h : d.Waits rely known k) : (d.goTo k).Knows rely known :=
  fun x hx m hm => .inr ⟨h.isOpen, .inr (.inl ((h.rely m).mpr ⟨x, hx, hm⟩))⟩

theorem Waits.grow {k : BlockId} (h : d.Waits rely known k) (hg : d.Grows rely rely' d')
    (hb : d'.function.blocks[k]? = d.function.blocks[k]?) : d'.Waits rely' known k :=
  ⟨hb ▸ h.empty, fun m => (hg.rely k h.lt m).trans (h.rely m)⟩

/-- An arm of a conditional, from the beginning of its first block to the branch that leaves it. -/
structure Arm (rely rely' : Reliance) (value : Operand) (last exit : BlockId) (d d' : Draft) :
    Prop where
  grows : d.Grows rely rely' d'
  sound : d'.Sound rely'
  beside : ∀ k < d.function.blocks.length, k ≠ d.current →
    d'.function.blocks[k]? = d.function.blocks[k]?
  names : d'.locals = d.locals ∧ d'.labels = d.labels
  left : exit = d.current ∨ d.function.blocks.length ≤ exit
  lt : exit < d'.function.blocks.length
  assigned : ∀ m ∈ value.uses, d'.function.AssignedAfter rely' exit m
  edges : ∀ p, last ∈ d'.function.successors p ↔ p = exit ∨ last ∈ d.function.successors p

theorem Certifies.arm {d d₁ d₂ : Draft} {known known₁ : List Typed} {value : Operand}
    {last exit : BlockId} (ih : Certifies d known d₁ known₁) (hc : Emission d known d₁ known₁)
    (h : d.Sound rely) (hk : d.Knows rely known) (ho : d.isOpen)
    (hv : (.word, value) ∈ known₁) (hlast : d.Waits rely known last) (hne : last ≠ d.current)
    (hl : Build.leave last d₁ = .ok exit d₂) :
    ∃ rely', Arm rely rely' value last exit d d₂ := by
  obtain ⟨rely', hg₁, h₁, hk₁⟩ := ih rely h hk
  have ho₁ := isOpen_emission hc ho
  have hbeside := Beside.emission hc
  have hlast₁ := hlast.grow hg₁ (hbeside.blocks last hlast.lt hne)
  obtain ⟨name, hempty⟩ := hlast₁.empty
  obtain ⟨rfl, rfl, hg₂, h₂⟩ := h₁.leave ho₁ hlast₁.lt (Function.phiFree_of_empty hempty) (by
    intro m hm
    obtain ⟨x, hx, hm⟩ := (hlast₁.rely m).mp hm
    exact hk₁ x (hc.subset hx) m hm) hl
  have hlt := ((isOpen_iff_open d₁).mp ho₁).1
  refine ⟨rely', hg₁.trans' hg₂, h₂, ?_, ⟨hbeside.locals, hbeside.labels⟩, hbeside.current,
    Nat.lt_of_lt_of_le hlt hg₂.length, ?_, ?_⟩
  · intro k hk hc
    have hkc : k ≠ d₁.current := by
      rintro rfl
      exact hbeside.current.elim hc (Nat.not_le.mpr hk)
    change (d₁.function.onBlock d₁.current _).blocks[k]? = _
    rw [Function.getElem?_onBlock, if_neg hkc, hbeside.blocks k hk hc]
  · exact fun m hm => (hk₁ _ hv m hm).assignedAfter.mono hg₂ hlt
  · intro p
    change last ∈ (d₁.function.onBlock d₁.current _).successors p ↔ _
    rw [Function.successors_endedBy hlt]
    split
    · next hp =>
        exact iff_of_true (.head _) (.inl hp)
    · next hp => simp [hp, hbeside.edges last hlast.lt p]

/-- The blocks of a conditional wait for what is known before it. -/
theorem Sound.forkWaiting {word : Operand} {g : BlockGroup} (h : d.Sound rely)
    (hk : d.Knows rely known) (hword : (.word, word) ∈ known)
    (hf : Build.fork "cond" word d = .ok g d') :
    ∃ rely', d.Grows rely rely' d' ∧ d'.Sound rely' ∧ (∀ i, g.last ∉ d'.function.successors i) ∧
      d'.Waits rely' known g.first ∧ d'.Waits rely' known g.second ∧
      d'.Waits rely' known g.last := by
  obtain ⟨hg, h', hnew, hempty⟩ := h.fork (ReadBy known) (fun m ⟨x, hx, hm⟩ => hk x hx m hm)
    (hk _ hword) hf
  obtain ⟨_, rfl, _⟩ := Build.fork_eq_ok_iff.mp hf
  refine ⟨_, hg, h', hnew, ?_⟩
  have hwaits : ∀ k ∈ [d.group.first, d.group.second, d.group.last],
      d.function.blocks.length ≤ k → d'.Waits (fun i m => rely i m ∨
        i ∈ [d.group.first, d.group.second, d.group.last] ∧ ReadBy known m) known k := by
    intro k hk hle
    refine ⟨hempty k hk, fun m => ⟨fun hm => ?_, fun hm => .inr ⟨hk, hm⟩⟩⟩
    exact (hm.resolve_left fun hr => Nat.not_lt.mpr hle (h.code.fresh k m hr)).2
  exact ⟨hwaits _ (.head _) (Nat.le_refl _), hwaits _ (.tail _ (.head _)) (Nat.le_succ _),
    hwaits _ (.tail _ (.tail _ (.head _))) (Nat.le_succ_of_le (Nat.le_succ _))⟩

/-- The block where two arms meet is entered from their ends and from nowhere else. -/
theorem Arm.phiReady {d₁ d₂ d₃ : Draft} {rely₁ rely₂ rely₃ : Reliance}
    {thenValue elseValue : Operand} {last second thenExit elseExit : BlockId}
    (arm₁ : Arm rely₁ rely₂ thenValue last thenExit d₁ d₂)
    (arm₂ : Arm rely₂ rely₃ elseValue last elseExit (d₂.goTo second) d₃)
    (hnew : ∀ i, last ∉ d₁.function.successors i) (hsecond : second < d₁.function.blocks.length)
    (hne : second ≠ d₁.current) (hlast : last ≠ 0) (hempty : d₃.Waits rely₃ known last) :
    d₃.function.PhiReady rely₃ last [(thenValue, thenExit), (elseValue, elseExit)] := by
  have hexits : thenExit ≠ elseExit := by
    rintro rfl
    rcases arm₂.left with he | hle
    · rcases arm₁.left with he' | hle
      · exact hne (he.symm.trans he')
      · exact Nat.not_lt.mpr hle (Nat.lt_of_le_of_lt (Nat.le_of_eq he) hsecond)
    · exact Nat.not_lt.mpr hle arm₁.lt
  refine ⟨hlast, ?_, by simpa using hexits, fun p => ?_, ?_⟩
  · obtain ⟨name, hb⟩ := hempty.empty
    intro b hb'
    cases hb.symm.trans hb'
    rfl
  · have hold : last ∈ (d₂.goTo second).function.successors p ↔ _ := arm₁.edges p
    rw [arm₂.edges p, hold]
    simp [hnew p, or_comm]
  · intro arm harm m hm
    simp only [List.mem_cons, List.not_mem_nil, or_false] at harm
    rcases harm with rfl | rfl
    · exact (arm₁.assigned m hm).mono arm₂.grows arm₁.lt
    · exact arm₂.assigned m hm

theorem Certifies.conditional {d d₁ d₂ d₃ d₄ d' : Draft} {known known₂ known₄ : List Typed}
    {word thenValue elseValue v : Operand} {g : BlockGroup} {exit : BlockId}
    (hword : (.word, word) ∈ known) (hf : Build.fork "cond" word d = .ok g d₁)
    (hthen : Emission d₁ known d₂ known₂) (htv : (.word, thenValue) ∈ known₂)
    (hl : Build.leave g.last d₂ = .ok exit d₃)
    (helse : Emission (d₃.goTo g.second) known d₄ known₄) (hev : (.word, elseValue) ∈ known₄)
    (hj : Build.join g.last thenValue exit elseValue d₄ = .ok v d')
    (ih₁ : Certifies d₁ known d₂ known₂) (ih₂ : Certifies (d₃.goTo g.second) known d₄ known₄) :
    Certifies d known d' ((.word, v) :: known) := by
  intro rely h hk
  obtain ⟨rely₁, hg₁, h₁, hnew, hfirst, hsecond, hlast⟩ := h.forkWaiting hk hword hf
  obtain ⟨_, rfl, hd₁⟩ := Build.fork_eq_ok_iff.mp hf
  have hcurrent : d₁.current = d.group.first := by rw [hd₁]; rfl
  have hat : d₁.goTo d.group.first = d₁ := by rw [hd₁]; rfl
  have hsecond_ne : d.group.second ≠ d₁.current := by simp [hcurrent, group]
  have hlast_ne : d.group.last ≠ d₁.current := by simp [hcurrent, group]
  have hlast_second : d.group.last ≠ d.group.second := by simp [group]
  obtain ⟨rely₂, arm₁⟩ := ih₁.arm hthen h₁ (hat ▸ hfirst.knows) (hat ▸ hfirst.isOpen) htv hlast
    hlast_ne hl
  have hsecond₃ := hsecond.grow arm₁.grows (arm₁.beside _ hsecond.lt hsecond_ne)
  have hlast₃ := hlast.grow arm₁.grows (arm₁.beside _ hlast.lt hlast_ne)
  obtain ⟨elseExit, d₅, hl₂, hj⟩ := bind_eq_ok_iff.mp hj
  obtain ⟨_, d₆, hgo, hj⟩ := bind_eq_ok_iff.mp hj
  cases Build.switchTo_eq_ok_iff.mp hgo
  have hlast₃ : (d₃.goTo d.group.second).Waits rely₂ known d.group.last :=
    ⟨hlast₃.empty, hlast₃.rely⟩
  obtain ⟨rely₃, arm₂⟩ := ih₂.arm helse (arm₁.sound.goTo hsecond₃.lt) hsecond₃.knows
    hsecond₃.isOpen hev hlast₃ hlast_second hl₂
  have hlast₅ := hlast₃.grow arm₂.grows (arm₂.beside _ hlast₃.lt hlast_second)
  have hready := arm₁.phiReady arm₂ hnew hsecond.lt hsecond_ne (by simp [group]) hlast₅
  obtain ⟨_, rfl, rfl⟩ := Build.emit_eq_ok_iff.mp hj
  rw [opened_of_isOpen hlast₅.isOpen]
  obtain ⟨name, hempty⟩ := hlast₅.empty
  obtain ⟨hcode, hvalue⟩ := (arm₂.sound.goTo hlast₅.lt).phi hempty hready
  have hgrows₅ : d.Grows rely rely₃ d₅ := hg₁.trans' (arm₁.grows.trans' arm₂.grows)
  have hgrows : d.Grows rely rely₃ ((d₅.goTo d.group.last).define
      (.phi [(thenValue, exit), (elseValue, elseExit)])) :=
    hgrows₅.trans (arm₂.sound.code.grows_append (i := d.group.last) (d₅.function.nextValue + 1)
      (.inr (Nat.le_succ_of_le (Nat.le_succ d.function.blocks.length))))
  have hfork := ((Beside.refl d).fork hf).1
  have hopen := isOpen_define hlast₅.isOpen (.phi [(thenValue, exit), (elseValue, elseExit)])
  refine ⟨rely₃, hgrows, h.grow hgrows hcode ((isOpen_iff_open _).mp hopen).1 ?_ ?_, ?_⟩
  · exact arm₂.names.1.trans (arm₁.names.1.trans hfork.locals)
  · exact arm₂.names.2.trans (arm₁.names.2.trans hfork.labels)
  · intro x hx m hm
    refine .inr ⟨hopen, .inr ?_⟩
    rcases List.mem_cons.mp hx with rfl | hx
    · cases List.mem_singleton.mp hm
      exact .inr hvalue
    · exact .inl ((hlast₅.rely m).mpr ⟨x, hx, hm⟩)

/-- Every course of compiling an expression keeps certificates. -/
theorem Certifies.emission {d d' : Draft} {known known' : List Typed}
    (hc : Emission d known d' known') : d.Certifies known d' known' := by
  induction hc with
  | refl d known => exact fun rely h hk => ⟨rely, .refl _ _ _, h, hk⟩
  | trans _ _ ih₁ ih₂ =>
      intro rely h hk
      obtain ⟨rely₁, hg₁, h₁, hk₁⟩ := ih₁ rely h hk
      obtain ⟨rely₂, hg₂, h₂, hk₂⟩ := ih₂ rely₁ h₁ hk₁
      exact ⟨rely₂, hg₁.trans' hg₂, h₂, hk₂⟩
  | const w =>
      refine fun rely h hk => ⟨rely, .refl _ _ _, h, fun x hx => ?_⟩
      rcases List.mem_cons.mp hx with rfl | hx
      · nofun
      · exact hk x hx
  | symbol name =>
      refine fun rely h hk => ⟨rely, .refl _ _ _, h, fun x hx => ?_⟩
      rcases List.mem_cons.mp hx with rfl | hx
      · nofun
      · exact hk x hx
  | slot hlookup =>
      refine fun rely h hk => ⟨rely, .refl _ _ _, h, fun x hx m hm => ?_⟩
      rcases List.mem_cons.mp hx with rfl | hx
      · obtain ⟨before, after, hl, _⟩ := List.lookup_eq_some_iff.mp hlookup
        obtain ⟨n, hn, he⟩ := h.locals (_, _) (hl ▸ List.mem_append_right _ (.head _))
        cases he
        cases List.mem_singleton.mp hm
        exact .inl hn
      · exact hk x hx m hm
  | emit hp hd hs => exact fun rely h hk => ⟨rely, h.emit hk hp hd hs⟩
  | store hv ha hs => exact fun rely h hk => ⟨rely, h.store hk hv ha hs⟩
  | string | declare => exact fun rely h hk => ⟨rely, .refl _ _ _, h.withProgram _, hk⟩
  | conditional hw hf hthen htv hl helse hev hj ih₁ ih₂ =>
      exact .conditional hw hf hthen htv hl helse hev hj ih₁ ih₂

end Draft
end BCompiler
