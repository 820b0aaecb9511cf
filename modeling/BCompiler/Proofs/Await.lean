import BCompiler.Proofs.Graph
import BCompiler.Proofs.Reserve
import BCompiler.Proofs.Visit

/-!
Blocks that wait to be entered.

A construct makes its blocks before its parts are compiled, and a label has its block as soon as it
is mentioned. Until the construct comes back to such a block or the label is defined, the block is
empty, and nothing goes on in it. No other block is open but the current one, since a block that is
left has ended.
-/
namespace BCompiler

namespace Draft

/-- The block of a label that is mentioned but not defined. -/
def Pending (d : Draft) (k : BlockId) : Prop :=
  ∃ label ∈ d.labels, label.defined = false ∧ label.block = k

theorem Pending.of_labelDefined {name : String} {d : Draft} {k : BlockId}
    (h : (d.labelDefined name).Pending k) : d.Pending k := by
  obtain ⟨_, hm, hd, hk⟩ := h
  obtain ⟨label, hold, rfl⟩ := List.mem_map.mp hm
  rw [Label.block_define] at hk
  refine ⟨label, hold, ?_, hk⟩
  unfold Label.define at hd
  split at hd
  · cases hd
  · exact hd

theorem names_labelDefined (d : Draft) (name : String) :
    (d.labelDefined name).labels.map Label.name = d.labels.map Label.name := by
  unfold labelDefined
  rw [List.map_map]
  exact List.map_congr_left fun label _ => Label.name_define name label

theorem targets_labelDefined (d : Draft) (name : String) :
    (d.labelDefined name).labels.map Label.block = d.labels.map Label.block := by
  unfold labelDefined
  rw [List.map_map]
  exact List.map_congr_left fun label _ => Label.block_define name label

theorem not_isOpen_addBlock {d : Draft} (hv : d.Valid) (h : d.isOpen = false) (name : String) :
    (d.addBlock name).isOpen = false := by
  rw [Bool.eq_false_iff] at h ⊢
  intro ho
  obtain ⟨_, hnone⟩ := (isOpen_iff_open _).mp ho
  rw [terminator?_addBlock] at hnone
  exact h ((isOpen_iff_open d).mpr ⟨hv, hnone⟩)

theorem not_isOpen_endedIfOpen (d : Draft) (t : Terminator) : (d.endedIfOpen t).isOpen = false := by
  unfold endedIfOpen
  split
  · next ho => exact Graph.not_isOpen_endedBy (.of_isOpen ho) t
  · next hclosed => exact Bool.not_eq_true _ ▸ hclosed

theorem not_isOpen_branched (d : Draft) (word : Operand) (t e : BlockId) :
    (d.branched word t e).isOpen = false :=
  Graph.not_isOpen_endedBy (.of_isOpen (isOpen_define d.isOpen_opened _)) _

/-- What is reserved is empty, and so are the blocks of labels that are not defined. No two labels
have the same name or the same block. An open block is the current one or waits. -/
structure Awaits (ks : List BlockId) (d : Draft) : Prop extends d.Reserves ks where
  names : (d.labels.map Label.name).Nodup
  targets : (d.labels.map Label.block).Nodup
  empty : ∀ k, k ∈ ks ∨ d.Pending k →
    0 < k ∧ k ≠ d.current ∧ ∃ name, d.function.blocks[k]? = some (.empty name)
  settled : ∀ i, d.Open i → i = d.current ∨ i ∈ ks ∨ d.Pending i

namespace Awaits

variable {ks ks' : List BlockId} {d d' : Draft}

/-- The order in which the blocks wait does not matter. -/
theorem congr (h : d.Awaits ks) (hmem : ∀ k, k ∈ ks' ↔ k ∈ ks) : d.Awaits ks' where
  valid := h.valid
  labels label hm := ⟨(h.labels label hm).1, fun hk => (h.labels label hm).2 ((hmem _).mp hk)⟩
  waiting k hk := h.waiting k ((hmem k).mp hk)
  current hk := h.current ((hmem _).mp hk)
  names := h.names
  targets := h.targets
  empty k hk := h.empty k (hk.imp_left (hmem k).mp)
  settled i hi := (h.settled i hi).imp_right (.imp_left (hmem i).mpr)

theorem not_pending (h : d.Awaits ks) {k : BlockId} (hk : k ∈ ks) : ¬d.Pending k := by
  rintro ⟨label, hm, _, rfl⟩
  exact (h.labels label hm).2 hk

/-- A change of the current block or the first one that opens no block. -/
theorem onBlock {id : BlockId} {change : Block → Block} (h : d.Awaits ks) (hr : d'.Reserves ks)
    (hid : id = d.current ∨ id = 0)
    (hblocks : d'.function.blocks = (d.function.onBlock id change).blocks)
    (hchange : ∀ b, (change b).terminator = none → b.terminator = none)
    (hrest : (d'.current, d'.labels) = (d.current, d.labels)) : d'.Awaits ks := by
  obtain ⟨hcurrent, hlabels⟩ := Prod.mk.inj hrest
  have hpending : ∀ k, d'.Pending k ↔ d.Pending k := fun k => by rw [Pending, Pending, hlabels]
  refine ⟨hr, hlabels ▸ h.names, hlabels ▸ h.targets, fun k hk => ?_, fun i hi => ?_⟩
  · obtain ⟨hpos, hne, name, hb⟩ := h.empty k (hk.imp_right (hpending k).mp)
    refine ⟨hpos, hcurrent ▸ hne, name, ?_⟩
    rw [hblocks, Function.getElem?_onBlock, if_neg, hb]
    rintro rfl
    exact hid.elim hne (Nat.ne_of_gt hpos)
  · rw [hcurrent, hpending]
    refine h.settled i ((open_iff d).mpr ?_)
    obtain ⟨b, hb, hnone⟩ := (open_iff d').mp hi
    rw [hblocks, Function.getElem?_onBlock] at hb
    split at hb
    · obtain ⟨old, hold, rfl⟩ := Option.map_eq_some_iff.mp hb
      exact ⟨old, hold, hchange old hnone⟩
    · exact ⟨b, hb, hnone⟩

theorem append (h : d.Awaits ks) (instr : Instr) : (d.append instr).Awaits ks :=
  h.onBlock (h.toReserves.append instr) (.inl rfl) rfl (fun _ hb => hb) rfl

theorem define (h : d.Awaits ks) (operation : Operation) : (d.define operation).Awaits ks :=
  h.onBlock (h.toReserves.define operation) (.inl rfl) rfl (fun _ hb => hb) rfl

theorem endedBy (h : d.Awaits ks) (t : Terminator) : (d.endedBy t).Awaits ks :=
  h.onBlock (h.toReserves.endedBy t) (.inl rfl) rfl (fun _ hb => absurd hb (Option.some_ne_none t))
    rfl

theorem withSlot (h : d.Awaits ks) (name : String) (words : Option UInt64) :
    (d.withSlot name words).Awaits ks :=
  h.onBlock (h.toReserves.withSlot name words) (.inr rfl) rfl (fun _ hb => hb) rfl

theorem withProgram (h : d.Awaits ks) (p : Program) : ({ d with program := p }).Awaits ks :=
  { h with toReserves := h.toReserves.withProgram p }

theorem nextNumber (h : d.Awaits ks) : d.nextNumber.Awaits ks :=
  { h with toReserves := h.toReserves.nextNumber }

/-- A new block waits. -/
theorem addBlock (h : d.Awaits ks) (name : String) :
    (d.addBlock name).Awaits (d.function.blocks.length :: ks) := by
  have hr := h.toReserves.addBlock name
  have hnew : (d.addBlock name).function.blocks[d.function.blocks.length]? =
      some (.empty name) := by simp [Draft.addBlock]
  have hlength : (d.addBlock name).function.blocks.length = d.function.blocks.length + 1 := by
    simp [Draft.addBlock]
  have hvalid : d.current < d.function.blocks.length := h.valid
  refine ⟨⟨hr.valid, fun label hm => ?_, fun k hk => ?_, fun hm => ?_⟩, h.names, h.targets, ?_, ?_⟩
  · obtain ⟨hlabel, hfree⟩ := h.labels label hm
    refine ⟨(hr.labels label hm).1, fun hm' => ?_⟩
    rcases List.mem_cons.mp hm' with he | hm'
    · exact Nat.ne_of_lt hlabel he
    · exact hfree hm'
  · rcases List.mem_cons.mp hk with rfl | hk
    · exact (open_iff _).mpr ⟨_, hnew, rfl⟩
    · exact hr.waiting k hk
  · rcases List.mem_cons.mp hm with he | hm
    · exact Nat.ne_of_lt hvalid he
    · exact h.current hm
  · intro k hk
    by_cases hk' : k = d.function.blocks.length
    · subst hk'
      exact ⟨Nat.zero_lt_of_lt hvalid, Nat.ne_of_gt hvalid, name, hnew⟩
    · have hold : k ∈ ks ∨ d.Pending k :=
        hk.imp_left fun hm => (List.mem_cons.mp hm).resolve_left hk'
      obtain ⟨hpos, hne, name', hb⟩ := h.empty k hold
      refine ⟨hpos, hne, name', ?_⟩
      rw [Draft.addBlock, Function.blocks_addBlock,
        List.getElem?_append_left (List.getElem?_eq_some_iff.mp hb).1, hb]
  · rintro i ⟨hlt, hnone⟩
    rw [hlength] at hlt
    rw [terminator?_addBlock] at hnone
    rcases Nat.lt_succ_iff_lt_or_eq.mp hlt with hlt | rfl
    · exact (h.settled i ⟨hlt, hnone⟩).imp_right (.imp_left (.tail _))
    · exact .inr (.inl (.head _))

/-- A block that waits is entered, once the current one has ended. -/
theorem goTo {k : BlockId} (h : d.Awaits (k :: ks)) (hclosed : d.isOpen = false) (hk : k ∉ ks) :
    (d.goTo k).Awaits ks where
  valid := (h.waiting k (.head _)).1
  labels label hm := ⟨(h.labels label hm).1, fun hb => (h.labels label hm).2 (.tail _ hb)⟩
  waiting i hi := h.waiting i (.tail _ hi)
  current := hk
  names := h.names
  targets := h.targets
  empty i hi := by
    obtain ⟨hpos, _, hb⟩ := h.empty i (hi.imp_left (.tail _))
    refine ⟨hpos, ?_, hb⟩
    rintro rfl
    exact hi.elim hk (h.not_pending (.head _))
  settled i hi := by
    rcases h.settled i hi with rfl | hm | hp
    · rw [(isOpen_iff_open d).mpr hi] at hclosed
      cases hclosed
    · exact (List.mem_cons.mp hm).imp_right .inl
    · exact .inr (.inr hp)

theorem inNewBlock (h : d.Awaits ks) (hclosed : d.isOpen = false) (name : String) :
    ((d.addBlock name).goTo d.function.blocks.length).Awaits ks :=
  (h.addBlock name).goTo (not_isOpen_addBlock h.valid hclosed name) (h.not_mem (Nat.le_refl _))

theorem opened (h : d.Awaits ks) : d.opened.Awaits ks := by
  unfold Draft.opened
  split
  · exact h
  · next hclosed => exact h.nextNumber.inNewBlock (Bool.not_eq_true _ ▸ hclosed) _

theorem endedIfOpen (h : d.Awaits ks) (t : Terminator) : (d.endedIfOpen t).Awaits ks := by
  unfold Draft.endedIfOpen
  split
  · exact h.endedBy t
  · exact h

theorem branched (h : d.Awaits ks) (word : Operand) (t e : BlockId) :
    (d.branched word t e).Awaits ks :=
  (h.opened.define _).endedBy _

/-- End the current block and go on in one that waits. -/
theorem ended_goTo {k : BlockId} (h : d.Awaits (k :: ks)) (hk : k ∉ ks) (t : Terminator) :
    ((d.opened.endedBy t).goTo k).Awaits ks :=
  (h.opened.endedBy t).goTo (Graph.not_isOpen_endedBy h.opened.valid t) hk

theorem fallenInto {k : BlockId} (h : d.Awaits (k :: ks)) (hk : k ∉ ks) (target : BlockId) :
    (d.fallenInto target k).Awaits ks :=
  (h.endedIfOpen _).goTo (d.not_isOpen_endedIfOpen _) hk

theorem addGroup (h : d.Awaits ks) (construct first second last : String) :
    (d.addGroup construct first second last).Awaits
      (d.group.first :: d.group.second :: d.group.last :: ks) := by
  have hblocks := ((h.nextNumber.addBlock
    (construct ++ "." ++ toString d.nextGroup ++ "." ++ first)).addBlock
    (construct ++ "." ++ toString d.nextGroup ++ "." ++ second)).addBlock
    (construct ++ "." ++ toString d.nextGroup ++ "." ++ last)
  refine Awaits.congr (by simpa [Draft.addBlock, Draft.nextNumber, Draft.addGroup] using hblocks) ?_
  intro k
  simp only [Draft.group, List.mem_cons]
  constructor
  · rintro (hk | hk | hk | hk) <;> simp [hk]
  · rintro (hk | hk | hk | hk) <;> simp [hk]

/-- The blocks of a new construct are distinct and do not wait yet. -/
theorem group_not_mem (h : d.Awaits ks) :
    d.group.first ∉ d.group.second :: d.group.last :: ks ∧
      d.group.second ∉ d.group.last :: ks ∧ d.group.last ∉ ks := by
  have hfirst : d.group.first ∉ ks := h.not_mem (Nat.le_refl _)
  have hsecond : d.group.second ∉ ks := h.not_mem (Nat.le_succ _)
  have hlast : d.group.last ∉ ks := h.not_mem (Nat.le_add_right _ 2)
  simp only [List.mem_cons, not_or]
  refine ⟨⟨?_, ?_, hfirst⟩, ⟨?_, hsecond⟩, hlast⟩ <;> simp [Draft.group]

/-- A construct that goes on in its first block, while the other two wait. -/
theorem begun (h : d.Awaits ks) (construct first second last : String) (target : BlockId) :
    ((d.addGroup construct first second last).fallenInto target d.group.first).Awaits
      (d.group.second :: d.group.last :: ks) :=
  (h.addGroup construct first second last).fallenInto h.group_not_mem.1 target

theorem fork {construct : String} {word : Operand} {g : BlockGroup} (h : d.Awaits ks)
    (hs : Build.fork construct word d = .ok g d') :
    d'.Awaits (g.second :: g.last :: ks) ∧ g.second ∉ g.last :: ks ∧ g.last ∉ ks := by
  obtain ⟨_, rfl, rfl⟩ := Build.fork_eq_ok_iff.mp hs
  exact ⟨((h.addGroup construct _ _ _).branched _ _ _).goTo (not_isOpen_branched _ _ _ _)
    h.group_not_mem.1, h.group_not_mem.2⟩

theorem emit {operation : Operation} {v : Operand} (h : d.Awaits ks)
    (hs : Build.emit operation d = .ok v d') : d'.Awaits ks := by
  obtain ⟨_, _, rfl⟩ := Build.emit_eq_ok_iff.mp hs
  exact h.opened.define _

theorem store {value address : Operand} {u : Unit} (h : d.Awaits ks)
    (hs : Build.store value address d = .ok u d') : d'.Awaits ks := by
  obtain ⟨_, rfl⟩ := Build.store_eq_ok_iff.mp hs
  exact h.opened.append _

theorem leave_goTo {last exit k : BlockId} (h : d.Awaits (k :: ks)) (hk : k ∉ ks)
    (hs : Build.leave last d = .ok exit d') : (d'.goTo k).Awaits ks := by
  obtain ⟨_, _, rfl⟩ := Build.leave_eq_ok_iff.mp hs
  exact h.ended_goTo hk _

theorem join {last exit : BlockId} {thenValue elseValue v : Operand} (h : d.Awaits (last :: ks))
    (hk : last ∉ ks) (hs : Build.join last thenValue exit elseValue d = .ok v d') :
    d'.Awaits ks := by
  obtain ⟨elseExit, d₁, hl, hs⟩ := bind_eq_ok_iff.mp hs
  obtain ⟨_, d₂, hgo, hs⟩ := bind_eq_ok_iff.mp hs
  cases Build.switchTo_eq_ok_iff.mp hgo
  exact (h.leave_goTo hk hl).emit hs

/-- So does the code of an expression, with the blocks of its conditionals. -/
theorem emission {known known' : List Typed} (hc : Emission d known d' known') :
    ∀ {ks}, d.Awaits ks → d'.Awaits ks := by
  induction hc with
  | refl | const | symbol | slot => exact fun h => h
  | trans _ _ ih₁ ih₂ => exact fun h => ih₂ (ih₁ h)
  | emit _ _ hs => exact fun h => h.emit hs
  | store _ _ hs => exact fun h => h.store hs
  | string | declare => exact fun h => h.withProgram _
  | conditional _ hf _ _ hl _ _ hj ih₁ ih₂ =>
      intro ks h
      obtain ⟨h₁, hsecond, hlast⟩ := h.fork hf
      exact (ih₂ ((ih₁ h₁).leave_goTo hsecond hl)).join hlast hj

theorem loop {g : BlockGroup} (h : d.Awaits ks) (hs : Build.loop d = .ok g d') :
    d'.Awaits (g.second :: g.last :: ks) ∧ g.second ∉ g.last :: ks ∧ g.last ∉ ks := by
  obtain ⟨_, rfl, rfl⟩ := Build.loop_eq_ok_iff.mp hs
  exact ⟨h.begun _ _ _ _ _, h.group_not_mem.2⟩

theorem select {g : BlockGroup} (h : d.Awaits ks) (hs : Build.select d = .ok g d') :
    d'.Awaits (g.second :: g.last :: ks) ∧ g.second ∉ g.last :: ks ∧ g.last ∉ ks := by
  obtain ⟨_, rfl, rfl⟩ := Build.select_eq_ok_iff.mp hs
  exact ⟨h.begun _ _ _ _ _, h.group_not_mem.2⟩

/-- Fall into a block and go on in one that waits. -/
theorem fallInto {target k : BlockId} {u : Unit} (h : d.Awaits (k :: ks)) (hk : k ∉ ks)
    (hs : Build.fallInto target k d = .ok u d') : d'.Awaits ks := by
  obtain ⟨_, rfl⟩ := Build.fallInto_eq_ok_iff.mp hs
  exact h.fallenInto hk target

theorem test {word : Operand} {g : BlockGroup} {u : Unit} (h : d.Awaits (g.second :: ks))
    (hk : g.second ∉ ks) (hs : Build.test word g d = .ok u d') : d'.Awaits ks := by
  obtain ⟨_, rfl⟩ := Build.test_eq_ok_iff.mp hs
  exact (h.branched _ _ _).goTo (not_isOpen_branched _ _ _ _) hk

theorem settle {value : Operand} {cases : List (Word × BlockId)} {g : BlockGroup} {u : Unit}
    (h : d.Awaits (g.second :: g.last :: ks)) (hsecond : g.second ∉ g.last :: ks)
    (hlast : g.last ∉ ks) (hs : Build.settle value cases g d = .ok u d') : d'.Awaits ks := by
  obtain ⟨_, _, rfl⟩ := Build.settle_eq_ok_iff.mp hs
  exact (h.fallenInto hsecond g.last).ended_goTo hlast _

theorem caseBlock {number : Nat} {value : Word} {block : BlockId} (h : d.Awaits ks)
    (hs : Build.caseBlock number value d = .ok block d') : d'.Awaits ks := by
  obtain ⟨_, rfl, rfl⟩ := Build.caseBlock_eq_ok_iff.mp hs
  exact (h.addBlock _).fallenInto (h.not_mem (Nat.le_refl _)) _

theorem mentioning (h : d.Awaits ks) (name : String) : (d.mentioning name).Awaits ks := by
  have hr := h.toReserves.mentioning name
  unfold Draft.mentioning at hr ⊢
  split at hr
  · exact h
  · next hfind =>
      have hnew := (h.addBlock ("label." ++ name))
      refine ⟨hr, ?_, ?_, fun k hk => ?_, fun i hi => ?_⟩
      · change ((d.labels ++ [_]).map Label.name).Nodup
        rw [List.map_append, List.map_singleton, List.nodup_append]
        refine ⟨h.names, List.pairwise_singleton _ _, fun x hx y hy => ?_⟩
        obtain ⟨label, hm, rfl⟩ := List.mem_map.mp hx
        rw [List.mem_singleton.mp hy]
        simpa using List.find?_eq_none.mp hfind label hm
      · change ((d.labels ++ [_]).map Label.block).Nodup
        rw [List.map_append, List.map_singleton, List.nodup_append]
        refine ⟨h.targets, List.pairwise_singleton _ _, fun k hk j hj => ?_⟩
        obtain ⟨label, hm, rfl⟩ := List.mem_map.mp hk
        rw [List.mem_singleton.mp hj]
        exact Nat.ne_of_lt (h.labels label hm).1
      · refine hnew.empty k ?_
        rcases hk with hk | ⟨label, hm, hd, rfl⟩
        · exact .inl (.tail _ hk)
        · rcases List.mem_append.mp hm with hm | hm
          · exact .inr ⟨label, hm, hd, rfl⟩
          · rw [List.mem_singleton.mp hm]
            exact .inl (.head _)
      · rcases hnew.settled i hi with hc | hm | ⟨label, hm, hd⟩
        · exact .inl hc
        · rcases List.mem_cons.mp hm with rfl | hm
          · exact .inr (.inr ⟨_, List.mem_append_right _ (.head _), rfl, rfl⟩)
          · exact .inr (.inl hm)
        · exact .inr (.inr ⟨label, List.mem_append_left _ hm, hd⟩)

/-- A label that is defined no longer waits. -/
theorem not_pending_labelDefined (h : d.Awaits ks) {label : Label} (hm : label ∈ d.labels) :
    ¬(d.labelDefined label.name).Pending label.block := by
  rintro ⟨_, hother, hd, hb⟩
  obtain ⟨other, hold, rfl⟩ := List.mem_map.mp hother
  rw [Label.block_define] at hb
  cases eq_of_nodup_map h.targets hold hm hb
  rw [Label.define, if_pos (beq_self_eq_true _)] at hd
  cases hd

/-- The other labels go on to wait. -/
theorem pending_labelDefined (h : d.Awaits ks) {label : Label} (hm : label ∈ d.labels)
    {k : BlockId} (hk : d.Pending k) (hne : k ≠ label.block) :
    (d.labelDefined label.name).Pending k := by
  obtain ⟨other, hother, hd, rfl⟩ := hk
  have hname : other.name ≠ label.name :=
    fun he => hne (congrArg Label.block (eq_of_nodup_map h.names hother hm he))
  refine ⟨other.define label.name, List.mem_map_of_mem hother, ?_⟩
  rw [Label.define, if_neg (by simpa using hname)]
  exact ⟨hd, rfl⟩

/-- A label is defined and its block entered. -/
theorem labelDefined_goTo (h : d.Awaits ks) (hclosed : d.isOpen = false) {label : Label}
    (hm : label ∈ d.labels) : ((d.labelDefined label.name).goTo label.block).Awaits ks where
  toReserves := (h.toReserves.labelDefined label.name).goTo (h.labels label hm)
  names := d.names_labelDefined label.name ▸ h.names
  targets := d.targets_labelDefined label.name ▸ h.targets
  empty k hk := by
    obtain ⟨hpos, _, hb⟩ := h.empty k (hk.imp_right (·.of_labelDefined))
    refine ⟨hpos, ?_, hb⟩
    rintro rfl
    exact hk.elim (h.labels label hm).2 (h.not_pending_labelDefined hm)
  settled i hi := by
    by_cases hi' : i = label.block
    · exact .inl hi'
    · rcases h.settled i hi with rfl | hk | hp
      · rw [(isOpen_iff_open d).mpr hi] at hclosed
        cases hclosed
      · exact .inr (.inl hk)
      · exact .inr (.inr (h.pending_labelDefined hm hp hi'))

theorem goto {name : String} {u : Unit} (h : d.Awaits ks)
    (hs : Build.goto name d = .ok u d') : d'.Awaits ks := by
  obtain ⟨_, rfl⟩ := Build.goto_eq_ok_iff.mp hs
  exact ((h.mentioning name).endedIfOpen _).nextNumber.inNewBlock (not_isOpen_endedIfOpen _ _) _

theorem placeLabel {name : String} {u : Unit} (h : d.Awaits ks)
    (hs : Build.placeLabel name d = .ok u d') : d'.Awaits ks := by
  obtain ⟨_, _, rfl⟩ := Build.placeLabel_eq_ok_iff.mp hs
  obtain ⟨label, hm, rfl, hb⟩ := d.labelTarget_mentioning name
  have hended := (h.mentioning label.name).endedIfOpen (.branch label.block)
  rw [← hb]
  -- It does not matter whether the label is defined before the current block ends or behind it.
  have hcomm : ((d.mentioning label.name).labelDefined label.name).endedIfOpen
      (.branch label.block) =
        ((d.mentioning label.name).endedIfOpen (.branch label.block)).labelDefined label.name := by
    unfold Draft.endedIfOpen
    split <;> split <;> trivial
  rw [Draft.fallenInto, hcomm]
  refine hended.labelDefined_goTo (not_isOpen_endedIfOpen _ _) ?_
  unfold Draft.endedIfOpen
  split <;> exact hm

/-- Compiling statements leaves empty what waits. -/
theorem course {e e' : Option Switch} (hc : Course d e d' e') :
    ∀ {ks}, d.Awaits ks → d'.Awaits ks := by
  induction hc with
  | refl => exact fun h => h
  | trans _ _ ih₁ ih₂ => exact fun h => ih₂ (ih₁ h)
  | code hc => exact emission hc
  | slot hs =>
      intro ks h
      obtain ⟨_, _, _, rfl⟩ := Build.slot_eq_ok_iff.mp hs
      exact h.withSlot _ _
  | external hs =>
      intro ks h
      obtain ⟨p, _, rfl⟩ := Build.onProgram_eq_ok_iff.mp hs
      exact h.withProgram p
  | ret hc _ hs =>
      intro ks h
      obtain ⟨_, rfl⟩ := Build.terminate_eq_ok_iff.mp hs
      exact (emission hc h).opened.endedBy _
  | goto hs => exact fun h => h.goto hs
  | label hs => exact fun h => h.placeLabel hs
  | case _ hs => exact fun h => h.caseBlock hs
  | ifElse hc _ hf _ hfall _ henter ih₁ ih₂ =>
      intro ks h
      obtain ⟨h₂, hsecond, hlast⟩ := (emission hc h).fork hf
      exact (ih₂ ((ih₁ h₂).fallInto hsecond hfall)).fallInto hlast henter
  | whileLoop hl hc _ ht _ hfall ih =>
      intro ks h
      obtain ⟨h₁, hsecond, hlast⟩ := h.loop hl
      exact (ih ((emission hc h₁).test hsecond ht)).fallInto hlast hfall
  | switch hc _ hs _ hd ih =>
      intro ks h
      obtain ⟨h₂, hsecond, hlast⟩ := (emission hc h).select hs
      exact (ih h₂).settle hsecond hlast hd

theorem spill {params : List String} {u : Unit} (h : d.Awaits ks)
    (hs : Build.spill params d = .ok u d') : d'.Awaits ks := by
  induction params generalizing d with
  | nil =>
      obtain ⟨_, rfl⟩ := pure_eq_ok_iff.mp hs
      exact h
  | cons param params ih =>
      obtain ⟨v, d₁, hslot, hs⟩ := bind_eq_ok_iff.mp hs
      obtain ⟨_, d₂, hstore, hs⟩ := bind_eq_ok_iff.mp hs
      obtain ⟨_, _, _, rfl⟩ := Build.slot_eq_ok_iff.mp hslot
      obtain ⟨_, rfl⟩ := Build.store_eq_ok_iff.mp hstore
      exact ih ((h.withSlot _ _).opened.append _) hs

/-- A function begins without labels, in its only block. -/
theorem ofFunction (p : Program) (id : FunctionId) (name : String) (params : List String) :
    (Draft.ofFunction p id (.entered name params)).Awaits [] where
  valid := Nat.zero_lt_one
  labels := nofun
  waiting := nofun
  current := nofun
  names := .nil
  targets := .nil
  empty := by rintro k (hk | ⟨_, hm, _⟩) <;> contradiction
  settled i hi := .inl (Nat.lt_one_iff.mp hi.1)

theorem start {name : String} {params : List String} {p : Program}
    (h : Draft.start name params p = .ok d) : d.Awaits [] := by
  obtain ⟨id, m, _, _, hspill⟩ := Draft.start_eq_ok h
  exact (ofFunction _ _ _ _).spill hspill

end Awaits
end Draft

theorem Mark.awaits {mark : Mark} {d d' : Draft} {ks : List BlockId} {u : Unit} (h : d.Awaits ks)
    (ha : mark.act d = .ok u d') : d'.Awaits ks := by
  cases mark with
  | statement =>
      obtain ⟨_, rfl⟩ := pure_eq_ok_iff.mp ha
      exact h
  | goto name => exact h.goto ha
  | label name => exact h.placeLabel ha
  | auto name size => exact .course (Build.declareAuto_course none ha) h

namespace Logged

variable {α β : Type}

/-- From a draft as `P` says, it is known what waits at every mark that the step comes to, and the
draft is as `Q` says when the step succeeds. -/
def Attends (P : Draft → Prop) (x : Logged α) (Q : α → Draft → Prop) : Prop :=
  ∀ s, P s.target →
    (∀ v ∈ x.log s, ∃ ks, v.site.target.Awaits ks) ∧ ∀ a t, x.step s = .ok a t → Q a t.target

namespace Attends

variable {P : Draft → Prop} {ks : List BlockId} {e : Option Switch}

theorem bind {x : Logged α} {f : α → Logged β} {R : α → Draft → Prop} {Q : β → Draft → Prop}
    (hx : Attends P x R) (hf : ∀ a, Attends (R a) (f a) Q) : Attends P (x >>= f) Q := by
  intro s hs
  obtain ⟨hlog, hok⟩ := hx s hs
  refine ⟨fun v hv => ?_, fun b t hb => ?_⟩
  · rcases mem_log_bind.mp hv with hv | ⟨a, r, ha, hv⟩
    · exact hlog v hv
    · exact (hf a r (hok a r ha)).1 v hv
  · obtain ⟨a, r, ha, hb⟩ := bind_eq_ok_iff.mp hb
    exact (hf a r (hok a r ha)).2 b t hb

theorem unmarked {step : Pass Draft α} {Q : α → Draft → Prop}
    (h : ∀ s a t, P s.target → step s = .ok a t → Q a t.target) :
    Attends P (.unmarked step) Q :=
  fun s hs => ⟨nofun, fun a t ht => h s a t hs ht⟩

theorem pure (a : α) : Attends P (Pure.pure a) fun _ => P := by
  refine unmarked fun s b t hs ht => ?_
  obtain ⟨_, rfl⟩ := pure_eq_ok_iff.mp ht
  exact hs

theorem throw {Q : α → Draft → Prop} (e : Error) :
    Attends P (.unmarked (MonadExcept.throw e)) Q :=
  unmarked fun _ _ _ _ ht => absurd ht throw_ne_ok

theorem scan (step : Scan α) : Attends P (.unmarked (Pass.scan step)) fun _ => P := by
  refine unmarked fun s a t hs ht => ?_
  rwa [(Pass.scan_eq_ok_iff.mp ht).2]

theorem build {step : Build α} {Q : α → Draft → Prop}
    (h : ∀ d a d', P d → step d = .ok a d' → Q a d') : Attends P (.unmarked (Pass.build step)) Q :=
  unmarked fun _ _ _ hs ht => h _ _ _ hs (Pass.build_eq_ok_iff.mp ht).1

/-- What a step has found out about the blocks of a construct may be used behind it. -/
theorem assume {x : Logged α} {Q : α → Draft → Prop} {fact : Prop} (h : fact → Attends P x Q) :
    Attends (fun d => P d ∧ fact) x Q :=
  fun s hs => h hs.2 s hs.1

theorem visit (mark : Mark) :
    Attends (Draft.Awaits ks) (MonadMark.mark mark (Pass.build mark.act))
      fun _ => Draft.Awaits ks := by
  intro s hs
  refine ⟨fun v hv => ?_, fun _ t ht => Mark.awaits hs (Pass.build_eq_ok_iff.mp ht).1⟩
  rw [List.mem_singleton.mp hv]
  exact ⟨ks, hs⟩

theorem statementHead : Attends (Draft.Awaits ks)
    (MonadMark.mark .statement (Pass.scan Scan.statementHead)) fun _ => Draft.Awaits ks := by
  have hmark : Attends (Draft.Awaits ks) _ _ := visit .statement
  have h := hmark.bind fun _ => scan Scan.statementHead
  exact h

theorem value {value : Pass Draft Operand} (h : Pass.Valued value) :
    Attends (Draft.Awaits ks) (.unmarked value) fun _ => Draft.Awaits ks := by
  refine unmarked fun s v t hs ht => ?_
  obtain ⟨known, hc, _⟩ := h s v t ht
  exact .emission hc hs

theorem plain {step : Pass Draft α} (h : Pass.Plain step) :
    Attends (Draft.Awaits ks) (.unmarked step) fun _ => Draft.Awaits ks :=
  unmarked fun s a t hs ht => .course (h s a t ht none) hs

theorem items {close : Char} {place : String} {item : Logged α}
    (h : Attends (Draft.Awaits ks) item fun _ => Draft.Awaits ks) (depth : Nat) :
    Attends (Draft.Awaits ks) (Pass.items close place item depth) fun _ => Draft.Awaits ks := by
  induction depth with
  | zero => exact throw _
  | succ depth ih =>
      refine bind h fun a => bind (scan (Scan.another close place)) fun another => ?_
      cases another with
      | true => exact bind ih fun _ => pure _
      | false => exact pure _

/-- A statement that attends to whatever waits around it. -/
def Body (body : Logged.Body) : Prop :=
  ∀ ks e, Attends (Draft.Awaits ks) (body e) fun _ => Draft.Awaits ks

variable {body : Logged.Body} (hb : Body body)

include hb

theorem labelled : Body (Pass.labelled body) := by
  refine fun ks e => bind (scan Scan.peekMark) fun next => ?_
  split
  · exact pure e
  · exact hb ks e

theorem elsePart : Body (Pass.elsePart body) := by
  refine fun ks e => bind (scan (Scan.keyword "else")) fun found => ?_
  cases found with
  | true => exact hb ks e
  | false => exact pure e

theorem ifElse {condition : Pass Draft Operand} (hc : Pass.Valued condition) :
    Body (Pass.ifElse condition body) := by
  refine fun ks e => bind (scan _) fun _ => bind (value hc) fun word => bind (scan _) fun _ => ?_
  refine bind (build fun _ _ _ hd hs => hd.fork hs) fun g => assume fun hg => ?_
  refine bind (hb _ e) fun e₁ => ?_
  refine bind (build fun _ _ _ hd hs => hd.fallInto hg.1 hs) fun _ => ?_
  refine bind (elsePart hb _ e₁) fun e₂ => ?_
  exact bind (build fun _ _ _ hd hs => hd.fallInto hg.2 hs) fun _ => pure e₂

theorem whileLoop {condition : Pass Draft Operand} (hc : Pass.Valued condition) :
    Body (Pass.whileLoop condition body) := by
  refine fun ks e => bind (build fun _ _ _ hd hs => hd.loop hs) fun g => assume fun hg => ?_
  refine bind (scan _) fun _ => bind (value hc) fun word => bind (scan _) fun _ => ?_
  refine bind (build fun _ _ _ hd hs => hd.test hg.1 hs) fun _ => bind (hb _ e) fun e₁ => ?_
  exact bind (build fun _ _ _ hd hs => hd.fallInto hg.2 hs) fun _ => pure e₁

theorem switch {value : Pass Draft Operand} (hv : Pass.Valued value) :
    Attends (Draft.Awaits ks) (Pass.switch value body) fun _ => Draft.Awaits ks := by
  refine bind (Attends.value hv) fun word => ?_
  refine bind (build fun _ _ _ hd hs => hd.select hs) fun g => assume fun hg => ?_
  exact bind (hb _ _) fun inner => build fun _ _ _ hd hs => hd.settle hg.1 hg.2 hs

theorem case : Body (Pass.case body) := by
  intro ks e
  cases e with
  | none => exact throw _
  | some enclosing =>
      refine bind (scan _) fun value => ?_
      split
      · exact throw _
      · exact bind (build fun _ _ _ hd hs => hd.caseBlock hs) fun block => labelled hb ks _

theorem label (name : String) : Body (Pass.label name body) :=
  fun ks e => bind (visit _) fun _ => labelled hb ks e

end Attends

/-- A statement and the statements of a block together, by induction on the bound. -/
theorem grammar_attends (depth : Nat) :
    Attends.Body (statementAt depth) ∧ Attends.Body (statements depth) := by
  induction depth with
  | zero => exact ⟨fun _ _ => .throw _, fun _ _ => .throw _⟩
  | succ depth ih =>
      obtain ⟨hstatement, hstatements⟩ := ih
      have hvalue : Pass.Valued (Pass.expressionAt depth fullLevel) :=
        Pass.expressionAt_emitting depth _ []
      constructor
      · refine fun ks e => .bind .statementHead fun head => ?_
        cases head with
        | compound => exact hstatements ks e
        | empty => exact .pure e
        | ifElse => exact .ifElse hstatement hvalue ks e
        | whileLoop => exact .whileLoop hstatement hvalue ks e
        | case => exact .case hstatement ks e
        | label name => exact .label hstatement name ks e
        | switch => exact .bind (.switch hstatement hvalue) fun _ => .pure e
        | goto =>
            have hgoto : Attends (Draft.Awaits ks) Pass.goto fun _ => Draft.Awaits ks :=
              .bind (.scan _) fun _ => .bind (.visit _) fun _ => .scan _
            exact .bind hgoto fun _ => .pure e
        | auto =>
            have hauto : Attends (Draft.Awaits ks) Pass.auto fun _ => Draft.Awaits ks :=
              .bind (.scan _) fun _ => .visit _
            exact .bind (.items hauto depth) fun _ => .pure e
        | extrn => exact .bind (.plain (Pass.items_plain Pass.extrn_plain depth)) fun _ => .pure e
        | ret => exact .bind (.plain (Pass.ret_plain hvalue)) fun _ => .pure e
        | expression => exact .bind (.value hvalue) fun _ => .bind (.scan _) fun _ => .pure e
      · refine fun ks e => .bind (.scan _) fun closed => ?_
        cases closed with
        | true => exact .pure e
        | false =>
            refine .bind (.scan _) fun ended => ?_
            cases ended with
            | true => exact .throw _
            | false => exact .bind (hstatement ks e) fun e₁ => hstatements ks e₁

end Logged

namespace Pass

theorem visits_awaits {s : Site Draft} (h : s.target.Awaits []) {v : Visit} (hv : v ∈ visits s) :
    ∃ ks, v.site.target.Awaits ks :=
  ((Logged.grammar_attends s.cursor.depth).1 [] none s h).1 v hv

theorem visits_valid {s : Site Draft} (h : s.target.Awaits []) :
    ∀ v ∈ visits s, v.site.target.Valid :=
  fun _ hv => (visits_awaits h hv).elim fun _ ha => ha.valid

theorem statement_awaits {s t : Site Draft} {u : Unit} (h : s.target.Awaits [])
    (hs : statement s = .ok u t) : t.target.Awaits [] := by
  obtain ⟨e, hc⟩ := statement_course hs
  exact .course hc h

end Pass
end BCompiler
