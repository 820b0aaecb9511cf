import BCompiler.Proofs.Definition

/-!
The control-flow graph of a compiled function.

While a function is drafted, an open block is the current one, the block of a label that is not
defined yet, or one that an enclosing construct still has to enter. Every branch leads to a block
that was made to be entered. When the draft ends, no construct is left and every label is defined,
so every block ends.
-/
namespace BCompiler

/-- Whether a block of that name is made to be branched to. The first block and the blocks that code
behind a jump goes to are not. -/
def enterable (name : String) : Bool :=
  match name.toList with
  | [] => false
  | c :: _ => c != 'e' && c != 'd' && c != 'u'

theorem enterable_append {a : String} (b : String) (h : enterable a) : enterable (a ++ b) := by
  unfold enterable at h ⊢
  rw [String.toList_append]
  cases ha : a.toList with
  | nil => simp [ha] at h
  | cons c cs => simpa [ha] using h

/-- The block may be branched to. -/
def Function.Enterable (f : Function) (k : BlockId) : Prop :=
  ∃ name, f.blockNames[k]? = some name ∧ enterable name

theorem Function.Enterable.mono {f g : Function} {k : BlockId}
    (h : f.blockNames <+: g.blockNames) (hk : f.Enterable k) : g.Enterable k := by
  obtain ⟨name, hname, he⟩ := hk
  obtain ⟨rest, hrest⟩ := h
  refine ⟨name, ?_, he⟩
  rw [← hrest, List.getElem?_append_left (List.getElem?_eq_some_iff.mp hname).1, hname]

theorem Function.Enterable.lt {f : Function} {k : BlockId} (hk : f.Enterable k) :
    k < f.blocks.length := by
  obtain ⟨name, hname, _⟩ := hk
  simpa using (List.getElem?_eq_some_iff.mp hname).1

namespace Draft

/-- The graph of a draft, where the blocks in `pending` are still to be entered. -/
structure Graph (pending : List BlockId) (d : Draft) : Prop where
  valid : d.Valid
  targets : ∀ i t, d.function.terminator? i = some t → ∀ k ∈ t.successors, d.function.Enterable k
  labels : ∀ label ∈ d.labels, d.function.Enterable label.block
  distinct : ∀ a ∈ d.labels, ∀ b ∈ d.labels, a.name = b.name → a = b
  settled : ∀ i, d.Open i →
    i = d.current ∨ i ∈ pending ∨ ∃ label ∈ d.labels, label.block = i ∧ label.defined = false

namespace Graph

variable {pending : List BlockId} {d d' : Draft}

theorem weaken {more : List BlockId} (h : d.Graph pending) (hsub : pending ⊆ more) :
    d.Graph more := by
  refine { h with settled := fun i hi => ?_ }
  rcases h.settled i hi with hc | hp | hl
  · exact .inl hc
  · exact .inr (.inl (hsub hp))
  · exact .inr (.inr hl)

/-- The graph is a matter of the terminators and names of the blocks, the current block and the
labels. -/
theorem congr (h : d.Graph pending)
    (hterm : ∀ i, d'.function.terminator? i = d.function.terminator? i)
    (hnames : d'.function.blockNames = d.function.blockNames) (hcurrent : d'.current = d.current)
    (hlabels : d'.labels = d.labels) : d'.Graph pending := by
  have hlen : d'.function.blocks.length = d.function.blocks.length := by
    rw [← Function.length_blockNames, hnames, Function.length_blockNames]
  have hent : ∀ k, d.function.Enterable k → d'.function.Enterable k :=
    fun k hk => hk.mono (hnames ▸ List.prefix_rfl)
  constructor
  · rw [Valid, hcurrent, hlen]
    exact h.valid
  · intro i t ht k hk
    exact hent k (h.targets i t (hterm i ▸ ht) k hk)
  · intro label hm
    exact hent _ (h.labels label (hlabels ▸ hm))
  · rw [hlabels]
    exact h.distinct
  · intro i hi
    rw [hcurrent, hlabels]
    exact h.settled i ⟨hlen ▸ hi.1, hterm i ▸ hi.2⟩

theorem append (h : d.Graph pending) (instr : Instr) : (d.append instr).Graph pending :=
  h.congr (d.terminator?_append instr) (d.blockNames_append instr) rfl rfl

theorem define (h : d.Graph pending) (operation : Operation) : (d.define operation).Graph pending :=
  h.congr (d.terminator?_define operation) (d.blockNames_define operation) rfl rfl

theorem withSlot (h : d.Graph pending) (name : String) (words : Option UInt64) :
    (d.withSlot name words).Graph pending :=
  h.congr (d.terminator?_withSlot name words) (d.blockNames_withSlot name words) rfl rfl

theorem withProgram (h : d.Graph pending) (p : Program) : ({ d with program := p }).Graph pending :=
  h.congr (fun _ => rfl) rfl rfl rfl

theorem nextNumber (h : d.Graph pending) : d.nextNumber.Graph pending :=
  h.congr (fun _ => rfl) rfl rfl rfl

theorem addBlock (h : d.Graph pending) (name : String) :
    (d.addBlock name).Graph (d.function.blocks.length :: pending) := by
  have hent : ∀ k, d.function.Enterable k → (d.addBlock name).function.Enterable k :=
    fun k hk => hk.mono (d.blockNames_addBlock name ▸ List.prefix_append _ _)
  have hlen : (d.addBlock name).function.blocks.length = d.function.blocks.length + 1 := by
    simp [Draft.addBlock]
  constructor
  · change d.current < _
    rw [hlen]
    exact Nat.lt_succ_of_lt h.valid
  · intro i t ht k hk
    rw [terminator?_addBlock] at ht
    exact hent k (h.targets i t ht k hk)
  · exact fun label hm => hent _ (h.labels label hm)
  · exact h.distinct
  · rintro i ⟨hlt, hnone⟩
    rw [terminator?_addBlock] at hnone
    rw [hlen] at hlt
    rcases Nat.lt_succ_iff_lt_or_eq.mp hlt with hlt | rfl
    · rcases h.settled i ⟨hlt, hnone⟩ with hc | hp | hl
      · exact .inl hc
      · exact .inr (.inl (.tail _ hp))
      · exact .inr (.inr hl)
    · exact .inr (.inl (.head _))

/-- End the current block. -/
theorem endedBy (h : d.Graph pending) {t : Terminator}
    (ht : ∀ k ∈ t.successors, d.function.Enterable k) : (d.endedBy t).Graph pending := by
  have hent : ∀ k, d.function.Enterable k → (d.endedBy t).function.Enterable k :=
    fun k hk => hk.mono (d.blockNames_endedBy t ▸ List.prefix_rfl)
  have hlen : (d.endedBy t).function.blocks.length = d.function.blocks.length := by
    rw [← Function.length_blockNames, blockNames_endedBy, Function.length_blockNames]
  constructor
  · rw [Valid, hlen]
    exact h.valid
  · intro i t' ht' k hk
    rw [terminator?_endedBy _ _ _ h.valid] at ht'
    split at ht'
    · cases ht'
      exact hent k (ht k hk)
    · exact hent k (h.targets i t' ht' k hk)
  · exact fun label hm => hent _ (h.labels label hm)
  · exact h.distinct
  · rintro i ⟨hlt, hnone⟩
    rw [terminator?_endedBy _ _ _ h.valid] at hnone
    split at hnone
    · cases hnone
    · exact h.settled i ⟨hlen ▸ hlt, hnone⟩

theorem not_isOpen_endedBy (h : d.Valid) (t : Terminator) : (d.endedBy t).isOpen = false := by
  rw [Bool.eq_false_iff]
  intro ho
  have hnone : (d.endedBy t).function.terminator? d.current = none :=
    ((isOpen_iff_open _).mp ho).2
  rw [terminator?_endedBy _ _ _ h, if_pos rfl] at hnone
  cases hnone

/-- Go on in another block once the current one has ended. -/
theorem goTo {next : BlockId} (h : d.Graph (next :: pending)) (hclosed : d.isOpen = false)
    (hnext : next < d.function.blocks.length) : (d.goTo next).Graph pending := by
  refine ⟨hnext, h.targets, h.labels, h.distinct, fun i hi => ?_⟩
  rcases h.settled i hi with rfl | hp | hl
  · exact absurd ((isOpen_iff_open d).mpr hi) (by rw [hclosed]; nofun)
  · rcases List.mem_cons.mp hp with rfl | hp
    · exact .inl rfl
    · exact .inr (.inl hp)
  · exact .inr (.inr hl)

/-- Go on in a new block that no branch leads to. -/
theorem inNewBlock (h : d.Graph pending) (hclosed : d.isOpen = false) (name : String) :
    ((d.nextNumber.addBlock name).goTo d.function.blocks.length).Graph pending := by
  refine goTo (h.nextNumber.addBlock name) ?_ ?_
  · rw [Bool.eq_false_iff] at hclosed ⊢
    intro ho
    obtain ⟨_, hnone⟩ := (isOpen_iff_open _).mp ho
    rw [terminator?_addBlock] at hnone
    exact hclosed ((isOpen_iff_open d).mpr ⟨h.valid, hnone⟩)
  · simp [Draft.addBlock, Draft.nextNumber]

theorem opened (h : d.Graph pending) : d.opened.Graph pending := by
  unfold Draft.opened
  split
  · exact h
  · next hclosed => exact h.inNewBlock (Bool.not_eq_true _ ▸ hclosed) _

/-- End the current block and go on in another. -/
theorem endedBy_goTo {t : Terminator} {next : BlockId} (h : d.Graph (next :: pending))
    (ht : ∀ k ∈ t.successors, d.function.Enterable k) (hnext : next < d.function.blocks.length) :
    ((d.endedBy t).goTo next).Graph pending := by
  refine (h.endedBy ht).goTo (not_isOpen_endedBy h.valid t) ?_
  rwa [← Function.length_blockNames, blockNames_endedBy, Function.length_blockNames]

theorem endedIfOpen {t : Terminator} (h : d.Graph pending)
    (ht : ∀ k ∈ t.successors, d.function.Enterable k) :
    (d.endedIfOpen t).Graph pending ∧ (d.endedIfOpen t).isOpen = false := by
  unfold Draft.endedIfOpen
  split
  · exact ⟨h.endedBy ht, not_isOpen_endedBy h.valid t⟩
  · next hclosed => exact ⟨h, Bool.not_eq_true _ ▸ hclosed⟩

theorem fallenInto {target next : BlockId} (h : d.Graph (next :: pending))
    (ht : d.function.Enterable target) (hnext : d.function.Enterable next) :
    (d.fallenInto target next).Graph pending := by
  obtain ⟨hended, hclosed⟩ := h.endedIfOpen (t := .branch target)
    fun k hk => List.mem_singleton.mp hk ▸ ht
  exact hended.goTo hclosed (hnext.mono (Continues.carried.fallenInto d target next).blocks).lt

theorem addGroup (h : d.Graph pending) (construct first second last : String) :
    (d.addGroup construct first second last).Graph
      (d.group.first :: d.group.second :: d.group.last :: pending) := by
  refine (((h.nextNumber.addBlock _).addBlock _).addBlock _).weaken ?_
  intro i hi
  simp only [Draft.addBlock, Draft.nextNumber, Function.blocks_addBlock, List.length_append,
    List.length_singleton, List.mem_cons] at hi
  rcases hi with rfl | rfl | rfl | hi
  · exact .tail _ (.tail _ (.head _))
  · exact .tail _ (.head _)
  · exact .head _
  · exact .tail _ (.tail _ (.tail _ hi))

end Graph

theorem enterable_addBlock {name : String} (d : Draft) (h : enterable name) :
    (d.addBlock name).function.Enterable d.function.blocks.length := by
  refine ⟨name, ?_, h⟩
  rw [blockNames_addBlock, List.getElem?_append_right (by simp)]
  simp

/-- The blocks of a construct may be branched to. -/
theorem enterable_group (d : Draft) {construct : String} (h : enterable construct)
    (first second last : String) :
    let f := (d.addGroup construct first second last).function
    f.Enterable d.group.first ∧ f.Enterable d.group.second ∧ f.Enterable d.group.last := by
  have hname : ∀ part, enterable (construct ++ "." ++ toString d.nextGroup ++ "." ++ part) :=
    fun part => enterable_append _ (enterable_append _ (enterable_append _ (enterable_append _ h)))
  have hblocks : (d.addGroup construct first second last).function.blockNames =
      d.function.blockNames ++ [construct ++ "." ++ toString d.nextGroup ++ "." ++ first,
        construct ++ "." ++ toString d.nextGroup ++ "." ++ second,
        construct ++ "." ++ toString d.nextGroup ++ "." ++ last] := by
    simp [addGroup, nextNumber]
  refine ⟨⟨_, ?_, hname first⟩, ⟨_, ?_, hname second⟩, ⟨_, ?_, hname last⟩⟩
  all_goals
    rw [hblocks, List.getElem?_append_right (by simp [group])]
    simp [group]

end Draft

namespace Draft.Graph

variable {pending : List BlockId} {d d' : Draft}

theorem emit {operation : Operation} {v : Operand} (h : d.Graph pending)
    (hs : Build.emit operation d = .ok v d') : d'.Graph pending := by
  obtain ⟨_, _, rfl⟩ := Build.emit_eq_ok_iff.mp hs
  exact h.opened.define _

theorem store {value address : Operand} {u : Unit} (h : d.Graph pending)
    (hs : Build.store value address d = .ok u d') : d'.Graph pending := by
  obtain ⟨_, rfl⟩ := Build.store_eq_ok_iff.mp hs
  exact h.opened.append _

theorem branched_goTo {word : Operand} {t e next : BlockId} (h : d.Graph (next :: pending))
    (ht : d.function.Enterable t) (he : d.function.Enterable e)
    (hnext : d.function.Enterable next) : ((d.branched word t e).goTo next).Graph pending := by
  have hc := (Continues.carried.opened d).trans (.define _ (.compare .ne word (.const 0)))
  refine (h.opened.define _).endedBy_goTo ?_ (hnext.mono hc.blocks).lt
  intro k hk
  rcases List.mem_cons.mp hk with rfl | hk
  · exact ht.mono hc.blocks
  · exact List.mem_singleton.mp hk ▸ he.mono hc.blocks

theorem fork {construct : String} {word : Operand} {g : BlockGroup} (h : d.Graph pending)
    (hc : enterable construct) (hs : Build.fork construct word d = .ok g d') :
    d'.Graph (g.second :: g.last :: pending) ∧ d'.function.Enterable g.second ∧
      d'.function.Enterable g.last := by
  obtain ⟨_, rfl, rfl⟩ := Build.fork_eq_ok_iff.mp hs
  obtain ⟨hfirst, hsecond, hlast⟩ := d.enterable_group hc "then" "else" "end"
  have hbranched := Continues.carried.branched (d.addGroup construct "then" "else" "end") word
    d.group.first d.group.second
  have hmono := (hbranched.trans (.goTo _ d.group.first)).blocks
  exact ⟨(h.addGroup _ _ _ _).branched_goTo hfirst hsecond hfirst, hsecond.mono hmono,
    hlast.mono hmono⟩

theorem leave_goTo {last exit next : BlockId} (h : d.Graph (next :: pending))
    (hlast : d.function.Enterable last) (hnext : d.function.Enterable next)
    (hs : Build.leave last d = .ok exit d') : (d'.goTo next).Graph pending := by
  obtain ⟨_, _, rfl⟩ := Build.leave_eq_ok_iff.mp hs
  have hc := (Continues.carried.opened d).blocks
  exact h.opened.endedBy_goTo (fun k hk => List.mem_singleton.mp hk ▸ hlast.mono hc)
    (hnext.mono hc).lt

theorem join {last exit : BlockId} {thenValue elseValue v : Operand} (h : d.Graph (last :: pending))
    (hlast : d.function.Enterable last)
    (hs : Build.join last thenValue exit elseValue d = .ok v d') : d'.Graph pending := by
  obtain ⟨elseExit, d₁, hl, hs⟩ := bind_eq_ok_iff.mp hs
  obtain ⟨_, d₂, hgo, hs⟩ := bind_eq_ok_iff.mp hs
  cases Build.switchTo_eq_ok_iff.mp hgo
  exact (h.leave_goTo hlast hlast hl).emit hs

/-- The code of an expression leaves no block behind. -/
theorem emission {known known' : List Typed} (hc : Emission d known d' known') :
    ∀ {pending}, d.Graph pending → d'.Graph pending := by
  induction hc with
  | refl | const | symbol | slot => exact fun h => h
  | trans _ _ ih₁ ih₂ => exact fun h => ih₂ (ih₁ h)
  | emit _ _ hs => exact fun h => h.emit hs
  | store _ _ hs => exact fun h => h.store hs
  | string | declare => exact fun h => h.withProgram _
  | conditional _ hf hthen _ hl helse _ hj ih₁ ih₂ =>
      intro pending h
      obtain ⟨h₁, hsecond, hlast⟩ := h.fork (by decide) hf
      have hc₂ := (Continues.carried.emission hthen).blocks
      have hc₃ := (Continues.carried.leave hl).blocks
      have hc₄ := (Continues.carried.emission helse).blocks
      have h₃ := (ih₁ h₁).leave_goTo (hlast.mono hc₂) (hsecond.mono hc₂) hl
      exact (ih₂ h₃).join (((hlast.mono hc₂).mono hc₃).mono hc₄) hj

theorem fallInto {target next : BlockId} {u : Unit} (h : d.Graph (next :: pending))
    (ht : d.function.Enterable target) (hnext : d.function.Enterable next)
    (hs : Build.fallInto target next d = .ok u d') : d'.Graph pending := by
  obtain ⟨_, rfl⟩ := Build.fallInto_eq_ok_iff.mp hs
  exact h.fallenInto ht hnext

/-- The block of a label waits for the definition of the label. -/
theorem withLabel {name : String} (h : d.Graph pending)
    (hnew : d.labels.find? (fun label => label.name == name) = none) :
    (d.withLabel name).Graph pending := by
  have hadd := h.addBlock ("label." ++ name)
  have hnone : ∀ label ∈ d.labels, label.name ≠ name := by
    intro label hm he
    exact List.find?_eq_none.mp hnew label hm (beq_iff_eq.mpr he)
  refine ⟨hadd.valid, hadd.targets, ?_, ?_, ?_⟩
  · intro label hm
    rcases List.mem_append.mp hm with hm | hm
    · exact hadd.labels label hm
    · cases List.mem_singleton.mp hm
      exact d.enterable_addBlock (enterable_append _ (by decide))
  · intro a ha b hb hname
    rcases List.mem_append.mp ha with ha | ha <;> rcases List.mem_append.mp hb with hb | hb
    · exact h.distinct a ha b hb hname
    · cases List.mem_singleton.mp hb
      exact absurd hname (hnone a ha)
    · cases List.mem_singleton.mp ha
      exact absurd hname.symm (hnone b hb)
    · rw [List.mem_singleton.mp ha, List.mem_singleton.mp hb]
  · intro i hi
    rcases hadd.settled i hi with hc | hp | ⟨label, hm, hl⟩
    · exact .inl hc
    · rcases List.mem_cons.mp hp with rfl | hp
      · exact .inr (.inr ⟨_, List.mem_append_right _ (.head _), rfl, rfl⟩)
      · exact .inr (.inl hp)
    · exact .inr (.inr ⟨label, List.mem_append_left _ hm, hl⟩)

theorem mentioning (h : d.Graph pending) (name : String) : (d.mentioning name).Graph pending := by
  unfold Draft.mentioning
  split
  · exact h
  · next hnew => exact h.withLabel hnew

/-- Once a label is defined, its block has to be entered. -/
theorem labelDefined (h : d.Graph pending) {label : Label} (hm : label ∈ d.labels) :
    (d.labelDefined label.name).Graph (label.block :: pending) := by
  have hback : ∀ l ∈ (d.labelDefined label.name).labels, ∃ l' ∈ d.labels,
      l = l'.define label.name ∧ l.name = l'.name ∧ l.block = l'.block := by
    intro l hl
    obtain ⟨l', hl', rfl⟩ := List.mem_map.mp hl
    refine ⟨l', hl', rfl, ?_, ?_⟩ <;> (unfold Label.define; split <;> rfl)
  refine ⟨h.valid, h.targets, ?_, ?_, ?_⟩
  · intro l hl
    obtain ⟨l', hl', _, _, hblock⟩ := hback l hl
    exact hblock ▸ h.labels l' hl'
  · intro a ha b hb hname
    obtain ⟨a', ha', ha, hna, _⟩ := hback a ha
    obtain ⟨b', hb', hb, hnb, _⟩ := hback b hb
    rw [ha, hb, h.distinct a' ha' b' hb' (hna ▸ hnb ▸ hname)]
  · intro i hi
    rcases h.settled i hi with hc | hp | ⟨l, hl, hblock, hundef⟩
    · exact .inl hc
    · exact .inr (.inl (.tail _ hp))
    · by_cases hname : l.name = label.name
      · cases h.distinct l hl label hm hname
        exact .inr (.inl (hblock ▸ .head _))
      · refine .inr (.inr ⟨l.define label.name, List.mem_map_of_mem hl, ?_⟩)
        rw [Label.define, if_neg (by simpa using hname)]
        exact ⟨hblock, hundef⟩

theorem goto {name : String} {u : Unit} (h : d.Graph pending)
    (hs : Build.goto name d = .ok u d') : d'.Graph pending := by
  obtain ⟨_, rfl⟩ := Build.goto_eq_ok_iff.mp hs
  obtain ⟨label, hm, _, hblock⟩ := labelTarget_mentioning d name
  have hmention := h.mentioning name
  have htarget := hblock ▸ hmention.labels label hm
  obtain ⟨hended, hclosed⟩ := hmention.endedIfOpen (t := .branch (d.labelTarget name))
    fun k hk => List.mem_singleton.mp hk ▸ htarget
  exact hended.inNewBlock hclosed _

theorem placeLabel {name : String} {u : Unit} (h : d.Graph pending)
    (hs : Build.placeLabel name d = .ok u d') : d'.Graph pending := by
  obtain ⟨_, _, rfl⟩ := Build.placeLabel_eq_ok_iff.mp hs
  obtain ⟨label, hm, rfl, hblock⟩ := labelTarget_mentioning d name
  have hmention := h.mentioning label.name
  have htarget := hmention.labels label hm
  rw [← hblock]
  exact (hmention.labelDefined hm).fallenInto htarget htarget

theorem caseBlock {number : Nat} {value : Word} {block : BlockId} (h : d.Graph pending)
    (hs : Build.caseBlock number value d = .ok block d') :
    d'.Graph pending ∧ d'.function.Enterable block := by
  obtain ⟨_, rfl, rfl⟩ := Build.caseBlock_eq_ok_iff.mp hs
  have hname : enterable ("case." ++ toString number ++ "." ++ value.decimal) :=
    enterable_append _ (enterable_append _ (enterable_append _ (by decide)))
  have htarget := d.enterable_addBlock hname
  exact ⟨(h.addBlock _).fallenInto htarget htarget,
    htarget.mono (Continues.carried.fallenInto _ _ _).blocks⟩

theorem loop {g : BlockGroup} (h : d.Graph pending) (hs : Build.loop d = .ok g d') :
    d'.Graph (g.second :: g.last :: pending) ∧ d'.function.Enterable g.first ∧
      d'.function.Enterable g.second ∧ d'.function.Enterable g.last := by
  obtain ⟨_, rfl, rfl⟩ := Build.loop_eq_ok_iff.mp hs
  have hname : enterable "while" := by decide
  obtain ⟨hfirst, hsecond, hlast⟩ := d.enterable_group hname "cond" "body" "end"
  have hmono := (Continues.carried.fallenInto (d.addGroup "while" "cond" "body" "end") d.group.first
    d.group.first).blocks
  exact ⟨(h.addGroup _ _ _ _).fallenInto hfirst hfirst, hfirst.mono hmono, hsecond.mono hmono,
    hlast.mono hmono⟩

theorem test {word : Operand} {g : BlockGroup} {u : Unit}
    (h : d.Graph (g.second :: pending)) (hsecond : d.function.Enterable g.second)
    (hlast : d.function.Enterable g.last) (hs : Build.test word g d = .ok u d') :
    d'.Graph pending := by
  obtain ⟨_, rfl⟩ := Build.test_eq_ok_iff.mp hs
  exact h.branched_goTo hsecond hlast hsecond

theorem select {g : BlockGroup} (h : d.Graph pending) (hs : Build.select d = .ok g d') :
    d'.Graph (g.second :: g.last :: pending) ∧ d'.function.Enterable g.second ∧
      d'.function.Enterable g.last := by
  obtain ⟨_, rfl, rfl⟩ := Build.select_eq_ok_iff.mp hs
  have hname : enterable "switch" := by decide
  obtain ⟨hfirst, hsecond, hlast⟩ := d.enterable_group hname "stmts" "cmp" "end"
  have hmono := (Continues.carried.fallenInto (d.addGroup "switch" "stmts" "cmp" "end")
    d.group.second d.group.first).blocks
  exact ⟨(h.addGroup _ _ _ _).fallenInto hsecond hfirst, hsecond.mono hmono, hlast.mono hmono⟩

theorem settle {value : Operand} {cases : List (Word × BlockId)} {g : BlockGroup} {u : Unit}
    (h : d.Graph (g.second :: g.last :: pending)) (hsecond : d.function.Enterable g.second)
    (hlast : d.function.Enterable g.last) (hcases : ∀ arm ∈ cases, d.function.Enterable arm.2)
    (hs : Build.settle value cases g d = .ok u d') : d'.Graph pending := by
  obtain ⟨_, _, rfl⟩ := Build.settle_eq_ok_iff.mp hs
  have hfallen := Continues.carried.fallenInto d g.last g.second
  have hmono := (hfallen.trans (Continues.carried.opened _)).blocks
  refine (h.fallenInto hlast hsecond).opened.endedBy_goTo ?_ (hlast.mono hmono).lt
  intro k hk
  unfold Terminator.dispatch at hk
  split at hk
  · rw [List.mem_singleton.mp hk]
    exact hlast.mono hmono
  · rcases List.mem_cons.mp hk with rfl | hk
    · exact hlast.mono hmono
    · obtain ⟨arm, harm, rfl⟩ := List.mem_map.mp hk
      exact (hcases arm harm).mono hmono

end Draft.Graph

/-- The cases of a switch may be branched to. -/
def Function.Arms (f : Function) (e : Option Switch) : Prop :=
  ∀ arm ∈ (e.map Switch.cases).getD [], f.Enterable arm.2

theorem Function.Arms.mono {f g : Function} {e : Option Switch}
    (h : f.blockNames <+: g.blockNames) (he : f.Arms e) : g.Arms e :=
  fun arm harm => (he arm harm).mono h

namespace Draft.Graph

variable {d d' : Draft}

/-- Statements leave no block behind either. -/
theorem course {e e' : Option Switch} (hc : Course d e d' e') :
    ∀ {pending}, d.Graph pending → d.function.Arms e → d'.Graph pending ∧ d'.function.Arms e' := by
  induction hc with
  | refl => exact fun h he => ⟨h, he⟩
  | trans _ _ ih₁ ih₂ => exact fun h he => ih₂ (ih₁ h he).1 (ih₁ h he).2
  | code hc => exact fun h he => ⟨emission hc h, he.mono (Continues.carried.emission hc).blocks⟩
  | slot hs =>
      intro pending h he
      have hmono := (Continues.carried.course (.slot (e := none) hs)).blocks
      obtain ⟨_, _, _, rfl⟩ := Build.slot_eq_ok_iff.mp hs
      exact ⟨h.withSlot _ _, he.mono hmono⟩
  | external hs =>
      intro pending h he
      obtain ⟨p, _, rfl⟩ := Build.onProgram_eq_ok_iff.mp hs
      exact ⟨h.withProgram p, he⟩
  | ret hc _ hs =>
      intro pending h he
      have hmono := ((Continues.carried.emission hc).trans (Continues.carried.ret hs)).blocks
      obtain ⟨_, rfl⟩ := Build.terminate_eq_ok_iff.mp hs
      exact ⟨(emission hc h).opened.endedBy nofun, he.mono hmono⟩
  | goto hs =>
      intro pending h he
      exact ⟨h.goto hs, he.mono (Continues.carried.course (.goto (e := none) hs)).blocks⟩
  | label hs =>
      intro pending h he
      exact ⟨h.placeLabel hs, he.mono (Continues.carried.course (.label (e := none) hs)).blocks⟩
  | case hnew hs =>
      intro pending h he
      obtain ⟨hgraph, hblock⟩ := h.caseBlock hs
      have hmono := (Continues.carried.course (.case hnew hs)).blocks
      refine ⟨hgraph, fun arm harm => ?_⟩
      rcases List.mem_append.mp harm with harm | harm
      · exact (he arm harm).mono hmono
      · exact List.mem_singleton.mp harm ▸ hblock
  | ifElse hc _ hf hthen hfall helse henter ih₁ ih₂ =>
      intro pending h he
      obtain ⟨h₂, hsecond, hlast⟩ := (emission hc h).fork (by decide) hf
      have hc₂ := ((Continues.carried.emission hc).trans (Continues.carried.fork hf)).blocks
      have hc₃ := (Continues.carried.course hthen).blocks
      have hc₄ := (Continues.carried.fallInto hfall).blocks
      have hc₅ := (Continues.carried.course helse).blocks
      obtain ⟨h₃, he₃⟩ := ih₁ h₂ (he.mono hc₂)
      have h₄ := h₃.fallInto (hlast.mono hc₃) (hsecond.mono hc₃) hfall
      obtain ⟨h₅, he₅⟩ := ih₂ h₄ (he₃.mono hc₄)
      have hlast₅ := ((hlast.mono hc₃).mono hc₄).mono hc₅
      exact ⟨h₅.fallInto hlast₅ hlast₅ henter, he₅.mono (Continues.carried.fallInto henter).blocks⟩
  | whileLoop hl hc _ ht hbody hfall ih =>
      intro pending h he
      obtain ⟨h₁, hfirst, hsecond, hlast⟩ := h.loop hl
      have hc₁ := (Continues.carried.loop hl).blocks
      have hc₂ := (Continues.carried.emission hc).blocks
      have hc₃ := (Continues.carried.test ht).blocks
      have hc₄ := (Continues.carried.course hbody).blocks
      have h₃ := (emission hc h₁).test (hsecond.mono hc₂) (hlast.mono hc₂) ht
      obtain ⟨h₄, he₄⟩ := ih h₃ (((he.mono hc₁).mono hc₂).mono hc₃)
      have hfirst₄ := ((hfirst.mono hc₂).mono hc₃).mono hc₄
      have hlast₄ := ((hlast.mono hc₂).mono hc₃).mono hc₄
      exact ⟨h₄.fallInto hfirst₄ hlast₄ hfall, he₄.mono (Continues.carried.fallInto hfall).blocks⟩
  | switch hc hk hs hbody hd ih =>
      intro pending h he
      have hmono := (Continues.carried.course (.switch (e := none) hc hk hs hbody hd)).blocks
      obtain ⟨h₂, hsecond, hlast⟩ := (emission hc h).select hs
      obtain ⟨h₃, he₃⟩ := ih h₂ nofun
      have hc₃ := (Continues.carried.course hbody).blocks
      exact ⟨h₃.settle (hsecond.mono hc₃) (hlast.mono hc₃) he₃ hd, he.mono hmono⟩

theorem spill {params : List String} {u : Unit} {pending : List BlockId} (h : d.Graph pending)
    (hs : Build.spill params d = .ok u d') : d'.Graph pending := by
  refine Build.spill_induction (fun h hslot hstore => ?_) h hs
  obtain ⟨_, _, _, rfl⟩ := Build.slot_eq_ok_iff.mp hslot
  exact (h.withSlot _ _).store hstore

theorem ofFunction (p : Program) (id : FunctionId) (name : String) (params : List String) :
    (Draft.ofFunction p id (.entered name params)).Graph [] := by
  refine ⟨Nat.zero_lt_one, ?_, nofun, nofun, ?_⟩
  · intro i t ht
    cases i <;> cases ht
  · intro i hi
    exact .inl (Nat.lt_one_iff.mp hi.1)

/-- At the end of a draft every block has ended. -/
theorem finish {id : FunctionId} (h : d.Graph []) (hs : Build.finish d = .ok id d') :
    d'.Graph [] ∧ ∀ i, ¬d'.Open i := by
  obtain ⟨hdefined, _, _, rfl⟩ := Build.finish_eq_ok_iff.mp hs
  obtain ⟨hended, hclosed⟩ := h.endedIfOpen (t := .ret (.const 0)) nofun
  refine ⟨hended, fun i hi => ?_⟩
  have hlabels : (d.endedIfOpen (.ret (.const 0))).labels = d.labels := by
    unfold Draft.endedIfOpen
    split <;> rfl
  rcases hended.settled i hi with rfl | hp | ⟨label, hm, _, hundef⟩
  · rw [(isOpen_iff_open _).mpr hi] at hclosed
    cases hclosed
  · cases hp
  · rw [hdefined label (hlabels ▸ hm)] at hundef
    cases hundef

/-- The draft of a whole function. -/
theorem functionBody {name : String} {params : List String} {p : Program} {c : Cursor}
    {t : Site Draft} {u : Unit} (hstart : Draft.start name params p = .ok d)
    (hbody : Pass.functionBody ⟨c, d⟩ = .ok u t) :
    t.target.Graph [] ∧ (∀ i, ¬t.target.Open i) ∧
      t.target.function.blockNames[0]? = some "entry" := by
  obtain ⟨id, m, _, _, hspill⟩ := Draft.start_eq_ok hstart
  obtain ⟨_, r, hs, hb⟩ := bind_eq_ok_iff.mp hbody
  obtain ⟨_, r', hf, hb⟩ := bind_eq_ok_iff.mp hb
  obtain ⟨_, rfl⟩ := pure_eq_ok_iff.mp hb
  obtain ⟨e, hcourse⟩ := Pass.statement_course hs
  have hfirst := (ofFunction _ id name params).spill hspill
  have hlast := (course hcourse hfirst nofun).1
  obtain ⟨hgraph, hclosed⟩ := hlast.finish (Pass.build_eq_ok_iff.mp hf).1
  have hcontinues := (Continues.carried.spill hspill).trans (Pass.functionBody_continues hbody)
  obtain ⟨rest, hrest⟩ := hcontinues.blocks
  refine ⟨hgraph, hclosed, ?_⟩
  rw [← hrest]
  rfl

end Draft.Graph

theorem not_enterable_append {a : String} (b : String) (h : enterable a = false) (ha : a ≠ "") :
    enterable (a ++ b) = false := by
  unfold enterable at h ⊢
  rw [String.toList_append]
  cases hl : a.toList with
  | nil => exact absurd (String.toList_eq_nil_iff.mp hl) ha
  | cons c cs => simpa [hl] using h

/-- A control-flow graph by which a function can run: every block ends, and every branch leads to a
block of the function that is neither the first one nor one for code that cannot be reached. -/
structure Function.WellFormed (f : Function) : Prop where
  entry : f.blockNames.head? = some "entry"
  ends : ∀ b ∈ f.blocks, b.terminator.isSome
  targets : ∀ b ∈ f.blocks, ∀ t, b.terminator = some t → ∀ k ∈ t.successors, k ≠ 0 ∧
    ∃ target, f.blocks[k]? = some target ∧
      ∀ n : Nat, target.name ≠ "dead." ++ toString n ∧ target.name ≠ "unreachable." ++ toString n

theorem Function.wellFormed_of_body : OfBodies Function.WellFormed := by
  intro name params p draft c t u hstart hbody
  obtain ⟨hgraph, hclosed, hentry⟩ := Draft.Graph.functionBody hstart hbody
  refine ⟨List.head?_eq_getElem? ▸ hentry, ?_, ?_⟩
  · intro b hb
    obtain ⟨i, hi⟩ := List.getElem?_of_mem hb
    rw [Option.isSome_iff_ne_none]
    intro hnone
    exact hclosed i ((Draft.open_iff _).mpr ⟨b, hi, hnone⟩)
  · intro b hb term hterm k hk
    obtain ⟨i, hi⟩ := List.getElem?_of_mem hb
    have hended : t.target.function.terminator? i = some term := by
      rw [terminator?, hi]
      exact hterm
    obtain ⟨kname, hname, hent⟩ := hgraph.targets i term hended k hk
    rw [blockNames, List.getElem?_map, Option.map_eq_some_iff] at hname
    obtain ⟨target, htarget, rfl⟩ := hname
    refine ⟨?_, target, htarget, fun n => ⟨?_, ?_⟩⟩
    · rintro rfl
      rw [blockNames, List.getElem?_map, htarget] at hentry
      rw [Option.some.inj hentry] at hent
      exact absurd hent (by decide)
    · intro he
      rw [he, not_enterable_append _ (by decide) (by decide)] at hent
      cases hent
    · intro he
      rw [he, not_enterable_append _ (by decide) (by decide)] at hent
      cases hent

/-- Every function that an accepted source defines has a well-formed control-flow graph, whatever
the session held before. -/
theorem Session.wellFormed_of_compile {path text : String} {s s' : Session} {u : Unit}
    (h : compile path text s = .ok u s') :
    ∀ name ∈ s.definedFunctions text, ∃ f, s'.module.function? name = some f ∧ f.WellFormed :=
  fun _ hn => function?_of_definedFunctions Function.wellFormed_of_body h hn

theorem Session.wellFormed_goto_into_loop :
    ∃ s', compile "f.b" "f(x) \x7b while (x) \x7b a: return; \x7d goto a; \x7d" (.new "b" 8) =
        .ok () s' ∧
      ∃ f, s'.module.function? "f" = some f ∧ f.WellFormed := by
  have haccepts : (new "b" 8).accepts "f.b"
      "f(x) \x7b while (x) \x7b a: return; \x7d goto a; \x7d" := by
    decide +kernel
  obtain ⟨s', hs⟩ := exists_of_accepts haccepts
  exact ⟨s', hs, wellFormed_of_compile hs "f" (by decide +kernel)⟩

end BCompiler
