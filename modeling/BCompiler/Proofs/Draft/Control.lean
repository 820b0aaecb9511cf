import BCompiler.Proofs.Draft.Code

/-!
What the build steps of control flow do to a draft.

Constructs add their blocks, end the current block and go on in another. Labels get a block when
they are first mentioned, and stack slots go to the first block whatever block is current.
-/
namespace BCompiler

theorem leastName_eq_none_iff {names : List String} : leastName names = none ↔ names = [] := by
  cases names with
  | nil => exact iff_of_true rfl rfl
  | cons name names =>
      unfold leastName
      cases leastName names <;> simp

theorem Label.name_define (name : String) (label : Label) :
    (label.define name).name = label.name := by
  unfold define
  split <;> rfl

theorem Label.block_define (name : String) (label : Label) :
    (label.define name).block = label.block := by
  unfold define
  split <;> rfl

/-- How a switch ends its dispatch. -/
def Terminator.dispatch (value : Operand) (cases : List (Word × BlockId)) (otherwise : BlockId) :
    Terminator :=
  if cases.isEmpty then .branch otherwise else .switch value otherwise cases

namespace Draft

/-- The draft with the three blocks of a construct. -/
def addGroup (construct first second last : String) (d : Draft) : Draft :=
  let group := construct ++ "." ++ toString d.nextGroup ++ "."
  ((d.nextNumber.addBlock (group ++ first)).addBlock (group ++ second)).addBlock (group ++ last)

/-- The three blocks that a construct adds to the draft. -/
def group (d : Draft) : BlockGroup :=
  let n := d.function.blocks.length
  ⟨d.nextGroup, n, n + 1, n + 2⟩

/-- The draft with a branch on a word at the end of the current block. -/
def branched (word : Operand) (thenBlock elseBlock : BlockId) (d : Draft) : Draft :=
  (d.opened.define (.compare .ne word (.const 0))).endedBy
    (.condBranch (.value d.function.nextValue) thenBlock elseBlock)

/-- The draft after falling into a block and going on in another. -/
def fallenInto (target next : BlockId) (d : Draft) : Draft :=
  (d.endedIfOpen (.branch target)).goTo next

/-- The draft that knows the label. -/
def withLabel (name : String) (d : Draft) : Draft :=
  { d.addBlock ("label." ++ name) with
    labels := d.labels ++ [⟨name, d.function.blocks.length, false⟩] }

/-- The block of a label. -/
def labelTarget (name : String) (d : Draft) : BlockId :=
  match d.labels.find? fun label => label.name == name with
  | some label => label.block
  | none => d.function.blocks.length

/-- The draft after a label was mentioned. -/
def mentioning (name : String) (d : Draft) : Draft :=
  match d.labels.find? fun label => label.name == name with
  | some _ => d
  | none => d.withLabel name

/-- The draft in which the label is defined. -/
def labelDefined (name : String) (d : Draft) : Draft :=
  { d with labels := d.labels.map (Label.define name) }

/-- The draft in a new block that no branch leads to. -/
def unreachable (d : Draft) : Draft :=
  (d.nextNumber.addBlock ("unreachable." ++ toString d.nextGroup)).goTo d.function.blocks.length

/-- A label that was mentioned has the block that the draft gives it. -/
theorem labelTarget_mentioning (d : Draft) (name : String) :
    ∃ label ∈ (d.mentioning name).labels, label.name = name ∧ label.block = d.labelTarget name := by
  unfold Draft.mentioning labelTarget
  split
  · next label hf =>
      exact ⟨label, List.mem_of_find?_eq_some hf, by simpa using List.find?_some hf, rfl⟩
  · exact ⟨_, List.mem_append_right _ (.head _), rfl, rfl⟩

end Draft

namespace Build

theorem newGroup_eq (construct first second last : String) (d : Draft) :
    newGroup construct first second last d =
      .ok d.group (d.addGroup construct first second last) := by
  unfold newGroup newBlock onFunction freshGroup
  simp only [bind, EStateM.bind, pure, EStateM.pure, Draft.group, Draft.addGroup, Draft.nextNumber,
    Draft.addBlock, Function.addBlock_fst, Function.blocks_addBlock, List.length_append]
  rfl

theorem switchTo_eq_ok_iff {block : BlockId} {d d' : Draft} {u : Unit} :
    switchTo block d = .ok u d' ↔ d' = d.goTo block := by
  change EStateM.Result.ok () (d.goTo block) = .ok u d' ↔ _
  simp [eq_comm]

theorem branchIfOpen_eq_ok_iff {target : BlockId} {d d' : Draft} {u : Unit} :
    branchIfOpen target d = .ok u d' ↔ d.Valid ∧ d' = d.endedIfOpen (.branch target) :=
  terminateIfOpen_eq_ok_iff

theorem condBranch_eq_ok_iff {word : Operand} {t e : BlockId} {d d' : Draft} {u : Unit} :
    condBranch word t e d = .ok u d' ↔ d.Valid ∧ d' = d.branched word t e := by
  unfold condBranch
  simp only [bind_eq_ok_iff, emit_eq_ok_iff, terminate_eq_ok_iff]
  have ho := Draft.isOpen_define d.isOpen_opened (.compare .ne word (.const 0))
  constructor
  · rintro ⟨_, _, ⟨hv, rfl, rfl⟩, _, rfl⟩
    exact ⟨hv, by rw [Draft.opened_of_isOpen ho]; rfl⟩
  · rintro ⟨hv, rfl⟩
    exact ⟨_, _, ⟨hv, rfl, rfl⟩, .of_isOpen ho, by rw [Draft.opened_of_isOpen ho]; rfl⟩

theorem fork_eq_ok_iff {construct : String} {word : Operand} {d d' : Draft} {g : BlockGroup} :
    fork construct word d = .ok g d' ↔
      (d.addGroup construct "then" "else" "end").Valid ∧ g = d.group ∧
        d' = ((d.addGroup construct "then" "else" "end").branched word g.first g.second).goTo
          g.first := by
  unfold fork
  simp only [bind_eq_ok_iff, newGroup_eq, condBranch_eq_ok_iff, switchTo_eq_ok_iff, pure_eq_ok_iff]
  constructor
  · rintro ⟨_, _, hg, _, _, ⟨hv, rfl⟩, _, _, rfl, rfl, rfl⟩
    cases hg
    exact ⟨hv, rfl, rfl⟩
  · rintro ⟨hv, rfl, rfl⟩
    exact ⟨_, _, rfl, (), _, ⟨hv, rfl⟩, (), _, rfl, rfl, rfl⟩

theorem leave_eq_ok_iff {last exit : BlockId} {d d' : Draft} :
    leave last d = .ok exit d' ↔
      d.Valid ∧ exit = d.current ∧ d' = d.opened.endedBy (.branch last) := by
  unfold leave branch
  simp only [bind_eq_ok_iff, currentBlock_eq_ok_iff, terminate_eq_ok_iff, pure_eq_ok_iff]
  constructor
  · rintro ⟨_, _, ⟨rfl, rfl⟩, _, _, ⟨hv, rfl⟩, rfl, rfl⟩
    exact ⟨hv, rfl, rfl⟩
  · rintro ⟨hv, rfl, rfl⟩
    exact ⟨_, _, ⟨rfl, rfl⟩, (), _, ⟨hv, rfl⟩, rfl, rfl⟩

theorem fallInto_eq_ok_iff {target next : BlockId} {d d' : Draft} {u : Unit} :
    fallInto target next d = .ok u d' ↔ d.Valid ∧ d' = d.fallenInto target next := by
  unfold fallInto
  simp only [bind_eq_ok_iff, branchIfOpen_eq_ok_iff, switchTo_eq_ok_iff]
  constructor
  · rintro ⟨_, _, ⟨hv, rfl⟩, rfl⟩
    exact ⟨hv, rfl⟩
  · rintro ⟨hv, rfl⟩
    exact ⟨(), _, ⟨hv, rfl⟩, rfl⟩

theorem enter_eq_ok_iff {block : BlockId} {d d' : Draft} {u : Unit} :
    enter block d = .ok u d' ↔ d.Valid ∧ d' = d.fallenInto block block := fallInto_eq_ok_iff

theorem loop_eq_ok_iff {d d' : Draft} {g : BlockGroup} :
    loop d = .ok g d' ↔
      (d.addGroup "while" "cond" "body" "end").Valid ∧ g = d.group ∧
        d' = (d.addGroup "while" "cond" "body" "end").fallenInto g.first g.first := by
  unfold loop
  simp only [bind_eq_ok_iff, newGroup_eq, enter_eq_ok_iff, pure_eq_ok_iff]
  constructor
  · rintro ⟨_, _, hg, _, _, ⟨hv, rfl⟩, rfl, rfl⟩
    cases hg
    exact ⟨hv, rfl, rfl⟩
  · rintro ⟨hv, rfl, rfl⟩
    exact ⟨_, _, rfl, (), _, ⟨hv, rfl⟩, rfl, rfl⟩

theorem test_eq_ok_iff {word : Operand} {g : BlockGroup} {d d' : Draft} {u : Unit} :
    test word g d = .ok u d' ↔
      d.Valid ∧ d' = (d.branched word g.second g.last).goTo g.second := by
  unfold test
  simp only [bind_eq_ok_iff, condBranch_eq_ok_iff, switchTo_eq_ok_iff]
  constructor
  · rintro ⟨_, _, ⟨hv, rfl⟩, rfl⟩
    exact ⟨hv, rfl⟩
  · rintro ⟨hv, rfl⟩
    exact ⟨(), _, ⟨hv, rfl⟩, rfl⟩

theorem select_eq_ok_iff {d d' : Draft} {g : BlockGroup} :
    select d = .ok g d' ↔
      (d.addGroup "switch" "stmts" "cmp" "end").Valid ∧ g = d.group ∧
        d' = (d.addGroup "switch" "stmts" "cmp" "end").fallenInto g.second g.first := by
  unfold select
  simp only [bind_eq_ok_iff, newGroup_eq, fallInto_eq_ok_iff, pure_eq_ok_iff]
  constructor
  · rintro ⟨_, _, hg, _, _, ⟨hv, rfl⟩, rfl, rfl⟩
    cases hg
    exact ⟨hv, rfl, rfl⟩
  · rintro ⟨hv, rfl, rfl⟩
    exact ⟨_, _, rfl, (), _, ⟨hv, rfl⟩, rfl, rfl⟩

theorem dispatch_eq_ok_iff {value : Operand} {cases : List (Word × BlockId)}
    {otherwise : BlockId} {d d' : Draft} {u : Unit} :
    dispatch value cases otherwise d = .ok u d' ↔
      d.Valid ∧ d' = d.opened.endedBy (.dispatch value cases otherwise) := by
  unfold dispatch Terminator.dispatch branch
  split <;> exact terminate_eq_ok_iff

theorem settle_eq_ok_iff {value : Operand} {cases : List (Word × BlockId)} {g : BlockGroup}
    {d d' : Draft} {u : Unit} :
    settle value cases g d = .ok u d' ↔
      d.Valid ∧ (d.fallenInto g.last g.second).Valid ∧
        d' = ((d.fallenInto g.last g.second).opened.endedBy (.dispatch value cases g.last)).goTo
          g.last := by
  unfold settle
  simp only [bind_eq_ok_iff, fallInto_eq_ok_iff, dispatch_eq_ok_iff, switchTo_eq_ok_iff]
  constructor
  · rintro ⟨_, _, ⟨hv, rfl⟩, _, _, ⟨hw, rfl⟩, rfl⟩
    exact ⟨hv, hw, rfl⟩
  · rintro ⟨hv, hw, rfl⟩
    exact ⟨(), _, ⟨hv, rfl⟩, (), _, ⟨hw, rfl⟩, rfl⟩

theorem newBlock_eq (name : String) (d : Draft) :
    newBlock name d = .ok d.function.blocks.length (d.addBlock name) := rfl

theorem caseBlock_eq_ok_iff {number : Nat} {value : Word} {block : BlockId} {d d' : Draft} :
    caseBlock number value d = .ok block d' ↔
      (d.addBlock ("case." ++ toString number ++ "." ++ value.decimal)).Valid ∧
        block = d.function.blocks.length ∧
        d' = (d.addBlock ("case." ++ toString number ++ "." ++ value.decimal)).fallenInto
          block block := by
  unfold caseBlock
  simp only [bind_eq_ok_iff, newBlock_eq, enter_eq_ok_iff, pure_eq_ok_iff]
  constructor
  · rintro ⟨_, _, hb, _, _, ⟨hv, rfl⟩, rfl, rfl⟩
    cases hb
    exact ⟨hv, rfl, rfl⟩
  · rintro ⟨hv, rfl, rfl⟩
    exact ⟨_, _, rfl, (), _, ⟨hv, rfl⟩, rfl, rfl⟩

theorem labelBlock_eq (name : String) (d : Draft) :
    labelBlock name d = .ok (d.labelTarget name) (d.mentioning name) := by
  unfold labelBlock Draft.labelTarget Draft.mentioning
  rw [get_bind]
  cases d.labels.find? fun label => label.name == name <;> rfl

theorem goto_eq_ok_iff {name : String} {d d' : Draft} {u : Unit} :
    goto name d = .ok u d' ↔
      (d.mentioning name).Valid ∧
        d' = ((d.mentioning name).endedIfOpen (.branch (d.labelTarget name))).unreachable := by
  unfold goto
  simp only [bind_eq_ok_iff, labelBlock_eq, branchIfOpen_eq_ok_iff, newBlock_eq,
    switchTo_eq_ok_iff]
  constructor
  · rintro ⟨_, _, hb, _, _, ⟨hv, rfl⟩, _, _, hn, _, _, hw, rfl⟩
    cases hb
    cases hn
    cases hw
    exact ⟨hv, rfl⟩
  · rintro ⟨hv, rfl⟩
    exact ⟨_, _, rfl, (), _, ⟨hv, rfl⟩, _, _, rfl, _, _, rfl, rfl⟩

theorem placeLabel_eq_ok_iff {name : String} {d d' : Draft} {u : Unit} :
    placeLabel name d = .ok u d' ↔
      ((d.mentioning name).labels.any fun label => label.name == name && label.defined) = false ∧
        (d.mentioning name).Valid ∧
        d' = ((d.mentioning name).labelDefined name).fallenInto (d.labelTarget name)
          (d.labelTarget name) := by
  unfold placeLabel defineLabel
  simp only [bind_eq_ok_iff, labelBlock_eq, get_eq_ok_iff, enter_eq_ok_iff]
  constructor
  · rintro ⟨_, _, ⟨_, _, hb, _, _, ⟨rfl, rfl⟩, h⟩, hv, rfl⟩
    cases hb
    split at h
    · cases throw_ne_ok h
    · next hn =>
        obtain ⟨_, _, hm, hp⟩ := bind_eq_ok_iff.mp h
        obtain ⟨rfl, rfl⟩ := pure_eq_ok_iff.mp hp
        cases modify_eq_ok_iff.mp hm
        exact ⟨Bool.not_eq_true _ ▸ hn, hv, rfl⟩
  · rintro ⟨hn, hv, rfl⟩
    refine ⟨d.labelTarget name, (d.mentioning name).labelDefined name,
      ⟨_, _, rfl, _, _, ⟨rfl, rfl⟩, ?_⟩, hv, rfl⟩
    rw [hn]
    rfl

theorem slot_eq_ok_iff {name : String} {words : Option UInt64} {v : Operand} {d d' : Draft} :
    slot name words d = .ok v d' ↔
      d.locals.lookup name = none ∧ 0 < d.function.blocks.length ∧
        v = .value d.function.nextValue ∧ d' = d.withSlot name words := by
  unfold slot
  simp only [bind_eq_ok_iff, get_eq_ok_iff]
  constructor
  · rintro ⟨_, _, ⟨rfl, rfl⟩, h⟩
    rename_i d
    cases hl : d.locals.lookup name with
    | some address =>
        rw [hl] at h
        cases throw_ne_ok h
    | none =>
        rw [hl] at h
        obtain ⟨_, _, hf, h⟩ := bind_eq_ok_iff.mp h
        obtain ⟨_, _, hm, hp⟩ := bind_eq_ok_iff.mp h
        obtain ⟨rfl, rfl⟩ := pure_eq_ok_iff.mp hp
        cases modify_eq_ok_iff.mp hm
        obtain ⟨f, hs, rfl⟩ := onFunction_eq_ok_iff.mp hf
        obtain ⟨hb, rfl, rfl⟩ := Function.pushSlot_eq_ok_iff.mp hs
        exact ⟨rfl, hb, rfl, rfl⟩
  · rintro ⟨hl, hb, rfl, rfl⟩
    refine ⟨_, _, ⟨rfl, rfl⟩, ?_⟩
    rw [hl]
    have hf : onFunction (Function.pushSlot words) d = .ok (.value d.function.nextValue)
        { d with function := d.function.withSlot words } :=
      onFunction_eq_ok_iff.mpr ⟨_, Function.pushSlot_eq_ok_iff.mpr ⟨hb, rfl, rfl⟩, rfl⟩
    exact bind_eq_ok_iff.mpr ⟨_, _, hf, rfl⟩

theorem finish_eq_ok_iff {id : FunctionId} {d d' : Draft} :
    finish d = .ok id d' ↔
      (∀ label ∈ d.labels, label.defined) ∧ d.Valid ∧ id = d.id ∧
        d' = d.endedIfOpen (.ret (.const 0)) := by
  have hid : (d.endedIfOpen (.ret (.const 0))).id = d.id := by
    unfold Draft.endedIfOpen
    split <;> rfl
  unfold finish
  simp only [bind_eq_ok_iff, get_eq_ok_iff]
  cases hl : leastName ((d.labels.filter fun label => !label.defined).map Label.name) with
  | some name =>
      constructor
      · rintro ⟨_, _, ⟨rfl, rfl⟩, h⟩
        rw [hl] at h
        cases throw_ne_ok h
      · rintro ⟨hd, _⟩
        have hnone : d.labels.filter (fun label => !label.defined) = [] :=
          List.filter_eq_nil_iff.mpr fun label hm => by simp [hd label hm]
        rw [hnone] at hl
        cases hl
  | none =>
      have hd : ∀ label ∈ d.labels, label.defined := by
        have hnil := List.map_eq_nil_iff.mp (leastName_eq_none_iff.mp hl)
        intro label hm
        simpa using List.filter_eq_nil_iff.mp hnil label hm
      constructor
      · rintro ⟨_, _, ⟨rfl, rfl⟩, h⟩
        rw [hl] at h
        obtain ⟨_, d₁, ht, h⟩ := bind_eq_ok_iff.mp h
        obtain ⟨_, _, hg, h⟩ := bind_eq_ok_iff.mp h
        obtain ⟨rfl, rfl⟩ := get_eq_ok_iff.mp hg
        obtain ⟨rfl, rfl⟩ := pure_eq_ok_iff.mp h
        obtain ⟨hv, rfl⟩ := terminateIfOpen_eq_ok_iff.mp ht
        exact ⟨hd, hv, hid, rfl⟩
      · rintro ⟨_, hv, rfl, rfl⟩
        refine ⟨_, _, ⟨rfl, rfl⟩, ?_⟩
        rw [hl]
        refine bind_eq_ok_iff.mpr ⟨(), _, terminateIfOpen_eq_ok_iff.mpr ⟨hv, rfl⟩, ?_⟩
        exact bind_eq_ok_iff.mpr ⟨_, _, get_eq_ok_iff.mpr ⟨rfl, rfl⟩, pure_eq_ok_iff.mpr
          ⟨hid.symm, rfl⟩⟩

end Build
end BCompiler
