import BCompiler.Proofs.Definition
import BCompiler.Proofs.Naming.Block

/-!
The names that compiling a statement gives to blocks.

A construct takes a number that no block has yet. A label has a block only once it is known, and a
switch has a block for each of its cases. A switch inside another has a number of its own, so it
leaves the cases of the other alone.
-/
namespace BCompiler

/-- The blocks of a draft have distinct names, with numbers that are taken and known labels. -/
structure Draft.Named (d : Draft) (names : List BlockName) : Prop where
  blocks : d.function.blockNames = names.map BlockName.text
  distinct : names.Nodup
  numbers : ∀ name ∈ names, ∀ n, name.number? = some n → n < d.nextGroup
  labels : ∀ x, .label x ∈ names → x ∈ d.labels.map Label.name

/-- A name that a draft may get from where `next` is the next number: that of a label, of a later
construct, or of a case of the enclosing switch. -/
def BlockName.IsNew (next : Nat) (group : Option Nat) : BlockName → Prop
  | .entry => False
  | .label _ => True
  | .numbered kind n _ => next ≤ n ∨ kind = .case ∧ group = some n

theorem BlockName.IsNew.mono {next next' : Nat} {group : Option Nat} {name : BlockName}
    (hnext : next ≤ next') (h : name.IsNew next' group) : name.IsNew next group := by
  cases name with
  | entry => exact h
  | label x => trivial
  | numbered kind n part => exact h.imp (Nat.le_trans hnext) id

theorem BlockName.IsNew.within {next : Nat} {name : BlockName} (h : name.IsNew next none)
    (group : Option Nat) : name.IsNew next group := by
  cases name with
  | entry => exact h
  | label x => trivial
  | numbered kind n part => exact .inl (h.resolve_right fun hcase => by cases hcase.2)

/-- A draft that goes on from another, with the names of both. -/
structure Draft.NamesTo (group : Option Nat) (d : Draft) (names : List BlockName) (d' : Draft)
    (names' : List BlockName) : Prop where
  named : d'.Named names'
  next : d.nextGroup ≤ d'.nextGroup
  added : ∃ added, names' = names ++ added ∧ ∀ name ∈ added, name.IsNew d.nextGroup group

theorem Draft.NamesTo.trans {group : Option Nat} {d d₁ d' : Draft}
    {names names₁ names' : List BlockName} (h : d.NamesTo group names d₁ names₁)
    (h' : d₁.NamesTo group names₁ d' names') : d.NamesTo group names d' names' := by
  obtain ⟨added, rfl, hadded⟩ := h.added
  obtain ⟨added', rfl, hadded'⟩ := h'.added
  refine ⟨h'.named, Nat.le_trans h.next h'.next, added ++ added', List.append_assoc .., ?_⟩
  intro name hm
  rcases List.mem_append.mp hm with hm | hm
  · exact hadded name hm
  · exact (hadded' name hm).mono h.next

theorem Draft.nextGroup_fallenInto (d : Draft) (target next : BlockId) :
    (d.fallenInto target next).nextGroup = d.nextGroup := by
  unfold Draft.fallenInto Draft.endedIfOpen
  split <;> rfl

namespace Draft.Named

variable {d d' : Draft} {names : List BlockName}

/-- A change that touches neither blocks nor labels nor numbers. -/
theorem same (h : d.Named names) (hblocks : d'.function.blockNames = d.function.blockNames)
    (hlabels : d'.labels.map Label.name = d.labels.map Label.name)
    (hnext : d'.nextGroup = d.nextGroup) : d'.Named names :=
  ⟨hblocks.trans h.blocks, h.distinct, hnext ▸ h.numbers, hlabels ▸ h.labels⟩

theorem nextNumber (h : d.Named names) : d.nextNumber.Named names :=
  ⟨h.blocks, h.distinct, fun name hm n hn => Nat.lt_succ_of_lt (h.numbers name hm n hn), h.labels⟩

theorem addBlock (h : d.Named names) {name : BlockName} (hnew : name ∉ names)
    (hnumber : ∀ n, name.number? = some n → n < d.nextGroup)
    (hlabel : ∀ x, name = .label x → x ∈ d.labels.map Label.name) :
    (d.addBlock name.text).Named (names ++ [name]) where
  blocks := by rw [blockNames_addBlock, h.blocks, List.map_append]; rfl
  distinct := by
    refine List.nodup_append.mpr ⟨h.distinct, List.pairwise_singleton .., ?_⟩
    rintro x hx y hy rfl
    exact hnew (List.mem_singleton.mp hy ▸ hx)
  numbers := by
    intro x hx n hn
    rcases List.mem_append.mp hx with hx | hx
    · exact h.numbers x hx n hn
    · exact hnumber n (List.mem_singleton.mp hx ▸ hn)
  labels := by
    intro x hx
    rcases List.mem_append.mp hx with hx | hx
    · exact h.labels x hx
    · exact hlabel x (List.mem_singleton.mp hx).symm

/-- No block has the next number. -/
theorem not_mem_of_le (h : d.Named names) (kind : BlockKind) {n : Nat} (hn : d.nextGroup ≤ n)
    (part : String) : .numbered kind n part ∉ names := fun hm =>
  Nat.lt_irrefl _ (Nat.lt_of_lt_of_le (h.numbers _ hm n rfl) hn)

/-- A block with the next number, which is taken thereby. -/
theorem addNumbered (h : d.Named names) (kind : BlockKind) (part : String) :
    (d.nextNumber.addBlock (BlockName.numbered kind d.nextGroup part).text).Named
      (names ++ [.numbered kind d.nextGroup part]) := by
  refine h.nextNumber.addBlock (h.not_mem_of_le kind (Nat.le_refl _) part) ?_ ?_
  · rintro n ⟨⟩
    exact Nat.lt_succ_self _
  · rintro x ⟨⟩

theorem fallenInto (h : d.Named names) (target next : BlockId) :
    (d.fallenInto target next).Named names := by
  unfold Draft.fallenInto Draft.endedIfOpen
  split
  · exact h.same (d.blockNames_endedBy _) rfl rfl
  · exact h.same rfl rfl rfl

/-- One more block of a construct whose number is taken. -/
theorem addPart (h : d.Named names) (kind : BlockKind) {n : Nat} (part : String)
    (hn : n < d.nextGroup) (hnew : .numbered kind n part ∉ names) :
    (d.addBlock (BlockName.numbered kind n part).text).Named
      (names ++ [.numbered kind n part]) := by
  refine h.addBlock hnew ?_ ?_
  · rintro m ⟨⟩
    exact hn
  · rintro x ⟨⟩

end Draft.Named

theorem BlockName.text_numbered {kind : BlockKind} {n : Nat} {part : String} (h : part ≠ "") :
    (BlockName.numbered kind n part).text = kind.word ++ "." ++ toString n ++ "." ++ part := by
  simp [BlockName.text, h, String.append_assoc]

/-- The names of the three blocks of a construct. -/
def BlockKind.groupNames (kind : BlockKind) (n : Nat) (first second last : String) :
    List BlockName :=
  [.numbered kind n first, .numbered kind n second, .numbered kind n last]

theorem Draft.Named.addGroup {d : Draft} {names : List BlockName} (h : d.Named names)
    (kind : BlockKind) {first second last : String}
    (hparts : [first, second, last, ""].Nodup) :
    (d.addGroup kind.word first second last).Named
      (names ++ kind.groupNames d.nextGroup first second last) := by
  simp only [List.nodup_cons, List.mem_cons, List.not_mem_nil, or_false, not_or] at hparts
  obtain ⟨⟨h₁₂, h₁₃, h₁⟩, ⟨h₂₃, h₂⟩, h₃, _⟩ := hparts
  have hfree := h.not_mem_of_le kind (Nat.le_refl _)
  have hfirst := h.addNumbered kind first
  have hsecond := hfirst.addPart kind second (Nat.lt_succ_self d.nextGroup)
    (by simp [hfree, Ne.symm h₁₂])
  have hlast := hsecond.addPart kind last (Nat.lt_succ_self d.nextGroup)
    (by simp [hfree, Ne.symm h₁₃, Ne.symm h₂₃])
  rw [BlockName.text_numbered h₁, BlockName.text_numbered h₂, BlockName.text_numbered h₃,
    List.append_assoc, List.append_assoc] at hlast
  exact hlast

theorem Draft.Named.select {d d' : Draft} {names : List BlockName} (h : d.Named names)
    {g : BlockGroup} (hs : Build.select d = .ok g d') :
    g.number = d.nextGroup ∧ d'.nextGroup = d.nextGroup + 1 ∧
      d'.Named (names ++ BlockKind.switch.groupNames d.nextGroup "stmts" "cmp" "end") := by
  obtain ⟨_, rfl, rfl⟩ := Build.select_eq_ok_iff.mp hs
  exact ⟨rfl, nextGroup_fallenInto _ _ _, (h.addGroup .switch (by decide)).fallenInto _ _⟩

/-- Wherever its names come from, the draft goes on with them and with new ones. -/
def Draft.Names (d d' : Draft) : Prop :=
  ∀ names, d.Named names → ∃ names', d.NamesTo none names d' names'

namespace Draft.Names

variable {d d₁ d' : Draft}

theorem trans (h : d.Names d₁) (h' : d₁.Names d') : d.Names d' := by
  intro names hn
  obtain ⟨names₁, h₁⟩ := h names hn
  obtain ⟨names', h₂⟩ := h' names₁ h₁.named
  exact ⟨names', h₁.trans h₂⟩

theorem same (hblocks : d'.function.blockNames = d.function.blockNames)
    (hlabels : d'.labels.map Label.name = d.labels.map Label.name)
    (hnext : d'.nextGroup = d.nextGroup) : d.Names d' :=
  fun names hn => ⟨names, hn.same hblocks hlabels hnext, Nat.le_of_eq hnext.symm, [],
    (List.append_nil _).symm, fun _ hm => absurd hm List.not_mem_nil⟩

theorem refl (d : Draft) : d.Names d := same rfl rfl rfl

/-- New blocks, all with the number that was the next one. -/
theorem ofNumbered {added : List BlockName}
    (h : ∀ names, d.Named names → d'.Named (names ++ added)) (hnext : d.nextGroup ≤ d'.nextGroup)
    (hadded : ∀ name ∈ added, name.IsNew d.nextGroup none) : d.Names d' :=
  fun names hn => ⟨names ++ added, h names hn, hnext, added, rfl, hadded⟩

theorem addNumbered (d : Draft) (kind : BlockKind) (part : String) :
    d.Names (d.nextNumber.addBlock (BlockName.numbered kind d.nextGroup part).text) := by
  refine ofNumbered (fun names hn => hn.addNumbered kind part) (Nat.le_succ _) fun name hm => ?_
  rw [List.mem_singleton.mp hm]
  exact .inl (Nat.le_refl _)

theorem addGroup (d : Draft) (kind : BlockKind) {first second last : String}
    (hparts : [first, second, last, ""].Nodup) :
    d.Names (d.addGroup kind.word first second last) := by
  refine ofNumbered (fun names hn => hn.addGroup kind hparts) (Nat.le_succ _) fun name hm => ?_
  simp only [BlockKind.groupNames, List.mem_cons, List.not_mem_nil, or_false] at hm
  rcases hm with rfl | rfl | rfl <;> exact .inl (Nat.le_refl _)

theorem goTo (d : Draft) (block : BlockId) : d.Names (d.goTo block) := same rfl rfl rfl

theorem define (d : Draft) (operation : Operation) : d.Names (d.define operation) :=
  same (d.blockNames_define operation) rfl rfl

theorem append (d : Draft) (instr : Instr) : d.Names (d.append instr) :=
  same (d.blockNames_append instr) rfl rfl

theorem endedBy (d : Draft) (t : Terminator) : d.Names (d.endedBy t) :=
  same (d.blockNames_endedBy t) rfl rfl

theorem withSlot (d : Draft) (name : String) (words : Option UInt64) :
    d.Names (d.withSlot name words) := same (d.blockNames_withSlot name words) rfl rfl

theorem withProgram (d : Draft) (p : Program) : d.Names { d with program := p } := same rfl rfl rfl

theorem opened (d : Draft) : d.Names d.opened := by
  unfold Draft.opened
  split
  · exact .refl d
  · have hdead := addNumbered d .dead ""
    have htext : (BlockName.numbered .dead d.nextGroup "").text = "dead." ++ toString d.nextGroup :=
      String.append_empty
    rw [htext] at hdead
    exact hdead.trans (goTo _ _)

theorem unreachable (d : Draft) : d.Names d.unreachable := by
  have hblock := addNumbered d .unreachable ""
  have htext : (BlockName.numbered .unreachable d.nextGroup "").text =
      "unreachable." ++ toString d.nextGroup := String.append_empty
  rw [htext] at hblock
  exact hblock.trans (goTo _ _)

theorem endedIfOpen (d : Draft) (t : Terminator) : d.Names (d.endedIfOpen t) := by
  unfold Draft.endedIfOpen
  split
  · exact endedBy d t
  · exact .refl d

theorem branched (d : Draft) (word : Operand) (t e : BlockId) : d.Names (d.branched word t e) :=
  (opened d).trans ((define _ _).trans (endedBy _ _))

theorem fallenInto (d : Draft) (target next : BlockId) : d.Names (d.fallenInto target next) :=
  (endedIfOpen d (.branch target)).trans (goTo _ _)

/-- A label gets its block when it is first mentioned. -/
theorem mentioning (d : Draft) (name : String) : d.Names (d.mentioning name) := by
  unfold Draft.mentioning
  cases hl : d.labels.find? fun label => label.name == name with
  | some label => exact .refl d
  | none =>
      change d.Names (d.withLabel name)
      intro names hn
      have hnew : BlockName.label name ∉ names := by
        intro hm
        obtain ⟨label, hlabel, hname⟩ := List.mem_map.mp (hn.labels name hm)
        simpa [hname] using List.find?_eq_none.mp hl label hlabel
      -- the label is known before its block is added
      have hknown : ({ d with
          labels := d.labels ++ [⟨name, d.function.blocks.length, false⟩] } : Draft).Named names :=
        { hn with labels := fun x hx => by simp [hn.labels x hx] }
      have hadded : (d.withLabel name).Named (names ++ [.label name]) := by
        refine hknown.addBlock hnew ?_ ?_
        · rintro n ⟨⟩
        · rintro x ⟨⟩
          simp
      refine ⟨names ++ [.label name], hadded, Nat.le_refl _, _, rfl, fun x hx => ?_⟩
      rw [List.mem_singleton.mp hx]
      trivial

theorem labelDefined (d : Draft) (name : String) : d.Names (d.labelDefined name) := by
  refine same rfl ?_ rfl
  rw [Draft.labelDefined, List.map_map]
  refine List.map_congr_left fun label _ => ?_
  simp only [Function.comp, Label.define]
  split <;> rfl

theorem emit {operation : Operation} {v : Operand} (h : Build.emit operation d = .ok v d') :
    d.Names d' := by
  obtain ⟨_, _, rfl⟩ := Build.emit_eq_ok_iff.mp h
  exact (opened d).trans (define _ _)

theorem store {value address : Operand} {u : Unit} (h : Build.store value address d = .ok u d') :
    d.Names d' := by
  obtain ⟨_, rfl⟩ := Build.store_eq_ok_iff.mp h
  exact (opened d).trans (append _ _)

theorem terminate {t : Terminator} {u : Unit} (h : Build.terminate t d = .ok u d') :
    d.Names d' := by
  obtain ⟨_, rfl⟩ := Build.terminate_eq_ok_iff.mp h
  exact (opened d).trans (endedBy _ _)

theorem leave {last exit : BlockId} (h : Build.leave last d = .ok exit d') : d.Names d' := by
  obtain ⟨_, _, rfl⟩ := Build.leave_eq_ok_iff.mp h
  exact (opened d).trans (endedBy _ _)

theorem fallInto {target next : BlockId} {u : Unit}
    (h : Build.fallInto target next d = .ok u d') : d.Names d' := by
  obtain ⟨_, rfl⟩ := Build.fallInto_eq_ok_iff.mp h
  exact fallenInto d target next

theorem fork (kind : BlockKind) {word : Operand} {g : BlockGroup}
    (h : Build.fork kind.word word d = .ok g d') : d.Names d' := by
  obtain ⟨_, rfl, rfl⟩ := Build.fork_eq_ok_iff.mp h
  exact (addGroup d kind (by decide)).trans ((branched _ _ _ _).trans (goTo _ _))

theorem join {last exit : BlockId} {thenValue elseValue v : Operand}
    (h : Build.join last thenValue exit elseValue d = .ok v d') : d.Names d' := by
  obtain ⟨elseExit, d₁, hl, h⟩ := bind_eq_ok_iff.mp h
  obtain ⟨_, d₂, hs, h⟩ := bind_eq_ok_iff.mp h
  cases Build.switchTo_eq_ok_iff.mp hs
  exact (leave hl).trans ((goTo d₁ last).trans (emit h))

theorem loop {g : BlockGroup} (h : Build.loop d = .ok g d') : d.Names d' := by
  obtain ⟨_, rfl, rfl⟩ := Build.loop_eq_ok_iff.mp h
  exact (addGroup d .whileLoop (by decide)).trans (fallenInto _ _ _)

theorem test {word : Operand} {g : BlockGroup} {u : Unit} (h : Build.test word g d = .ok u d') :
    d.Names d' := by
  obtain ⟨_, rfl⟩ := Build.test_eq_ok_iff.mp h
  exact (branched d _ _ _).trans (goTo _ _)

theorem settle {value : Operand} {cases : List (Word × BlockId)} {g : BlockGroup} {u : Unit}
    (h : Build.settle value cases g d = .ok u d') : d.Names d' := by
  obtain ⟨_, _, rfl⟩ := Build.settle_eq_ok_iff.mp h
  exact (fallenInto d _ _).trans ((opened _).trans ((endedBy _ _).trans (goTo _ _)))

theorem goto {name : String} {u : Unit} (h : Build.goto name d = .ok u d') : d.Names d' := by
  obtain ⟨_, rfl⟩ := Build.goto_eq_ok_iff.mp h
  exact (mentioning d name).trans ((endedIfOpen _ _).trans (unreachable _))

theorem placeLabel {name : String} {u : Unit} (h : Build.placeLabel name d = .ok u d') :
    d.Names d' := by
  obtain ⟨_, _, rfl⟩ := Build.placeLabel_eq_ok_iff.mp h
  exact (mentioning d name).trans ((labelDefined _ name).trans (fallenInto _ _ _))

theorem emission {known known' : List Typed} (h : Emission d known d' known') : d.Names d' := by
  induction h with
  | refl d => exact .refl d
  | trans _ _ ih₁ ih₂ => exact ih₁.trans ih₂
  | const | symbol | slot => exact .refl _
  | emit _ _ h => exact emit h
  | store _ _ h => exact store h
  | string | declare => exact withProgram _ _
  | @conditional d d₁ d₂ d₃ d₄ d' _ _ _ _ _ _ _ g _ _ hf _ _ hl _ _ hj ih₁ ih₂ =>
      have helse := (goTo d₃ g.second).trans (ih₂.trans (join hj))
      exact (fork .cond hf).trans (ih₁.trans ((leave hl).trans helse))

theorem spill {params : List String} {u : Unit} (h : Build.spill params d = .ok u d') :
    d.Names d' := by
  induction params generalizing d with
  | nil =>
      obtain ⟨_, rfl⟩ := pure_eq_ok_iff.mp h
      exact .refl _
  | cons param params ih =>
      obtain ⟨v, d₁, hslot, hrest⟩ := bind_eq_ok_iff.mp h
      obtain ⟨_, d₂, hstore, htail⟩ := bind_eq_ok_iff.mp hrest
      obtain ⟨_, _, _, rfl⟩ := Build.slot_eq_ok_iff.mp hslot
      exact (withSlot d _ _).trans ((store hstore).trans (ih htail))

end Draft.Names

/-- The number of the enclosing switch is taken, and its cases are known. -/
def Draft.Encloses (d : Draft) (names : List BlockName) (e : Option Switch) : Prop :=
  ∀ s ∈ e, s.group < d.nextGroup ∧
    ∀ part, .numbered .case s.group part ∈ names → ∃ arm ∈ s.cases, arm.1.decimal = part

/-- The draft goes on inside a switch that may get new cases. -/
def Draft.NamesIn (e e' : Option Switch) (d d' : Draft) : Prop :=
  e'.map Switch.group = e.map Switch.group ∧
  ∀ names, d.Named names → d.Encloses names e →
    ∃ names', d.NamesTo (e.map Switch.group) names d' names' ∧ d'.Encloses names' e'

namespace Draft.NamesIn

variable {d d₁ d' : Draft} {e e₁ e' : Option Switch}

theorem trans (h : d.NamesIn e e₁ d₁) (h' : d₁.NamesIn e₁ e' d') : d.NamesIn e e' d' := by
  refine ⟨h'.1.trans h.1, fun names hn he => ?_⟩
  obtain ⟨names₁, h₁, he₁⟩ := h.2 names hn he
  obtain ⟨names', h₂, he₂⟩ := h'.2 names₁ h₁.named he₁
  exact ⟨names', h₁.trans (h.1 ▸ h₂), he₂⟩

/-- A step that adds no case. -/
theorem of_names (h : d.Names d') (e : Option Switch) : NamesIn e e d d' := by
  refine ⟨rfl, fun names hn he => ?_⟩
  obtain ⟨names', hto⟩ := h names hn
  obtain ⟨added, rfl, hadded⟩ := hto.added
  refine ⟨_, ⟨hto.named, hto.next, added, rfl, fun name hm => (hadded name hm).within _⟩, ?_⟩
  intro s hs
  obtain ⟨hnumber, hcases⟩ := he s hs
  refine ⟨Nat.lt_of_lt_of_le hnumber hto.next, fun part hm => ?_⟩
  rcases List.mem_append.mp hm with hm | hm
  · exact hcases part hm
  · have hle := (hadded _ hm).resolve_right fun hgroup => by cases hgroup.2
    exact absurd hnumber (Nat.not_lt.mpr hle)

theorem case {s : Switch} {value : Word} {block : BlockId} (hnew : ∀ arm ∈ s.cases, arm.1 ≠ value)
    (h : Build.caseBlock s.group value d = .ok block d') :
    NamesIn (some s) (some { s with cases := s.cases ++ [(value, block)] }) d d' := by
  refine ⟨rfl, fun names hn he => ?_⟩
  obtain ⟨_, rfl, rfl⟩ := Build.caseBlock_eq_ok_iff.mp h
  obtain ⟨hnumber, hcases⟩ := he s rfl
  have hfree : .numbered .case s.group value.decimal ∉ names := by
    intro hm
    obtain ⟨arm, harm, heq⟩ := hcases _ hm
    exact hnew arm harm (Word.decimal_injective heq)
  have hnamed := hn.addPart .case value.decimal hnumber hfree
  rw [BlockName.text_numbered value.decimal_ne_empty] at hnamed
  refine ⟨_, ⟨hnamed.fallenInto _ _, ?_, _, rfl, fun name hm => ?_⟩, ?_⟩
  · rw [nextGroup_fallenInto]
    exact Nat.le_refl _
  · rw [List.mem_singleton.mp hm]
    exact .inr ⟨rfl, rfl⟩
  · rintro t ⟨⟩
    refine ⟨?_, fun part hm => ?_⟩
    · rwa [nextGroup_fallenInto]
    · rcases List.mem_append.mp hm with hm | hm
      · obtain ⟨arm, harm, heq⟩ := hcases part hm
        exact ⟨arm, List.mem_append_left _ harm, heq⟩
      · cases List.mem_singleton.mp hm
        exact ⟨_, List.mem_append_right _ (.head _), rfl⟩

/-- A switch inside another takes a number of its own. -/
theorem ofSwitch {g : BlockGroup} {inner : Option Switch}
    (hbody : NamesIn (some ⟨g.number, []⟩) inner d₁ d') (hs : Build.select d = .ok g d₁) :
    d.Names d' := by
  intro names hn
  obtain ⟨hnumber, hnext, hselected⟩ := hn.select hs
  have hencloses : d₁.Encloses
      (names ++ BlockKind.switch.groupNames d.nextGroup "stmts" "cmp" "end")
      (some ⟨g.number, []⟩) := by
    rintro s ⟨⟩
    rw [hnumber, hnext]
    refine ⟨Nat.lt_succ_self _, fun part hm => ?_⟩
    rcases List.mem_append.mp hm with hm | hm
    · exact absurd hm (hn.not_mem_of_le .case (Nat.le_refl _) part)
    · simp [BlockKind.groupNames] at hm
  obtain ⟨names', hto, _⟩ := hbody.2 _ hselected hencloses
  have hle : d.nextGroup ≤ d₁.nextGroup := hnext ▸ Nat.le_succ _
  obtain ⟨added, rfl, hadded⟩ := hto.added
  refine ⟨_, hto.named, Nat.le_trans hle hto.next, _, List.append_assoc .., fun name hm => ?_⟩
  rcases List.mem_append.mp hm with hm | hm
  · simp only [BlockKind.groupNames, List.mem_cons, List.not_mem_nil, or_false] at hm
    rcases hm with rfl | rfl | rfl <;> exact .inl (Nat.le_refl _)
  · have hnew := (hadded name hm).mono hle
    cases name with
    | entry => exact hnew
    | label x => trivial
    | numbered kind n part =>
        -- the cases of the inner switch have its number
        refine .inl (hnew.elim (fun hlater => hlater) fun hcase => Nat.le_of_eq ?_)
        exact hnumber.symm.trans (Option.some.inj hcase.2)

end Draft.NamesIn

theorem Course.names {d d' : Draft} {e e' : Option Switch} (h : Course d e d' e') :
    Draft.NamesIn e e' d d' := by
  induction h with
  | refl d => exact .of_names (.refl d) _
  | trans _ _ ih₁ ih₂ => exact ih₁.trans ih₂
  | code hc => exact .of_names (.emission hc) _
  | slot hs =>
      obtain ⟨_, _, _, rfl⟩ := Build.slot_eq_ok_iff.mp hs
      exact .of_names (.withSlot _ _ _) _
  | external hs =>
      obtain ⟨p, _, rfl⟩ := Build.onProgram_eq_ok_iff.mp hs
      exact .of_names (.withProgram _ p) _
  | ret hc _ hs => exact .of_names ((Draft.Names.emission hc).trans (.terminate hs)) _
  | goto hs => exact .of_names (.goto hs) _
  | label hs => exact .of_names (.placeLabel hs) _
  | case hnew hs => exact .case hnew hs
  | ifElse hc _ hf _ hfall _ henter ih₁ ih₂ =>
      have hfork := (Draft.Names.emission hc).trans (.fork .ifElse hf)
      have helse := ih₂.trans (.of_names (.fallInto henter) _)
      exact (Draft.NamesIn.of_names hfork _).trans
        (ih₁.trans ((Draft.NamesIn.of_names (.fallInto hfall) _).trans helse))
  | whileLoop hl hc _ ht _ hfall ih =>
      have htest := (Draft.Names.loop hl).trans ((Draft.Names.emission hc).trans (.test ht))
      exact (Draft.NamesIn.of_names htest _).trans (ih.trans (.of_names (.fallInto hfall) _))
  | switch hc _ hs _ hd ih =>
      exact .of_names ((Draft.Names.emission hc).trans ((ih.ofSwitch hs).trans (.settle hd))) _

end BCompiler
