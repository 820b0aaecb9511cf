import BCompiler.Proofs.Carry

/-!
What stays while statements are compiled.

A block that has ended stays as it ended. A construct makes its blocks before its parts are
compiled, and until it enters one of them nothing else does: the parts go on in blocks of their own
or in those of labels. So a block that waits for its construct is open when the construct comes back
to it.
-/
namespace BCompiler
namespace Draft

/-- The draft goes on: its blocks keep their names and their ends, and no number comes again. -/
structure Lasts (d d' : Draft) : Prop where
  names : d.function.blockNames <+: d'.function.blockNames
  ends : ∀ i t, d.function.terminator? i = some t → d'.function.terminator? i = some t
  numbers : d.nextGroup ≤ d'.nextGroup

namespace Lasts

variable {d d₁ d' : Draft}

theorem refl (d : Draft) : d.Lasts d := ⟨List.prefix_rfl, fun _ _ h => h, Nat.le_refl _⟩

theorem trans (h : d.Lasts d₁) (h' : d₁.Lasts d') : d.Lasts d' :=
  ⟨h.names.trans h'.names, fun i t ht => h'.ends i t (h.ends i t ht),
    Nat.le_trans h.numbers h'.numbers⟩

/-- A change of the code that ends no block and adds none. -/
theorem code (hnames : d'.function.blockNames = d.function.blockNames)
    (hends : ∀ i, d'.function.terminator? i = d.function.terminator? i)
    (hnumber : d'.nextGroup = d.nextGroup) : d.Lasts d' :=
  ⟨hnames ▸ List.prefix_rfl, fun i _ h => (hends i).trans h, Nat.le_of_eq hnumber.symm⟩

theorem endedBy (hopen : d.isOpen) (t : Terminator) : d.Lasts (d.endedBy t) := by
  refine ⟨d.blockNames_endedBy t ▸ List.prefix_rfl, fun i t' h => ?_, Nat.le_refl _⟩
  rw [d.terminator?_endedBy t i (Valid.of_isOpen hopen), if_neg ?_, h]
  rintro rfl
  rw [((isOpen_iff_open d).mp hopen).2] at h
  cases h

theorem addBlock (d : Draft) (name : String) : d.Lasts (d.addBlock name) :=
  ⟨d.blockNames_addBlock name ▸ List.prefix_append _ _,
    fun i _ h => (d.terminator?_addBlock name i).trans h, Nat.le_refl _⟩

theorem carried : Carried Lasts where
  refl := refl
  trans := trans
  define d operation _ := code (d.blockNames_define operation) (d.terminator?_define operation) rfl
  append d _ _ := code (d.blockNames_append _) (d.terminator?_append _) rfl
  endedBy _ _ hopen _ := endedBy hopen _
  addBlock := addBlock
  goTo _ _ := code rfl (fun _ => rfl) rfl
  nextNumber _ := ⟨List.prefix_rfl, fun _ _ h => h, Nat.le_succ _⟩
  withSlot d name words :=
    code (d.blockNames_withSlot name words) (d.terminator?_withSlot name words) rfl
  withLabels _ _ := code rfl (fun _ => rfl) rfl
  program _ _ _ := code rfl (fun _ => rfl) rfl

theorem length_le (h : d.Lasts d') : d.function.blocks.length ≤ d'.function.blocks.length := by
  rw [← Function.length_blockNames, ← Function.length_blockNames]
  exact h.names.length_le

theorem name {i : BlockId} {name : String} (h : d.Lasts d')
    (hname : d.function.blockNames[i]? = some name) : d'.function.blockNames[i]? = some name := by
  obtain ⟨rest, hrest⟩ := h.names
  rw [← hrest, List.getElem?_append_left (List.getElem?_eq_some_iff.mp hname).1, hname]

end Lasts

theorem getElem?_blockNames_addGroup (d : Draft) (construct first second last : String) (i : Nat) :
    (d.addGroup construct first second last).function.blockNames[d.function.blocks.length + i]? =
      [construct ++ "." ++ toString d.nextGroup ++ "." ++ first,
        construct ++ "." ++ toString d.nextGroup ++ "." ++ second,
        construct ++ "." ++ toString d.nextGroup ++ "." ++ last][i]? := by
  have hnames : (d.addGroup construct first second last).function.blockNames =
      d.function.blockNames ++ [construct ++ "." ++ toString d.nextGroup ++ "." ++ first,
        construct ++ "." ++ toString d.nextGroup ++ "." ++ second,
        construct ++ "." ++ toString d.nextGroup ++ "." ++ last] := by
    simp [addGroup, nextNumber]
  rw [hnames, List.getElem?_append_right (by simp), Function.length_blockNames,
    Nat.add_sub_cancel_left]

/-- The current block and the blocks of labels exist. The blocks in `ks` are open and are none of
them. -/
structure Reserves (ks : List BlockId) (d : Draft) : Prop where
  valid : d.Valid
  labels : ∀ label ∈ d.labels, label.block < d.function.blocks.length ∧ label.block ∉ ks
  waiting : ∀ k ∈ ks, d.Open k
  current : d.current ∉ ks

/-- A block that may be entered. -/
def Free (ks : List BlockId) (d : Draft) (k : BlockId) : Prop :=
  k < d.function.blocks.length ∧ k ∉ ks

theorem Free.mono {ks : List BlockId} {d d' : Draft} {k : BlockId} (hk : d.Free ks k)
    (h : d.Lasts d') : d'.Free ks k := ⟨Nat.lt_of_lt_of_le hk.1 h.length_le, hk.2⟩

namespace Reserves

variable {ks : List BlockId} {d d' : Draft}

/-- What is reserved is a matter of how blocks end, the current block and the labels. -/
theorem congr (h : d.Reserves ks)
    (hends : ∀ i, d'.function.terminator? i = d.function.terminator? i)
    (hlength : d.function.blocks.length ≤ d'.function.blocks.length)
    (hcurrent : d'.current = d.current) (hlabels : d'.labels = d.labels) : d'.Reserves ks where
  valid := by
    rw [Valid, hcurrent]
    exact Nat.lt_of_lt_of_le h.valid hlength
  labels label hm := by
    obtain ⟨hlt, hne⟩ := h.labels label (hlabels ▸ hm)
    exact ⟨Nat.lt_of_lt_of_le hlt hlength, hne⟩
  waiting k hk := by
    obtain ⟨hlt, hnone⟩ := h.waiting k hk
    exact ⟨Nat.lt_of_lt_of_le hlt hlength, (hends k).trans hnone⟩
  current := hcurrent ▸ h.current

theorem append (h : d.Reserves ks) (instr : Instr) : (d.append instr).Reserves ks :=
  h.congr (d.terminator?_append instr) (Nat.le_of_eq (Function.length_onBlock ..).symm) rfl rfl

theorem define (h : d.Reserves ks) (operation : Operation) : (d.define operation).Reserves ks :=
  h.congr (d.terminator?_define operation) (Nat.le_of_eq (Function.length_onBlock ..).symm) rfl rfl

theorem withSlot (h : d.Reserves ks) (name : String) (words : Option UInt64) :
    (d.withSlot name words).Reserves ks :=
  h.congr (d.terminator?_withSlot name words) (Lasts.carried.withSlot d name words).length_le rfl
    rfl

theorem withProgram (h : d.Reserves ks) (p : Program) : ({ d with program := p }).Reserves ks :=
  h.congr (fun _ => rfl) (Nat.le_refl _) rfl rfl

theorem nextNumber (h : d.Reserves ks) : d.nextNumber.Reserves ks :=
  h.congr (fun _ => rfl) (Nat.le_refl _) rfl rfl

theorem addBlock (h : d.Reserves ks) (name : String) : (d.addBlock name).Reserves ks :=
  h.congr (d.terminator?_addBlock name) (Lasts.addBlock d name).length_le rfl rfl

theorem endedBy (h : d.Reserves ks) (t : Terminator) : (d.endedBy t).Reserves ks where
  valid := Nat.lt_of_lt_of_eq h.valid (Function.length_onBlock ..).symm
  labels label hm := by
    obtain ⟨hlt, hne⟩ := h.labels label hm
    exact ⟨Nat.lt_of_lt_of_eq hlt (Function.length_onBlock ..).symm, hne⟩
  waiting k hk := by
    obtain ⟨hlt, hnone⟩ := h.waiting k hk
    refine ⟨Nat.lt_of_lt_of_eq hlt (Function.length_onBlock ..).symm, ?_⟩
    rw [d.terminator?_endedBy t k h.valid, if_neg ?_, hnone]
    rintro rfl
    exact h.current hk
  current := h.current

theorem goTo {next : BlockId} (h : d.Reserves ks) (hfree : d.Free ks next) :
    (d.goTo next).Reserves ks :=
  ⟨hfree.1, h.labels, h.waiting, hfree.2⟩

/-- A block that is made now is not reserved. -/
theorem not_mem (h : d.Reserves ks) {k : BlockId} (hk : d.function.blocks.length ≤ k) : k ∉ ks :=
  fun hm => Nat.not_lt.mpr hk (h.waiting k hm).1

theorem free_addBlock (h : d.Reserves ks) (name : String) :
    (d.addBlock name).Free ks d.function.blocks.length :=
  ⟨by simp [Draft.addBlock], h.not_mem (Nat.le_refl _)⟩

theorem opened (h : d.Reserves ks) : d.opened.Reserves ks := by
  unfold Draft.opened
  split
  · exact h
  · exact (h.nextNumber.addBlock _).goTo (h.nextNumber.free_addBlock _)

theorem endedIfOpen (h : d.Reserves ks) (t : Terminator) : (d.endedIfOpen t).Reserves ks := by
  unfold Draft.endedIfOpen
  split
  · exact h.endedBy t
  · exact h

theorem fallenInto {target next : BlockId} (h : d.Reserves ks) (hnext : d.Free ks next) :
    (d.fallenInto target next).Reserves ks := by
  have hlasts : d.Lasts (d.endedIfOpen (.branch target)) :=
    Lasts.carried.endedIfOpen d List.nodup_nil
  exact (h.endedIfOpen _).goTo (hnext.mono hlasts)

theorem fallInto {target next : BlockId} {u : Unit} (h : d.Reserves ks) (hnext : d.Free ks next)
    (hs : Build.fallInto target next d = .ok u d') : d'.Reserves ks := by
  obtain ⟨_, rfl⟩ := Build.fallInto_eq_ok_iff.mp hs
  exact h.fallenInto hnext

theorem addGroup (h : d.Reserves ks) (construct first second last : String) :
    (d.addGroup construct first second last).Reserves ks :=
  ((h.nextNumber.addBlock _).addBlock _).addBlock _

theorem free_group (h : d.Reserves ks) (construct first second last : String) {k : BlockId}
    (hk : k ∈ [d.group.first, d.group.second, d.group.last]) :
    (d.addGroup construct first second last).Free ks k := by
  have hlength : (d.addGroup construct first second last).function.blocks.length =
      d.function.blocks.length + 3 := by
    simp [Draft.addGroup, Draft.addBlock, Draft.nextNumber]
  rw [Free, hlength]
  simp only [Draft.group, List.mem_cons, List.not_mem_nil, or_false] at hk
  rcases hk with rfl | rfl | rfl
  · exact ⟨Nat.lt_add_of_pos_right (by decide), h.not_mem (Nat.le_refl _)⟩
  · exact ⟨Nat.add_lt_add_left (by decide) _, h.not_mem (Nat.le_add_right _ _)⟩
  · exact ⟨Nat.add_lt_add_left (by decide) _, h.not_mem (Nat.le_add_right _ _)⟩

theorem branched (h : d.Reserves ks) (word : Operand) (t e : BlockId) :
    (d.branched word t e).Reserves ks :=
  (h.opened.define _).endedBy _

theorem leave {last exit : BlockId} (h : d.Reserves ks)
    (hs : Build.leave last d = .ok exit d') : d'.Reserves ks := by
  obtain ⟨_, _, rfl⟩ := Build.leave_eq_ok_iff.mp hs
  exact h.opened.endedBy _

theorem emit {operation : Operation} {v : Operand} (h : d.Reserves ks)
    (hs : Build.emit operation d = .ok v d') : d'.Reserves ks := by
  obtain ⟨_, _, rfl⟩ := Build.emit_eq_ok_iff.mp hs
  exact h.opened.define _

theorem store {value address : Operand} {u : Unit} (h : d.Reserves ks)
    (hs : Build.store value address d = .ok u d') : d'.Reserves ks := by
  obtain ⟨_, rfl⟩ := Build.store_eq_ok_iff.mp hs
  exact h.opened.append _

theorem fork {construct : String} {word : Operand} {g : BlockGroup} (h : d.Reserves ks)
    (hs : Build.fork construct word d = .ok g d') :
    d'.Reserves ks ∧ d'.Free ks g.second ∧ d'.Free ks g.last := by
  obtain ⟨_, rfl, rfl⟩ := Build.fork_eq_ok_iff.mp hs
  have hfree : ∀ k ∈ [d.group.first, d.group.second, d.group.last],
      ((d.addGroup construct "then" "else" "end").branched word d.group.first
        d.group.second).Free ks k :=
    fun k hk => (h.free_group construct _ _ _ hk).mono (Lasts.carried.branched _ _ _ _)
  refine ⟨((h.addGroup _ _ _ _).branched _ _ _).goTo (hfree _ (.head _)), ?_, ?_⟩
  · exact hfree _ (.tail _ (.head _))
  · exact hfree _ (.tail _ (.tail _ (.head _)))

theorem join {last exit : BlockId} {thenValue elseValue v : Operand} (h : d.Reserves ks)
    (hlast : d.Free ks last) (hs : Build.join last thenValue exit elseValue d = .ok v d') :
    d'.Reserves ks := by
  obtain ⟨elseExit, d₁, hl, hs⟩ := bind_eq_ok_iff.mp hs
  obtain ⟨_, d₂, hgo, hs⟩ := bind_eq_ok_iff.mp hs
  cases Build.switchTo_eq_ok_iff.mp hgo
  exact ((h.leave hl).goTo (hlast.mono (Lasts.carried.leave hl))).emit hs

theorem emission {known known' : List Typed} (hc : Emission d known d' known') :
    d.Reserves ks → d'.Reserves ks := by
  induction hc with
  | refl | const | symbol | slot => exact fun h => h
  | trans _ _ ih₁ ih₂ => exact fun h => ih₂ (ih₁ h)
  | emit _ _ hs => exact fun h => h.emit hs
  | store _ _ hs => exact fun h => h.store hs
  | string | declare => exact fun h => h.withProgram _
  | conditional _ hf hc₂ _ hl hc₄ _ hj ih₁ ih₂ =>
      intro h
      obtain ⟨h₁, hsecond, hlast⟩ := h.fork hf
      have h₂ := Lasts.carried.emission hc₂
      have h₃ := Lasts.carried.leave hl
      have hentered := ((ih₁ h₁).leave hl).goTo ((hsecond.mono h₂).mono h₃)
      have h₄ := (Lasts.carried.goTo _ _).trans (Lasts.carried.emission hc₄)
      exact (ih₂ hentered).join (((hlast.mono h₂).mono h₃).mono h₄) hj

theorem mentioning (h : d.Reserves ks) (name : String) : (d.mentioning name).Reserves ks := by
  unfold Draft.mentioning
  split
  · exact h
  · have hnew := h.addBlock ("label." ++ name)
    refine ⟨hnew.valid, fun label hm => ?_, hnew.waiting, hnew.current⟩
    rcases List.mem_append.mp hm with hm | hm
    · exact hnew.labels label hm
    · rw [List.mem_singleton.mp hm]
      exact h.free_addBlock ("label." ++ name)

theorem labelDefined (h : d.Reserves ks) (name : String) : (d.labelDefined name).Reserves ks := by
  refine ⟨h.valid, fun label hm => ?_, h.waiting, h.current⟩
  obtain ⟨old, hold, rfl⟩ := List.mem_map.mp hm
  have hblock : (old.define name).block = old.block := by
    unfold Label.define
    split <;> rfl
  rw [hblock]
  exact h.labels old hold

theorem free_labelTarget (h : d.Reserves ks) (name : String) :
    (d.mentioning name).Free ks (d.labelTarget name) := by
  obtain ⟨label, hm, _, hblock⟩ := d.labelTarget_mentioning name
  rw [← hblock]
  exact (h.mentioning name).labels label hm

theorem goto {name : String} {u : Unit} (h : d.Reserves ks)
    (hs : Build.goto name d = .ok u d') : d'.Reserves ks := by
  obtain ⟨_, rfl⟩ := Build.goto_eq_ok_iff.mp hs
  have hended := ((h.mentioning name).endedIfOpen (.branch (d.labelTarget name))).nextNumber
  exact (hended.addBlock _).goTo (hended.free_addBlock _)

theorem placeLabel {name : String} {u : Unit} (h : d.Reserves ks)
    (hs : Build.placeLabel name d = .ok u d') : d'.Reserves ks := by
  obtain ⟨_, _, rfl⟩ := Build.placeLabel_eq_ok_iff.mp hs
  exact ((h.mentioning name).labelDefined name).fallenInto (h.free_labelTarget name)

theorem caseBlock {number : Nat} {value : Word} {block : BlockId} (h : d.Reserves ks)
    (hs : Build.caseBlock number value d = .ok block d') : d'.Reserves ks := by
  obtain ⟨_, rfl, rfl⟩ := Build.caseBlock_eq_ok_iff.mp hs
  exact (h.addBlock _).fallenInto (h.free_addBlock _)

/-- A construct that goes on in its first block. -/
theorem begun (h : d.Reserves ks) (construct first second last : String) (target : BlockId) :
    ((d.addGroup construct first second last).fallenInto target d.group.first).Reserves ks ∧
      ∀ k ∈ [d.group.first, d.group.second, d.group.last],
        ((d.addGroup construct first second last).fallenInto target d.group.first).Free ks k := by
  refine ⟨(h.addGroup _ _ _ _).fallenInto (h.free_group _ _ _ _ (.head _)), fun k hk => ?_⟩
  exact (h.free_group _ _ _ _ hk).mono (Lasts.carried.fallenInto _ _ _)

theorem loop {g : BlockGroup} (h : d.Reserves ks) (hs : Build.loop d = .ok g d') :
    d'.Reserves ks ∧ ∀ k ∈ [g.first, g.second, g.last], d'.Free ks k := by
  obtain ⟨_, rfl, rfl⟩ := Build.loop_eq_ok_iff.mp hs
  exact h.begun "while" "cond" "body" "end" d.group.first

theorem test {word : Operand} {g : BlockGroup} {u : Unit} (h : d.Reserves ks)
    (hsecond : d.Free ks g.second) (hs : Build.test word g d = .ok u d') : d'.Reserves ks := by
  obtain ⟨_, rfl⟩ := Build.test_eq_ok_iff.mp hs
  exact (h.branched word g.second g.last).goTo (hsecond.mono (Lasts.carried.branched _ _ _ _))

theorem select {g : BlockGroup} (h : d.Reserves ks) (hs : Build.select d = .ok g d') :
    d'.Reserves ks ∧ ∀ k ∈ [g.first, g.second, g.last], d'.Free ks k := by
  obtain ⟨_, rfl, rfl⟩ := Build.select_eq_ok_iff.mp hs
  exact h.begun "switch" "stmts" "cmp" "end" d.group.second

theorem settle {value : Operand} {cases : List (Word × BlockId)} {g : BlockGroup} {u : Unit}
    (h : d.Reserves ks) (hsecond : d.Free ks g.second) (hlast : d.Free ks g.last)
    (hcases : (cases.map Prod.fst).Nodup) (hs : Build.settle value cases g d = .ok u d') :
    d'.Reserves ks := by
  have hfree := hlast.mono (Lasts.carried.settle hcases hs)
  obtain ⟨_, _, rfl⟩ := Build.settle_eq_ok_iff.mp hs
  exact ((h.fallenInto hsecond).opened.endedBy _).goTo hfree

/-- Compiling statements leaves alone what is reserved. -/
theorem course {e e' : Option Switch} (hc : Course d e d' e') :
    d.Reserves ks → d'.Reserves ks := by
  induction hc with
  | refl => exact fun h => h
  | trans _ _ ih₁ ih₂ => exact fun h => ih₂ (ih₁ h)
  | code hc => exact emission hc
  | slot hs =>
      intro h
      obtain ⟨_, _, _, rfl⟩ := Build.slot_eq_ok_iff.mp hs
      exact h.withSlot _ _
  | external hs =>
      intro h
      obtain ⟨p, _, rfl⟩ := Build.onProgram_eq_ok_iff.mp hs
      exact h.withProgram p
  | ret hc _ hs =>
      intro h
      obtain ⟨_, rfl⟩ := Build.terminate_eq_ok_iff.mp hs
      exact (emission hc h).opened.endedBy _
  | goto hs => exact fun h => h.goto hs
  | label hs => exact fun h => h.placeLabel hs
  | case _ hs => exact fun h => h.caseBlock hs
  | ifElse hc _ hf hthen hfall helse henter ih₁ ih₂ =>
      intro h
      obtain ⟨h₂, hsecond, hlast⟩ := (emission hc h).fork hf
      have hl₃ := Lasts.carried.course hthen
      have h₄ := (ih₁ h₂).fallInto (hsecond.mono hl₃) hfall
      have hlast₄ := (hlast.mono hl₃).mono (Lasts.carried.fallInto hfall)
      exact (ih₂ h₄).fallInto (hlast₄.mono (Lasts.carried.course helse)) henter
  | whileLoop hl hc _ ht hbody hfall ih =>
      intro h
      obtain ⟨h₁, hfree⟩ := h.loop hl
      have hl₂ := Lasts.carried.emission hc
      have h₃ := (emission hc h₁).test ((hfree _ (.tail _ (.head _))).mono hl₂) ht
      have hl₄ := (hl₂.trans (Lasts.carried.test ht)).trans (Lasts.carried.course hbody)
      exact (ih h₃).fallInto ((hfree _ (.tail _ (.tail _ (.head _)))).mono hl₄) hfall
  | switch hc _ hs hbody hd ih =>
      intro h
      obtain ⟨h₂, hfree⟩ := (emission hc h).select hs
      have hl₃ := Lasts.carried.course hbody
      exact (ih h₂).settle ((hfree _ (.tail _ (.head _))).mono hl₃)
        ((hfree _ (.tail _ (.tail _ (.head _)))).mono hl₃) (hbody.nodup_valuesOf List.nodup_nil) hd

end Reserves
end Draft
end BCompiler
