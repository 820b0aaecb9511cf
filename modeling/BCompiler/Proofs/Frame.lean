import BCompiler.Proofs.Assignment.Certificate

/-!
What the code of an expression leaves alone.

An expression adds code at the end of the current block and in blocks of its own. No other block
changes, no name and no label, and no branch of it leads to a block that was there before. If the
current block was open, the block in which the expression ends is open.
-/
namespace BCompiler

/-- The second block is the first one with more code at its end, or the same if it had ended. -/
def Block.Extends (b b' : Block) : Prop := b' = b ∨ b.terminator = none ∧ b.instrs <+: b'.instrs

theorem Block.Extends.trans {b b' b'' : Block} (h : b.Extends b') (h' : b'.Extends b'') :
    b.Extends b'' := by
  rcases h with rfl | ⟨hopen, hprefix⟩
  · exact h'
  · rcases h' with rfl | ⟨_, hprefix'⟩
    · exact .inr ⟨hopen, hprefix⟩
    · exact .inr ⟨hopen, hprefix.trans hprefix'⟩

namespace Function

/-- The second function has the code of the first one, and maybe more. -/
def Extends (f g : Function) : Prop :=
  ∀ (i : BlockId) (b : Block), f.blocks[i]? = some b →
    ∃ b', g.blocks[i]? = some b' ∧ b.Extends b'

theorem Extends.refl (f : Function) : f.Extends f := fun _ b hb => ⟨b, hb, .inl rfl⟩

theorem Extends.trans {f g h : Function} (hfg : f.Extends g) (hgh : g.Extends h) :
    f.Extends h := by
  intro i b hb
  obtain ⟨b', hb', he⟩ := hfg i b hb
  obtain ⟨b'', hb'', he'⟩ := hgh i b' hb'
  exact ⟨b'', hb'', he.trans he'⟩

theorem extends_addBlock (f : Function) (name : String) : f.Extends (f.addBlock name).2 := by
  intro i b hb
  refine ⟨b, ?_, .inl rfl⟩
  rw [blocks_addBlock, List.getElem?_append_left (List.getElem?_eq_some_iff.mp hb).1, hb]

end Function

namespace Draft

theorem extends_onBlock {d : Draft} {f : Function} {change : Block → Block} (hopen : d.isOpen)
    (hblocks : f.blocks = (d.function.onBlock d.current change).blocks)
    (hchange : ∀ b : Block, b.instrs <+: (change b).instrs) : d.function.Extends f := by
  intro i b hb
  have hnew := Function.getElem?_onBlock d.function d.current i change
  rw [← hblocks, hb] at hnew
  split at hnew
  · next hi =>
      subst hi
      obtain ⟨b', hb', ht⟩ := isOpen_iff.mp hopen
      cases hb.symm.trans hb'
      exact ⟨_, hnew, .inr ⟨ht, hchange b⟩⟩
  · exact ⟨b, hnew, .inl rfl⟩

theorem extends_define {d : Draft} (hopen : d.isOpen) (operation : Operation) :
    d.function.Extends (d.define operation).function :=
  extends_onBlock hopen rfl fun _ => List.prefix_append _ _

theorem extends_endedBy {d : Draft} (hopen : d.isOpen) (t : Terminator) :
    d.function.Extends (d.endedBy t).function :=
  extends_onBlock hopen rfl fun _ => List.prefix_rfl

theorem extends_test {d d' : Draft} {word : Operand} {g : BlockGroup} {u : Unit} (hopen : d.isOpen)
    (hs : Build.test word g d = .ok u d') : d.function.Extends d'.function := by
  obtain ⟨_, rfl⟩ := Build.test_eq_ok_iff.mp hs
  change d.function.Extends (d.branched word g.second g.last).function
  unfold branched
  rw [opened_of_isOpen hopen]
  exact (extends_define hopen _).trans (extends_endedBy (isOpen_define hopen _) _)

theorem extends_endedIfOpen (d : Draft) (t : Terminator) :
    d.function.Extends (d.endedIfOpen t).function := by
  unfold endedIfOpen
  split
  · next hopen => exact extends_endedBy hopen t
  · exact .refl _

theorem extends_fallenInto (d : Draft) (target next : BlockId) :
    d.function.Extends (d.fallenInto target next).function :=
  d.extends_endedIfOpen (.branch target)

/-- The blocks below `n` stay as they are, but for code at the end of the block `c`, and so do the
branches to them, the names and the labels. -/
structure Beside (n : Nat) (c : BlockId) (d d' : Draft) : Prop where
  locals : d'.locals = d.locals
  labels : d'.labels = d.labels
  length : n ≤ d'.function.blocks.length
  current : d'.current = c ∨ n ≤ d'.current
  blocks : ∀ i < n, i ≠ c → d'.function.blocks[i]? = d.function.blocks[i]?
  edges : ∀ k < n, ∀ i, k ∈ d'.function.successors i ↔ k ∈ d.function.successors i
  code : d.function.Extends d'.function
  values : d.function.nextValue ≤ d'.function.nextValue

namespace Beside

variable {n : Nat} {c : BlockId} {d d₁ d₂ : Draft}

theorem refl (d : Draft) : Beside d.function.blocks.length d.current d d :=
  ⟨rfl, rfl, Nat.le_refl _, .inl rfl, fun _ _ _ => rfl, fun _ _ _ => .rfl, .refl _, Nat.le_refl _⟩

/-- What is left alone by a step from `d₁`, whose blocks include those below `n`. -/
theorem within (h : Beside n c d d₁)
    (h' : Beside d₁.function.blocks.length d₁.current d₁ d₂) : Beside n c d d₂ where
  locals := h'.locals.trans h.locals
  labels := h'.labels.trans h.labels
  length := Nat.le_trans h.length h'.length
  current := by
    rcases h'.current with he | hle
    · exact he ▸ h.current
    · exact .inr (Nat.le_trans h.length hle)
  blocks i hi hc := by
    have hne : i ≠ d₁.current := by
      rintro rfl
      exact h.current.elim hc (Nat.not_le.mpr hi)
    rw [h'.blocks i (Nat.lt_of_lt_of_le hi h.length) hne, h.blocks i hi hc]
  edges k hk i := (h'.edges k (Nat.lt_of_lt_of_le hk h.length) i).trans (h.edges k hk i)
  code := h.code.trans h'.code
  values := Nat.le_trans h.values h'.values

/-- A change at the end of the current block, which is open. -/
theorem onBlock {f : Function} {change : Block → Block} (h : Beside n c d d₁) (hopen : d₁.isOpen)
    (hblocks : f.blocks = (d₁.function.onBlock d₁.current change).blocks)
    (hchange : ∀ b : Block, b.instrs <+: (change b).instrs)
    (hedges : ∀ k < n, ∀ i, k ∈ f.successors i ↔ k ∈ d₁.function.successors i)
    (hvalues : d₁.function.nextValue ≤ f.nextValue) :
    Beside n c d { d₁ with function := f } where
  locals := h.locals
  labels := h.labels
  length := by
    change n ≤ f.blocks.length
    rw [hblocks, Function.length_onBlock]
    exact h.length
  current := h.current
  blocks i hi hc := by
    have hne : i ≠ d₁.current := by
      rintro rfl
      exact h.current.elim hc (Nat.not_le.mpr hi)
    change f.blocks[i]? = _
    rw [hblocks, Function.getElem?_onBlock, if_neg hne, h.blocks i hi hc]
  edges k hk i := (hedges k hk i).trans (h.edges k hk i)
  code := h.code.trans (extends_onBlock hopen hblocks hchange)
  values := Nat.le_trans h.values hvalues

theorem define (h : Beside n c d d₁) (hopen : d₁.isOpen) (operation : Operation) :
    Beside n c d (d₁.define operation) := by
  refine h.onBlock hopen rfl (fun b => List.prefix_append _ _) (fun k _ i => ?_) (Nat.le_succ _)
  exact iff_of_eq
    (congrArg (k ∈ ·) (Function.successors_congr (d₁.terminator?_define operation i)))

theorem append (h : Beside n c d d₁) (hopen : d₁.isOpen) (instr : Instr) :
    Beside n c d (d₁.append instr) := by
  refine h.onBlock hopen rfl (fun b => List.prefix_append _ _) (fun k _ i => ?_) (Nat.le_refl _)
  exact iff_of_eq (congrArg (k ∈ ·) (Function.successors_congr (d₁.terminator?_append instr i)))

/-- End the current block by branches to blocks from `n` on. -/
theorem endedBy {t : Terminator} (h : Beside n c d d₁) (hopen : d₁.isOpen)
    (ht : ∀ k ∈ t.successors, n ≤ k) : Beside n c d (d₁.endedBy t) := by
  refine h.onBlock hopen rfl (fun b => List.prefix_rfl) (fun k hk i => ?_) (Nat.le_refl _)
  obtain ⟨hlt, hnone⟩ := (isOpen_iff_open d₁).mp hopen
  rw [Function.successors_endedBy hlt]
  split
  · next hi =>
      subst hi
      rw [Function.successors_eq_nil hnone]
      exact iff_of_false (fun hm => Nat.not_le.mpr hk (ht k hm)) nofun
  · rfl

theorem addBlock (h : Beside n c d d₁) (name : String) : Beside n c d (d₁.addBlock name) where
  locals := h.locals
  labels := h.labels
  length := by
    rw [Draft.addBlock, Function.blocks_addBlock, List.length_append]
    exact Nat.le_add_right_of_le h.length
  current := h.current
  blocks i hi hc := by
    rw [Draft.addBlock, Function.blocks_addBlock,
      List.getElem?_append_left (Nat.lt_of_lt_of_le hi h.length), h.blocks i hi hc]
  edges k hk i := by
    rw [Function.successors_congr (d₁.terminator?_addBlock name i)]
    exact h.edges k hk i
  code := h.code.trans (Function.extends_addBlock _ name)
  values := h.values

theorem nextNumber (h : Beside n c d d₁) : Beside n c d d₁.nextNumber :=
  ⟨h.locals, h.labels, h.length, h.current, h.blocks, h.edges, h.code, h.values⟩

theorem goTo (h : Beside n c d d₁) {next : BlockId} (hnext : n ≤ next) :
    Beside n c d (d₁.goTo next) :=
  ⟨h.locals, h.labels, h.length, .inr hnext, h.blocks, h.edges, h.code, h.values⟩

theorem withProgram (h : Beside n c d d₁) (p : Program) :
    Beside n c d { d₁ with program := p } :=
  ⟨h.locals, h.labels, h.length, h.current, h.blocks, h.edges, h.code, h.values⟩

theorem opened (h : Beside n c d d₁) : Beside n c d d₁.opened := by
  unfold Draft.opened
  split
  · exact h
  · exact (h.nextNumber.addBlock _).goTo h.length

theorem addGroup (h : Beside n c d d₁) (construct first second last : String) :
    Beside n c d (d₁.addGroup construct first second last) :=
  ((h.nextNumber.addBlock _).addBlock _).addBlock _

theorem emit {operation : Operation} {v : Operand} (h : Beside n c d d₁)
    (hs : Build.emit operation d₁ = .ok v d₂) : Beside n c d d₂ := by
  obtain ⟨_, _, rfl⟩ := Build.emit_eq_ok_iff.mp hs
  exact h.opened.define (isOpen_opened _) _

theorem store {value address : Operand} {u : Unit} (h : Beside n c d d₁)
    (hs : Build.store value address d₁ = .ok u d₂) : Beside n c d d₂ := by
  obtain ⟨_, rfl⟩ := Build.store_eq_ok_iff.mp hs
  exact h.opened.append (isOpen_opened _) _

/-- A branch on a word to blocks from `n` on. -/
theorem branched {word : Operand} {t e : BlockId} (h : Beside n c d d₁) (ht : n ≤ t)
    (he : n ≤ e) : Beside n c d (d₁.branched word t e) := by
  refine (h.opened.define (isOpen_opened _) _).endedBy (isOpen_define (isOpen_opened _) _) ?_
  intro k hk
  rcases List.mem_cons.mp hk with rfl | hk
  · exact ht
  · exact List.mem_singleton.mp hk ▸ he

theorem fork {construct : String} {word : Operand} {g : BlockGroup} (h : Beside n c d d₁)
    (hs : Build.fork construct word d₁ = .ok g d₂) :
    Beside n c d d₂ ∧ n ≤ g.second ∧ n ≤ g.last := by
  obtain ⟨_, rfl, rfl⟩ := Build.fork_eq_ok_iff.mp hs
  have hfirst : n ≤ d₁.group.first := h.length
  have hsecond : n ≤ d₁.group.second := Nat.le_succ_of_le h.length
  have hlast : n ≤ d₁.group.last := Nat.le_succ_of_le (Nat.le_succ_of_le h.length)
  exact ⟨((h.addGroup _ _ _ _).branched hfirst hsecond).goTo hfirst, hsecond, hlast⟩

theorem terminate {t : Terminator} {u : Unit} (h : Beside n c d d₁)
    (ht : ∀ k ∈ t.successors, n ≤ k) (hs : Build.terminate t d₁ = .ok u d₂) : Beside n c d d₂ := by
  obtain ⟨_, rfl⟩ := Build.terminate_eq_ok_iff.mp hs
  exact h.opened.endedBy (isOpen_opened _) ht

theorem endedIfOpen {t : Terminator} (h : Beside n c d d₁) (ht : ∀ k ∈ t.successors, n ≤ k) :
    Beside n c d (d₁.endedIfOpen t) := by
  unfold Draft.endedIfOpen
  split
  · next hopen => exact h.endedBy hopen ht
  · exact h

theorem fallInto {target next : BlockId} {u : Unit} (h : Beside n c d d₁) (ht : n ≤ target)
    (hn : n ≤ next) (hs : Build.fallInto target next d₁ = .ok u d₂) : Beside n c d d₂ := by
  obtain ⟨_, rfl⟩ := Build.fallInto_eq_ok_iff.mp hs
  have hended : Beside n c d (d₁.endedIfOpen (.branch target)) :=
    h.endedIfOpen fun k hk => List.mem_singleton.mp hk ▸ ht
  exact hended.goTo hn

theorem loop {g : BlockGroup} (h : Beside n c d d₁) (hs : Build.loop d₁ = .ok g d₂) :
    Beside n c d d₂ ∧ n ≤ g.first ∧ n ≤ g.second ∧ n ≤ g.last := by
  obtain ⟨_, rfl, rfl⟩ := Build.loop_eq_ok_iff.mp hs
  have hfirst : n ≤ d₁.group.first := h.length
  have hsecond : n ≤ d₁.group.second := Nat.le_succ_of_le h.length
  have hlast : n ≤ d₁.group.last := Nat.le_succ_of_le (Nat.le_succ_of_le h.length)
  refine ⟨((h.addGroup _ _ _ _).endedIfOpen ?_).goTo hfirst, hfirst, hsecond, hlast⟩
  exact fun k hk => List.mem_singleton.mp hk ▸ hfirst

theorem test {word : Operand} {g : BlockGroup} {u : Unit} (h : Beside n c d d₁)
    (hsecond : n ≤ g.second) (hlast : n ≤ g.last) (hs : Build.test word g d₁ = .ok u d₂) :
    Beside n c d d₂ := by
  obtain ⟨_, rfl⟩ := Build.test_eq_ok_iff.mp hs
  exact (h.branched hsecond hlast).goTo hsecond

theorem leave {last exit : BlockId} (h : Beside n c d d₁) (hlast : n ≤ last)
    (hs : Build.leave last d₁ = .ok exit d₂) : Beside n c d d₂ := by
  obtain ⟨_, _, rfl⟩ := Build.leave_eq_ok_iff.mp hs
  exact h.opened.endedBy (isOpen_opened _) fun k hk => List.mem_singleton.mp hk ▸ hlast

theorem join {last exit : BlockId} {thenValue elseValue v : Operand} (h : Beside n c d d₁)
    (hlast : n ≤ last) (hs : Build.join last thenValue exit elseValue d₁ = .ok v d₂) :
    Beside n c d d₂ := by
  obtain ⟨elseExit, d₃, hl, hs⟩ := bind_eq_ok_iff.mp hs
  obtain ⟨_, d₄, hgo, hs⟩ := bind_eq_ok_iff.mp hs
  cases Build.switchTo_eq_ok_iff.mp hgo
  exact ((h.leave hlast hl).goTo hlast).emit hs

theorem emission {d' : Draft} {known known' : List Typed} (hc : Emission d known d' known') :
    Beside d.function.blocks.length d.current d d' := by
  induction hc with
  | refl d => exact refl d
  | trans _ _ ih₁ ih₂ => exact ih₁.within ih₂
  | const | symbol | slot => exact refl _
  | emit _ _ hs => exact (refl _).emit hs
  | store _ _ hs => exact (refl _).store hs
  | string | declare => exact (refl _).withProgram _
  | conditional _ hf _ _ hl _ _ hj ih₁ ih₂ =>
      obtain ⟨hfork, hsecond, hlast⟩ := (refl _).fork hf
      exact ((((hfork.within ih₁).leave hlast hl).goTo hsecond).within ih₂).join hlast hj

end Beside

section Blocks

variable {d : Draft}

theorem isOpen_addBlock (h : d.isOpen) (name : String) : (d.addBlock name).isOpen := by
  obtain ⟨hlt, hnone⟩ := (isOpen_iff_open d).mp h
  refine (isOpen_iff_open _).mpr ⟨?_, (d.terminator?_addBlock name _).trans hnone⟩
  exact Nat.lt_of_lt_of_le hlt (by simp [addBlock])

/-- The blocks of a new construct are empty. -/
theorem getElem?_addGroup (construct first second last : String) {k : BlockId}
    (hk : d.function.blocks.length ≤ k) (hk' : k ≤ d.function.blocks.length + 2) :
    ∃ name, (d.addGroup construct first second last).function.blocks[k]? = some (.empty name) := by
  have hblocks : (d.addGroup construct first second last).function.blocks =
      d.function.blocks ++ [.empty (construct ++ "." ++ toString d.nextGroup ++ "." ++ first),
        .empty (construct ++ "." ++ toString d.nextGroup ++ "." ++ second),
        .empty (construct ++ "." ++ toString d.nextGroup ++ "." ++ last)] := by
    simp [addGroup, addBlock, nextNumber]
  obtain ⟨i, rfl⟩ := Nat.exists_eq_add_of_le hk
  have hi : i ≤ 2 := Nat.le_of_add_le_add_left hk'
  have hi : i = 0 ∨ i = 1 ∨ i = 2 := by omega
  rw [hblocks, List.getElem?_append_right hk, Nat.add_sub_cancel_left]
  rcases hi with rfl | rfl | rfl <;> exact ⟨_, rfl⟩

theorem successors_addGroup (construct first second last : String) (i : BlockId) :
    (d.addGroup construct first second last).function.successors i = d.function.successors i := by
  refine Function.successors_congr ?_
  simp [addGroup, nextNumber]

/-- A branch on a word changes the current block and adds at most a new one. -/
theorem getElem?_branched {word : Operand} {t e i : BlockId} (hi : i < d.function.blocks.length)
    (hc : i ≠ d.current) :
    (d.branched word t e).function.blocks[i]? = d.function.blocks[i]? := by
  have hopened : d.opened.function.blocks[i]? = d.function.blocks[i]? ∧ i ≠ d.opened.current := by
    unfold opened
    split
    · exact ⟨rfl, hc⟩
    · refine ⟨?_, Nat.ne_of_lt hi⟩
      change (d.function.addBlock _).2.blocks[i]? = _
      rw [Function.blocks_addBlock, List.getElem?_append_left hi]
  change ((d.opened.define _).function.onBlock d.opened.current _).blocks[i]? = _
  rw [Function.getElem?_onBlock, if_neg hopened.2]
  change (d.opened.function.onBlock d.opened.current _).blocks[i]? = _
  rw [Function.getElem?_onBlock, if_neg hopened.2, hopened.1]

theorem getElem?_endedBy {t : Terminator} {i : BlockId} (hc : i ≠ d.current) :
    (d.endedBy t).function.blocks[i]? = d.function.blocks[i]? := by
  change (d.function.onBlock d.current _).blocks[i]? = _
  rw [Function.getElem?_onBlock, if_neg hc]

/-- The blocks of a new construct are empty behind the branch to the first two of them. -/
theorem getElem?_fork {d' : Draft} {construct : String} {word : Operand} {g : BlockGroup}
    (hv : d.Valid) (hs : Build.fork construct word d = .ok g d') :
    ∀ k ∈ [g.first, g.second, g.last], d.function.blocks.length ≤ k ∧
      ∃ name, d'.function.blocks[k]? = some (.empty name) := by
  obtain ⟨_, rfl, rfl⟩ := Build.fork_eq_ok_iff.mp hs
  intro k hk
  have hgroup : d.function.blocks.length ≤ k ∧ k ≤ d.function.blocks.length + 2 := by
    simp only [List.mem_cons, List.not_mem_nil, or_false] at hk
    rcases hk with rfl | rfl | rfl <;> simp [group]
  obtain ⟨name, hb⟩ := getElem?_addGroup (d := d) construct "then" "else" "end" hgroup.1 hgroup.2
  refine ⟨hgroup.1, name, ?_⟩
  change ((d.addGroup construct "then" "else" "end").branched word _ _).function.blocks[k]? = _
  rw [getElem?_branched (List.getElem?_eq_some_iff.mp hb).1, hb]
  exact Nat.ne_of_gt (Nat.lt_of_lt_of_le hv hgroup.1)

theorem successors_branched {word : Operand} {t e i k : BlockId}
    (h : k ∈ (d.branched word t e).function.successors i) :
    k ∈ [t, e] ∨ k ∈ d.function.successors i := by
  have hlt := ((isOpen_iff_open _).mp
    (isOpen_define d.isOpen_opened (.compare .ne word (.const 0)))).1
  change k ∈ ((d.opened.define _).function.onBlock _ (.endedBy _)).successors i at h
  rw [Function.successors_endedBy hlt] at h
  split at h
  · exact .inl h
  · right
    rwa [Function.successors_congr (terminator?_define _ _ i),
      Function.successors_congr (terminator?_opened d i)] at h

end Blocks

theorem endedIfOpen_of_isOpen {d : Draft} (h : d.isOpen) (t : Terminator) :
    d.endedIfOpen t = d.endedBy t := if_pos h

theorem isOpen_append {d : Draft} (h : d.isOpen) (instr : Instr) : (d.append instr).isOpen := by
  obtain ⟨hlt, hnone⟩ := (isOpen_iff_open d).mp h
  refine (isOpen_iff_open _).mpr ⟨?_, (d.terminator?_append instr _).trans hnone⟩
  exact Nat.lt_of_lt_of_eq hlt (Function.length_onBlock ..).symm

theorem isOpen_emit {operation : Operation} {d d' : Draft} {v : Operand}
    (hs : Build.emit operation d = .ok v d') : d'.isOpen := by
  obtain ⟨_, _, rfl⟩ := Build.emit_eq_ok_iff.mp hs
  exact isOpen_define (isOpen_opened _) _

theorem isOpen_join {last exit : BlockId} {thenValue elseValue v : Operand} {d d' : Draft}
    (hs : Build.join last thenValue exit elseValue d = .ok v d') : d'.isOpen := by
  obtain ⟨elseExit, d₁, hl, hs⟩ := bind_eq_ok_iff.mp hs
  obtain ⟨_, d₂, hgo, hs⟩ := bind_eq_ok_iff.mp hs
  exact isOpen_emit hs

/-- An expression leaves an open block open, or ends in another open block. -/
theorem isOpen_emission {d d' : Draft} {known known' : List Typed}
    (hc : Emission d known d' known') (h : d.isOpen) : d'.isOpen := by
  induction hc with
  | refl | const | symbol | slot | string | declare => exact h
  | trans _ _ ih₁ ih₂ => exact ih₂ (ih₁ h)
  | emit _ _ hs => exact isOpen_emit hs
  | store _ _ hs =>
      obtain ⟨_, rfl⟩ := Build.store_eq_ok_iff.mp hs
      exact isOpen_append (isOpen_opened _) _
  | conditional _ _ _ _ _ _ _ hj => exact isOpen_join hj

/-- A block that is left alone while code is added elsewhere and when that code ends. -/
theorem Beside.kept {n : Nat} {c k : BlockId} {b : Block} {d d₁ : Draft} (h : Beside n c d d₁)
    (hb : d.function.blocks[k]? = some b) (hlt : k < n) (hne : k ≠ c) (t : Terminator) :
    k ≠ d₁.current ∧ (d₁.endedIfOpen t).function.blocks[k]? = some b := by
  have hcurrent : k ≠ d₁.current := by
    rintro rfl
    exact h.current.elim hne (Nat.not_le.mpr hlt)
  refine ⟨hcurrent, ?_⟩
  unfold Draft.endedIfOpen
  split
  · rw [getElem?_endedBy hcurrent, h.blocks k hlt hne, hb]
  · rw [h.blocks k hlt hne, hb]

/-- The drafts on the way through a conditional: behind the branch, at the ends of its arms, and
where they meet. -/
structure Conditional (g : BlockGroup) (i j : BlockId) (d₂ d₃ d₄ d₆ d₇ : Draft) : Prop where
  current : d₂.current = g.first
  first : ∃ name, d₂.function.blocks[g.first]? = some (.empty name)
  thenOpen : d₃.isOpen
  exit : i = d₃.current
  thenEnd : d₄ = d₃.endedBy (.branch g.last)
  second : ∃ name, d₄.function.blocks[g.second]? = some (.empty name)
  elseOpen : d₆.isOpen
  elseExit : j = d₆.current
  elseEnd : d₇ = d₆.endedBy (.branch g.last)
  last : ∃ name, d₇.function.blocks[g.last]? = some (.empty name)
  exits : i ≠ j

theorem conditional {d₁ d₂ d₃ d₄ d₆ d₇ : Draft} {construct : String} {word : Operand}
    {g : BlockGroup} {exit elseExit : BlockId} (hv : d₁.Valid)
    (hf : Build.fork construct word d₁ = .ok g d₂)
    (hb₃ : Beside d₂.function.blocks.length d₂.current d₂ d₃) (ho₃ : d₂.isOpen → d₃.isOpen)
    (hl : Build.leave g.last d₃ = .ok exit d₄)
    (hb₆ : Beside d₄.function.blocks.length g.second (d₄.goTo g.second) d₆)
    (ho₆ : (d₄.goTo g.second).isOpen → d₆.isOpen)
    (hl' : Build.leave g.last d₆ = .ok elseExit d₇) :
    Conditional g exit elseExit d₂ d₃ d₄ d₆ d₇ := by
  have hnew := getElem?_fork hv hf
  obtain ⟨_, hg, hd₂⟩ := Build.fork_eq_ok_iff.mp hf
  have hcurrent : d₂.current = g.first := hd₂ ▸ rfl
  have hfs : g.second ≠ g.first := hg ▸ Nat.succ_ne_self _
  have hfl : g.last ≠ g.first := hg ▸ Nat.ne_of_gt (Nat.lt_add_of_pos_right Nat.two_pos)
  have hsl : g.last ≠ g.second := hg ▸ Nat.succ_ne_self _
  obtain ⟨_, nf, hfirst⟩ := hnew g.first (.head _)
  obtain ⟨_, ns, hsecond⟩ := hnew g.second (.tail _ (.head _))
  obtain ⟨_, nl, hlast⟩ := hnew g.last (.tail _ (.tail _ (.head _)))
  have hopen₃ : d₃.isOpen := ho₃ (isOpen_iff.mpr ⟨_, hcurrent ▸ hfirst, rfl⟩)
  obtain ⟨_, hexit, hd₄⟩ := Build.leave_eq_ok_iff.mp hl
  rw [opened_of_isOpen hopen₃] at hd₄
  -- a new block other than the first stays empty while the first arm is compiled
  have hkept : ∀ {k b}, d₂.function.blocks[k]? = some b → k ≠ g.first →
      k ≠ d₃.current ∧ d₄.function.blocks[k]? = some b := by
    intro k b hb hk
    rw [hd₄, ← endedIfOpen_of_isOpen hopen₃]
    exact hb₃.kept hb (List.getElem?_eq_some_iff.mp hb).1 (hcurrent ▸ hk) _
  obtain ⟨hne, hsecond₄⟩ := hkept hsecond hfs
  obtain ⟨_, hlast₄⟩ := hkept hlast hfl
  have hopen₆ : d₆.isOpen := ho₆ (isOpen_iff.mpr ⟨_, hsecond₄, rfl⟩)
  obtain ⟨_, hexit', hd₇⟩ := Build.leave_eq_ok_iff.mp hl'
  rw [opened_of_isOpen hopen₆] at hd₇
  have hlt₄ := (List.getElem?_eq_some_iff.mp hlast₄).1
  have hlast₆ : g.last ≠ d₆.current := by
    intro he
    exact (he ▸ hb₆.current).elim hsl (Nat.not_le.mpr hlt₄)
  refine ⟨hcurrent, ⟨nf, hfirst⟩, hopen₃, hexit, hd₄, ⟨ns, hsecond₄⟩, hopen₆, hexit', hd₇,
    ⟨nl, ?_⟩, ?_⟩
  · rw [hd₇, getElem?_endedBy hlast₆, hb₆.blocks g.last hlt₄ hsl]
    exact hlast₄
  · rw [hexit, hexit']
    have hlt : d₃.current < d₄.function.blocks.length := by
      rw [hd₄]
      exact Nat.lt_of_lt_of_eq (Valid.of_isOpen hopen₃) (Function.length_onBlock ..).symm
    intro he
    exact (he ▸ hb₆.current).elim (Ne.symm hne) (Nat.not_le.mpr hlt)

end Draft
end BCompiler
