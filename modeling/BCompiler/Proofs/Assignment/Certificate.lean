import BCompiler.Proofs.Assignment.Access

/-!
Certificates of single assignment for functions under construction.

A certificate tells for each block which values it may rely on. Each way in which a function grows
keeps the certificate or extends it to new blocks: a new block relies on nothing but the stack slots
until it is said to rely on more, which is possible as long as no branch leads to it.
-/
namespace BCompiler

/-- New code comes after the accesses of a block that has not ended. -/
theorem Block.accesses_append {b : Block} {instr : Instr} (h : b.terminator = none)
    {origin : Option BlockId} :
    (b.append instr).accesses origin = b.accesses origin ++ instr.accesses origin := by
  simp [accesses, append, h]

theorem Block.accesses_endedBy {b : Block} {t : Terminator} (h : b.terminator = none)
    {origin : Option BlockId} :
    (b.endedBy t).accesses origin = b.accesses origin ++ t.uses.map .read := by
  simp [accesses, endedBy, h]

namespace Function

/-- The block holds no phi. -/
def PhiFree (f : Function) (i : BlockId) : Prop :=
  ∀ b, f.blocks[i]? = some b → ∀ x ∈ b.instrs, x.isPhi = false

theorem phiFree_of_empty {f : Function} {i : BlockId} {name : String}
    (h : f.blocks[i]? = some (.empty name)) : f.PhiFree i := by
  intro b hb x hx
  cases h.symm.trans hb
  cases hx

/-- A block that may be entered from anywhere: it relies on nothing but the stack slots. -/
structure Plain (rely : Reliance) (f : Function) (k : BlockId) : Prop where
  lt : k < f.blocks.length
  rely : ∀ n, ¬rely k n
  phiFree : f.PhiFree k

/-- A function under construction, with what its blocks rely on. -/
structure Sound (rely : Reliance) (f : Function) : Prop extends f.Certified rely where
  bounded : ∀ i, ∀ k ∈ f.successors i, k < f.blocks.length
  fresh : ∀ i n, rely i n → i < f.blocks.length
  once : f.definitions.Perm (List.range f.nextValue)
  top : ∃ b, f.blocks[0]? = some b ∧ f.slots ≤ b.instrs.length
  phiFree : f.PhiFree 0
  phisFirst : ∀ b ∈ f.blocks, b.instrs.Pairwise fun x y => y.isPhi → x.isPhi
  incoming : ∀ (k : BlockId) (b : Block), f.blocks[k]? = some b →
    ∀ (id : ValueId) (arms : List (Operand × BlockId)), Instr.define id (.phi arms) ∈ b.instrs →
      (arms.map Prod.snd).Nodup ∧ ∀ p, p ∈ arms.map Prod.snd ↔ k ∈ f.successors p

/-- What stays true of the blocks below `n` when a function grows. -/
structure Grows (n : Nat) (rely rely' : Reliance) (f g : Function) : Prop where
  length : f.blocks.length ≤ g.blocks.length
  rely : ∀ i < n, ∀ m, rely' i m ↔ rely i m
  slots : f.slotIds ⊆ g.slotIds
  definitions : ∀ i, f.definitionsIn i ⊆ g.definitionsIn i
  phiFree : ∀ i < n, f.PhiFree i → g.PhiFree i

variable {rely rely' : Reliance} {f g : Function} {n : Nat}

theorem Grows.refl (n : Nat) (rely : Reliance) (f : Function) : Grows n rely rely f f :=
  ⟨Nat.le_refl _, fun _ _ _ => .rfl, fun _ h => h, fun _ _ h => h, fun _ _ h => h⟩

theorem Grows.trans {rely'' : Reliance} {h : Function} (a : Grows n rely rely' f g)
    (b : Grows n rely' rely'' g h) : Grows n rely rely'' f h where
  length := Nat.le_trans a.length b.length
  rely i hi m := (b.rely i hi m).trans (a.rely i hi m)
  slots _ hm := b.slots (a.slots hm)
  definitions i _ hm := b.definitions i (a.definitions i hm)
  phiFree i hi hp := b.phiFree i hi (a.phiFree i hi hp)

theorem Grows.below {m : Nat} (h : Grows n rely rely' f g) (hm : m ≤ n) : Grows m rely rely' f g :=
  { h with
    rely := fun i hi => h.rely i (Nat.lt_of_lt_of_le hi hm)
    phiFree := fun i hi => h.phiFree i (Nat.lt_of_lt_of_le hi hm) }

theorem Plain.mono {k : BlockId} (hp : f.Plain rely k) (h : Grows n rely rely' f g) (hk : k < n) :
    g.Plain rely' k :=
  ⟨Nat.lt_of_lt_of_le hp.lt h.length, fun m hm => hp.rely m ((h.rely k hk m).mp hm),
    h.phiFree k hk hp.phiFree⟩

theorem AssignedAfter.imp {i : BlockId} {m : ValueId} (hm : f.AssignedAfter rely i m)
    (hrely : rely i m → rely' i m) (hslots : f.slotIds ⊆ g.slotIds)
    (hdefs : f.definitionsIn i ⊆ g.definitionsIn i) : g.AssignedAfter rely' i m := by
  rcases hm with hs | hr | hd
  · exact .inl (hslots hs)
  · exact .inr (.inl (hrely hr))
  · exact .inr (.inr (hdefs hd))

theorem AssignedBefore.imp {i : BlockId} {m : ValueId} (hm : f.AssignedBefore rely i m)
    (hrely : rely i m → rely' i m) (hslots : f.slotIds ⊆ g.slotIds) :
    g.AssignedBefore rely' i m := by
  rcases hm with ⟨h0, hs⟩ | hr
  · exact .inl ⟨h0, hslots hs⟩
  · exact .inr (hrely hr)

theorem AssignedAfter.mono {i : BlockId} {m : ValueId} (hm : f.AssignedAfter rely i m)
    (h : Grows n rely rely' f g) (hi : i < n) : g.AssignedAfter rely' i m :=
  hm.imp (h.rely i hi m).mpr h.slots (h.definitions i)

/-- As long as no block relies on more, what is assigned stays so in every block. -/
theorem AssignedAfter.grow {i : BlockId} {m : ValueId} (hm : f.AssignedAfter rely i m)
    (h : Grows n rely rely f g) : g.AssignedAfter rely i m :=
  hm.imp id h.slots (h.definitions i)

theorem AssignedBefore.grow {i : BlockId} {m : ValueId} (hm : f.AssignedBefore rely i m)
    (h : Grows n rely rely f g) : g.AssignedBefore rely i m :=
  hm.imp id h.slots

theorem Sound.covers_grow {i : BlockId} {b : Block} (hf : f.Sound rely) (h : Grows n rely rely f g)
    (hb : f.blocks[i]? = some b) : Covers (g.AssignedBefore rely i) (b.accesses none) :=
  (hf.covers i b hb).mono fun _ hm => hm.grow h

/-- What is assigned at the end of a block may be read there. -/
theorem Sound.covers_reads {i : BlockId} {b : Block} {values : List ValueId} (hf : f.Sound rely)
    (h : Grows n rely rely f g) (hb : f.blocks[i]? = some b)
    (huses : ∀ m ∈ values, f.AssignedAfter rely i m) :
    Covers (g.AssignedBefore rely i) (b.accesses none ++ values.map .read) := by
  refine Covers.append_iff.mpr ⟨hf.covers_grow h hb, Covers.reads_iff.mpr fun m hm => ?_⟩
  exact ((huses m hm).of_accesses hb).imp (fun hm => hm.grow h) id

theorem definitionsIn_of_getElem? {i : BlockId} {b : Block} (h : f.blocks[i]? = some b) :
    f.definitionsIn i = b.definitions := by
  unfold definitionsIn
  rw [h]

theorem lt_of_mem_successors {i k : BlockId} (h : k ∈ f.successors i) : i < f.blocks.length := by
  unfold successors terminator? at h
  cases hb : f.blocks[i]? with
  | none => simp [hb] at h
  | some b => exact (List.getElem?_eq_some_iff.mp hb).1

theorem successors_eq_nil {i : BlockId} (h : f.terminator? i = none) : f.successors i = [] := by
  unfold successors
  rw [h]

/-- What a block with an instruction more assigns. -/
theorem definitions_append (instr : Instr) (b : Block) :
    (b.append instr).definitions = b.definitions ++ instr.definition?.toList := by
  unfold Block.definitions Block.append
  rw [List.filterMap_append]
  cases h : instr.definition? <;> simp [h]

theorem pairwise_isPhi {instrs : List Instr} (h : ∀ x ∈ instrs, x.isPhi = false) :
    instrs.Pairwise fun x y => y.isPhi → x.isPhi := by
  induction instrs with
  | nil => exact .nil
  | cons x instrs ih =>
      refine .cons (fun y hy hp => ?_) (ih fun y hy => h y (.tail _ hy))
      rw [h y (.tail _ hy)] at hp
      cases hp

theorem flatMap_modify_perm {α β : Type} {g : α → List β} {change : α → α} {extra : List β}
    {l : List α} {i : Nat} {a : α} (ha : l[i]? = some a)
    (h : (g (change a)).Perm (extra ++ g a)) :
    ((l.modify i change).flatMap g).Perm (extra ++ l.flatMap g) := by
  induction l generalizing i with
  | nil => cases ha
  | cons b l ih =>
      cases i with
      | zero =>
          cases ha
          rw [List.modify_zero_cons, List.flatMap_cons, List.flatMap_cons, ← List.append_assoc]
          exact h.append_right _
      | succ i =>
          rw [List.modify_succ_cons, List.flatMap_cons, List.flatMap_cons]
          exact ((ih ha).append_left _).trans (List.perm_append_comm_assoc _ _ _)

theorem successors_congr {i : BlockId} (h : g.terminator? i = f.terminator? i) :
    g.successors i = f.successors i := by
  unfold successors
  rw [h]

section AddBlock

variable (name : String)

/-- A block of a function with a new block is an old one or the new one. -/
theorem getElem?_addBlock {i : BlockId} {b : Block}
    (h : (f.addBlock name).2.blocks[i]? = some b) :
    f.blocks[i]? = some b ∨ i = f.blocks.length ∧ b = .empty name := by
  rw [blocks_addBlock] at h
  by_cases hi : i < f.blocks.length
  · exact .inl (List.getElem?_append_left hi ▸ h)
  · rw [List.getElem?_append_right (Nat.not_lt.mp hi)] at h
    obtain ⟨hlt, rfl⟩ := List.getElem?_eq_some_iff.mp h
    have hi' : i = f.blocks.length :=
      Nat.le_antisymm (Nat.sub_eq_zero_iff_le.mp (Nat.lt_one_iff.mp hlt)) (Nat.not_lt.mp hi)
    subst hi'
    exact .inr ⟨rfl, by simp⟩

theorem getElem?_addBlock_of_eq_some {i : BlockId} {b : Block} (h : f.blocks[i]? = some b) :
    (f.addBlock name).2.blocks[i]? = some b := by
  rw [blocks_addBlock, List.getElem?_append_left (List.getElem?_eq_some_iff.mp h).1, h]

theorem Sound.grows_addBlock (h : f.Sound rely) :
    Grows f.blocks.length rely rely f (f.addBlock name).2 where
  length := by simp
  rely _ _ _ := .rfl
  slots := by
    obtain ⟨b, hb, _⟩ := h.top
    intro n hn
    unfold slotIds at hn ⊢
    rw [hb] at hn
    rw [getElem?_addBlock_of_eq_some name hb]
    exact hn
  definitions i n hn := by
    unfold definitionsIn at hn ⊢
    cases hb : f.blocks[i]? with
    | none => rw [hb] at hn; cases hn
    | some b =>
        rw [hb] at hn
        rw [getElem?_addBlock_of_eq_some name hb]
        exact hn
  phiFree i hi hp b hb := by
    rcases getElem?_addBlock name hb with hb | ⟨rfl, _⟩
    · exact hp b hb
    · exact absurd hi (Nat.lt_irrefl _)

theorem successors_addBlock (i : BlockId) :
    (f.addBlock name).2.successors i = f.successors i :=
  successors_congr (terminator?_addBlock f name i)

theorem Sound.addBlock (h : f.Sound rely) : (f.addBlock name).2.Sound rely where
  entry := h.entry
  covers i b hb := by
    rcases getElem?_addBlock name hb with hb | ⟨_, rfl⟩
    · exact h.covers_grow (h.grows_addBlock name) hb
    · trivial
  edges i k hk n hn := by
    rw [successors_addBlock] at hk
    exact (h.edges i k hk n hn).grow (h.grows_addBlock name)
  arms k b hb id arms hmem arm harm n hn := by
    rcases getElem?_addBlock name hb with hb | ⟨_, rfl⟩
    · exact (h.arms k b hb id arms hmem arm harm n hn).grow (h.grows_addBlock name)
    · cases hmem
  bounded i k hk := by
    rw [successors_addBlock] at hk
    exact Nat.lt_of_lt_of_le (h.bounded i k hk) (h.grows_addBlock name).length
  fresh i n hn := Nat.lt_of_lt_of_le (h.fresh i n hn) (h.grows_addBlock name).length
  once := by
    have hdefs : (f.addBlock name).2.definitions = f.definitions := by
      simp [definitions, Block.definitions, Block.empty]
    rw [hdefs]
    exact h.once
  top := by
    obtain ⟨b, hb, htop⟩ := h.top
    exact ⟨b, getElem?_addBlock_of_eq_some name hb, htop⟩
  phiFree := by
    obtain ⟨b, hb, _⟩ := h.top
    exact (h.grows_addBlock name).phiFree 0 (List.getElem?_eq_some_iff.mp hb).1 h.phiFree
  phisFirst b hb := by
    rw [blocks_addBlock] at hb
    rcases List.mem_append.mp hb with hb | hb
    · exact h.phisFirst b hb
    · cases List.mem_singleton.mp hb
      exact .nil
  incoming k b hb id arms hmem := by
    rcases getElem?_addBlock name hb with hb | ⟨_, rfl⟩
    · simpa only [successors_addBlock] using h.incoming k b hb id arms hmem
    · cases hmem

/-- A new block may be entered from anywhere. -/
theorem Sound.plain_addBlock (h : f.Sound rely) :
    (f.addBlock name).2.Plain rely f.blocks.length := by
  refine ⟨by simp, fun n hn => Nat.lt_irrefl _ (h.fresh _ n hn), ?_⟩
  intro b hb x hx
  rcases getElem?_addBlock name hb with hb | ⟨_, rfl⟩
  · exact absurd (List.getElem?_eq_some_iff.mp hb).1 (Nat.lt_irrefl _)
  · cases hx

end AddBlock

section OnBlock

variable {i : BlockId} {change : Block → Block}

theorem getElem?_onBlock_eq_some {j : BlockId} {b' : Block} :
    (f.onBlock i change).blocks[j]? = some b' ↔
      ∃ b, f.blocks[j]? = some b ∧ b' = if j = i then change b else b := by
  rw [getElem?_onBlock]
  by_cases hj : j = i
  · simp only [hj, if_true, Option.map_eq_some_iff]
    exact exists_congr fun b => and_congr_right fun _ => eq_comm
  · simp [hj]

theorem definitionsIn_onBlock (h : ∀ b, b.definitions ⊆ (change b).definitions) (j : BlockId) :
    f.definitionsIn j ⊆ (f.onBlock i change).definitionsIn j := by
  intro m hm
  unfold definitionsIn at hm ⊢
  rw [getElem?_onBlock]
  cases hb : f.blocks[j]? with
  | none => rw [hb] at hm; cases hm
  | some b =>
      rw [hb] at hm
      by_cases hj : j = i
      · rw [if_pos hj]
        exact h b hm
      · rw [if_neg hj]
        exact hm

theorem phiFree_onBlock {j : BlockId} (h : ∀ b, j = i → (∀ x ∈ b.instrs, x.isPhi = false) →
      ∀ x ∈ (change b).instrs, x.isPhi = false) (hp : f.PhiFree j) :
    (f.onBlock i change).PhiFree j := by
  intro b' hb'
  obtain ⟨b, hb, rfl⟩ := getElem?_onBlock_eq_some.mp hb'
  split
  · next hj => exact h b hj (hp b hb)
  · exact hp b hb

/-- The stack slots stay where they are if the instructions at the top of the first block do. -/
theorem slotIds_onBlock (h : ∀ b, f.blocks[i]? = some b → i = 0 →
      (change b).instrs.take f.slots = b.instrs.take f.slots) :
    (f.onBlock i change).slotIds = f.slotIds := by
  unfold slotIds
  rw [getElem?_onBlock]
  by_cases hi : 0 = i
  · subst hi
    rw [if_pos rfl]
    cases hb : f.blocks[0]? with
    | none => rfl
    | some b =>
        change ((change b).instrs.take f.slots).filterMap _ = _
        rw [h b hb rfl]
  · rw [if_neg hi]
    rfl

/-- Add an instruction at the end of a block that has not ended. -/
theorem Sound.grows_append {instr : Instr} (h : f.Sound rely) (next : ValueId)
    (hn : instr.isPhi = false ∨ n ≤ i) :
    Grows n rely rely f { f.onBlock i (.append instr) with nextValue := next } where
  length := Nat.le_of_eq (length_onBlock ..).symm
  rely _ _ _ := .rfl
  slots := by
    refine fun m hm => (slotIds_onBlock (f := f) ?_).symm ▸ hm
    rintro b hb rfl
    obtain ⟨b₀, hb₀, htop⟩ := h.top
    cases hb₀.symm.trans hb
    exact List.take_append_of_le_length htop
  definitions := definitionsIn_onBlock fun b => by
    rw [definitions_append]
    exact List.subset_append_left _ _
  phiFree j hj := by
    refine phiFree_onBlock ?_
    rintro b rfl hb x hx
    rcases List.mem_append.mp hx with hx | hx
    · exact hb x hx
    · cases List.mem_singleton.mp hx
      exact hn.resolve_right (Nat.not_le.mpr hj)

/-- What a phi needs to stand at the end of a block: it is the first instruction there, and has one
operand for each block that control may come from. -/
structure PhiReady (rely : Reliance) (f : Function) (i : BlockId)
    (arms : List (Operand × BlockId)) : Prop where
  ne_zero : i ≠ 0
  first : ∀ b, f.blocks[i]? = some b → b.instrs = []
  nodup : (arms.map Prod.snd).Nodup
  incoming : ∀ p, p ∈ arms.map Prod.snd ↔ i ∈ f.successors p
  arms : ∀ arm ∈ arms, ∀ m ∈ arm.1.uses, f.AssignedAfter rely arm.2 m

theorem successors_append {instr : Instr} {next : ValueId} (j : BlockId) :
    ({ f.onBlock i (.append instr) with nextValue := next } : Function).successors j =
      f.successors j := by
  have hsame : (f.onBlock i (.append instr)).successors j = f.successors j :=
    successors_congr (terminator?_onBlock f i j fun _ => rfl)
  rw [← hsame]
  rfl

/-- Whatever stands in a block after an instruction was added stood there before, but for that
instruction. -/
theorem mem_append {instr x : Instr} {j : BlockId} {b' : Block}
    (hb' : (f.onBlock i (.append instr)).blocks[j]? = some b') (hx : x ∈ b'.instrs) :
    (∃ b, f.blocks[j]? = some b ∧ x ∈ b.instrs) ∨ j = i ∧ x = instr := by
  obtain ⟨b, hb, rfl⟩ := getElem?_onBlock_eq_some.mp hb'
  split at hx
  · next hj =>
      rcases List.mem_append.mp hx with hx | hx
      · exact .inl ⟨b, hb, hx⟩
      · exact .inr ⟨hj, List.mem_singleton.mp hx⟩
  · exact .inl ⟨b, hb, hx⟩

theorem Sound.append {instr : Instr} {next : ValueId} (h : f.Sound rely)
    (hopen : f.terminator? i = none) (hi : i < f.blocks.length)
    (huses : ∀ m ∈ instr.uses none, f.AssignedAfter rely i m)
    (hnext : (instr.definition?.toList ++ List.range f.nextValue).Perm (List.range next))
    (hphi : ∀ id arms, instr = .define id (.phi arms) → f.PhiReady rely i arms) :
    ({ f.onBlock i (.append instr) with nextValue := next } : Function).Sound rely := by
  have hg : Grows 0 rely rely f { f.onBlock i (.append instr) with nextValue := next } :=
    h.grows_append next (.inr (Nat.zero_le _))
  exact {
    entry := h.entry
    covers := by
      intro j b' hb'
      obtain ⟨b, hb, rfl⟩ := getElem?_onBlock_eq_some.mp hb'
      split
      · next hj =>
          subst hj
          rw [terminator?, hb] at hopen
          rw [Block.accesses_append hopen, Instr.accesses, ← List.append_assoc]
          exact Covers.append_iff.mpr ⟨h.covers_reads hg hb huses, .assigns _⟩
      · exact h.covers_grow hg hb
    edges := by
      intro j k hk m hm
      rw [successors_append] at hk
      exact (h.edges j k hk m hm).grow hg
    arms := by
      intro k b' hb' v arms hmem arm harm m hm
      rcases mem_append hb' hmem with ⟨b, hb, hmem⟩ | ⟨rfl, he⟩
      · exact (h.arms k b hb v arms hmem arm harm m hm).grow hg
      · exact ((hphi v arms he.symm).arms arm harm m hm).grow hg
    bounded := by
      intro j k hk
      rw [successors_append] at hk
      exact Nat.lt_of_lt_of_le (h.bounded j k hk) hg.length
    fresh := fun j m hm => Nat.lt_of_lt_of_le (h.fresh j m hm) hg.length
    once := by
      have hdefs : (f.onBlock i (.append instr)).definitions.Perm
          (instr.definition?.toList ++ f.definitions) := by
        refine flatMap_modify_perm (List.getElem?_eq_getElem hi) ?_
        rw [definitions_append]
        exact List.perm_append_comm
      exact hdefs.trans ((h.once.append_left _).trans hnext)
    top := by
      obtain ⟨b₀, hb₀, htop⟩ := h.top
      refine ⟨_, getElem?_onBlock_eq_some.mpr ⟨b₀, hb₀, rfl⟩, ?_⟩
      split
      · exact Nat.le_trans htop (by simp [Block.append])
      · exact htop
    phiFree := by
      refine phiFree_onBlock ?_ h.phiFree
      rintro b rfl hb x hx
      rcases List.mem_append.mp hx with hx | hx
      · exact hb x hx
      · cases List.mem_singleton.mp hx
        rw [Bool.eq_false_iff]
        intro hp
        obtain ⟨v, arms, he⟩ := Instr.isPhi_iff.mp hp
        exact (hphi v arms he).ne_zero rfl
    phisFirst := by
      intro b' hb'
      obtain ⟨j, hj⟩ := List.getElem?_of_mem hb'
      obtain ⟨b, hb, rfl⟩ := getElem?_onBlock_eq_some.mp hj
      have hfirst := h.phisFirst b (List.mem_of_getElem? hb)
      split
      · next hj =>
          subst hj
          refine List.pairwise_append.mpr ⟨hfirst, List.pairwise_singleton _ _, ?_⟩
          intro x hx y hy hp
          cases List.mem_singleton.mp hy
          obtain ⟨v, arms, he⟩ := Instr.isPhi_iff.mp hp
          rw [(hphi v arms he).first b hb] at hx
          cases hx
      · exact hfirst
    incoming := by
      intro k b' hb' v arms hmem
      simp only [successors_append]
      rcases mem_append hb' hmem with ⟨b, hb, hmem⟩ | ⟨rfl, he⟩
      · exact h.incoming k b hb v arms hmem
      · have hready := hphi v arms he.symm
        exact ⟨hready.nodup, hready.incoming⟩ }

/-- End a block. -/
theorem grows_endedBy (rely : Reliance) (f : Function) (i : BlockId) (t : Terminator) (n : Nat) :
    Grows n rely rely f (f.onBlock i (.endedBy t)) where
  length := Nat.le_of_eq (length_onBlock ..).symm
  rely _ _ _ := .rfl
  slots := by
    have hsame : (f.onBlock i (.endedBy t)).slotIds = f.slotIds := slotIds_onBlock fun _ _ _ => rfl
    exact fun m hm => hsame ▸ hm
  definitions := definitionsIn_onBlock fun _ _ hm => hm
  phiFree _ _ := phiFree_onBlock fun _ _ hb => hb

theorem terminator?_endedBy {t : Terminator} (hi : i < f.blocks.length) (j : BlockId) :
    (f.onBlock i (.endedBy t)).terminator? j = if j = i then some t else f.terminator? j := by
  unfold terminator?
  rw [getElem?_onBlock]
  split
  · next hj =>
      subst hj
      rw [List.getElem?_eq_getElem hi]
      rfl
  · rfl

theorem successors_endedBy {t : Terminator} (hi : i < f.blocks.length) (j : BlockId) :
    (f.onBlock i (.endedBy t)).successors j =
      if j = i then t.successors else f.successors j := by
  unfold successors
  rw [terminator?_endedBy hi]
  by_cases hj : j = i
  · rw [if_pos hj, if_pos hj]
  · rw [if_neg hj, if_neg hj]

/-- Ending a block leaves its instructions and those of the others. -/
theorem instrs_endedBy {t : Terminator} {j : BlockId} {b' : Block}
    (hb' : (f.onBlock i (.endedBy t)).blocks[j]? = some b') :
    ∃ b, f.blocks[j]? = some b ∧ b'.instrs = b.instrs := by
  obtain ⟨b, hb, rfl⟩ := getElem?_onBlock_eq_some.mp hb'
  exact ⟨b, hb, by split <;> rfl⟩

theorem Sound.endedBy {t : Terminator} (h : f.Sound rely) (hopen : f.terminator? i = none)
    (hi : i < f.blocks.length) (huses : ∀ m ∈ t.uses, f.AssignedAfter rely i m)
    (htargets : ∀ k ∈ t.successors, k < f.blocks.length ∧ f.PhiFree k ∧
      ∀ m, rely k m → f.AssignedAfter rely i m) : (f.onBlock i (.endedBy t)).Sound rely := by
  have hg := grows_endedBy rely f i t 0
  have hsucc := successors_endedBy (f := f) (t := t) hi
  exact {
    entry := h.entry
    covers := by
      intro j b' hb'
      obtain ⟨b, hb, rfl⟩ := getElem?_onBlock_eq_some.mp hb'
      split
      · next hj =>
          subst hj
          rw [terminator?, hb] at hopen
          rw [Block.accesses_endedBy hopen]
          exact h.covers_reads hg hb huses
      · exact h.covers_grow hg hb
    edges := by
      intro j k hk m hm
      rw [hsucc] at hk
      split at hk
      · next hj =>
          subst hj
          exact ((htargets k hk).2.2 m hm).grow hg
      · exact (h.edges j k hk m hm).grow hg
    arms := by
      intro k b' hb' v arms hmem arm harm m hm
      obtain ⟨b, hb, hinstrs⟩ := instrs_endedBy hb'
      exact (h.arms k b hb v arms (hinstrs ▸ hmem) arm harm m hm).grow hg
    bounded := by
      intro j k hk
      rw [hsucc] at hk
      rw [length_onBlock]
      split at hk
      · exact (htargets k hk).1
      · exact h.bounded j k hk
    fresh := fun j m hm => Nat.lt_of_lt_of_le (h.fresh j m hm) hg.length
    once := by
      have hdefs : (f.onBlock i (.endedBy t)).definitions.Perm ([] ++ f.definitions) :=
        flatMap_modify_perm (List.getElem?_eq_getElem hi) (.refl _)
      exact hdefs.trans h.once
    top := by
      obtain ⟨b₀, hb₀, htop⟩ := h.top
      refine ⟨_, getElem?_onBlock_eq_some.mpr ⟨b₀, hb₀, rfl⟩, ?_⟩
      split <;> exact htop
    phiFree := phiFree_onBlock (fun _ _ hb => hb) h.phiFree
    phisFirst := by
      intro b' hb'
      obtain ⟨j, hj⟩ := List.getElem?_of_mem hb'
      obtain ⟨b, hb, hinstrs⟩ := instrs_endedBy hj
      rw [hinstrs]
      exact h.phisFirst b (List.mem_of_getElem? hb)
    incoming := by
      intro k b' hb' v arms hmem
      obtain ⟨b, hb, hinstrs⟩ := instrs_endedBy hb'
      rw [hinstrs] at hmem
      obtain ⟨hnodup, hinc⟩ := h.incoming k b hb v arms hmem
      refine ⟨hnodup, fun p => ?_⟩
      rw [hinc p, hsucc]
      split
      · next hp =>
          -- the new branches lead to blocks without phis
          subst hp
          rw [successors_eq_nil hopen]
          refine iff_of_false List.not_mem_nil fun hk => ?_
          have hfree := (htargets k hk).2.1 b hb _ hmem
          cases hfree
      · rfl }

end OnBlock

section WithSlot

variable (words : Option UInt64)

theorem insertIdx_append {α : Type} (x : α) (before after : List α) :
    (before ++ after).insertIdx before.length x = before ++ x :: after := by
  induction before with
  | nil => rfl
  | cons a before ih => simp [ih]

/-- The first block with one more stack slot. -/
theorem Sound.withSlot_entry (h : f.Sound rely) :
    ∃ b before after, f.blocks[0]? = some b ∧ b.instrs = before ++ after ∧
      before.length = f.slots ∧ (f.withSlot words).blocks[0]? =
        some { b with instrs := before ++ .define f.nextValue (.alloca words) :: after } := by
  obtain ⟨b, hb, htop⟩ := h.top
  have hlen : (b.instrs.take f.slots).length = f.slots := by simp [htop]
  have hinsert : b.instrs.insertIdx f.slots (.define f.nextValue (.alloca words)) =
      b.instrs.take f.slots ++ .define f.nextValue (.alloca words) :: b.instrs.drop f.slots := by
    conv => lhs; rw [← List.take_append_drop f.slots b.instrs]
    conv => lhs; arg 2; rw [← hlen]
    exact insertIdx_append _ _ _
  refine ⟨b, b.instrs.take f.slots, b.instrs.drop f.slots, hb,
    (List.take_append_drop _ _).symm, hlen, ?_⟩
  rw [← hinsert]
  exact getElem?_onBlock_eq_some.mpr ⟨b, hb, rfl⟩

theorem Sound.slotIds_withSlot (h : f.Sound rely) :
    (f.withSlot words).slotIds = f.slotIds ++ [f.nextValue] := by
  obtain ⟨b, before, after, hb, hinstrs, hlen, hnew⟩ := h.withSlot_entry words
  unfold slotIds
  rw [hnew, hb]
  change ((before ++ _ :: after).take (f.slots + 1)).filterMap _ =
    (b.instrs.take f.slots).filterMap _ ++ _
  rw [hinstrs, ← hlen, List.take_left, List.take_length_add_append]
  simp [Instr.definition?]

/-- Whatever stands in a block of the function with a new slot stood there before, but for the
slot. -/
theorem Sound.mem_withSlot (h : f.Sound rely) {j : BlockId} {b' : Block}
    (hb' : (f.withSlot words).blocks[j]? = some b') {x : Instr} (hx : x ∈ b'.instrs) :
    (∃ b, f.blocks[j]? = some b ∧ x ∈ b.instrs) ∨ x = .define f.nextValue (.alloca words) := by
  obtain ⟨b, hb, rfl⟩ := getElem?_onBlock_eq_some.mp hb'
  split at hx
  · next hj =>
      subst hj
      obtain ⟨b₀, hb₀, htop⟩ := h.top
      cases hb₀.symm.trans hb
      rcases (List.mem_insertIdx htop).mp hx with hx | hx
      · exact .inr hx
      · exact .inl ⟨b, hb, hx⟩
  · exact .inl ⟨b, hb, hx⟩

theorem Sound.grows_withSlot (h : f.Sound rely) (n : Nat) :
    Grows n rely rely f (f.withSlot words) where
  length := Nat.le_of_eq (length_onBlock ..).symm
  rely _ _ _ := .rfl
  slots := by
    rw [h.slotIds_withSlot]
    exact List.subset_append_left _ _
  definitions j := by
    intro m hm
    cases hb : f.blocks[j]? with
    | none =>
        unfold definitionsIn at hm
        rw [hb] at hm
        cases hm
    | some b =>
        rw [definitionsIn_of_getElem? hb] at hm
        by_cases hj : j = 0
        · subst hj
          obtain ⟨b₀, before, after, hb₀, hinstrs, _, hnew⟩ := h.withSlot_entry words
          cases hb₀.symm.trans hb
          rw [definitionsIn_of_getElem? hnew]
          unfold Block.definitions at hm ⊢
          rw [hinstrs] at hm
          simp only [List.filterMap_append, List.mem_append, List.filterMap_cons] at hm ⊢
          exact hm.imp id (.tail _)
        · have hsame : (f.withSlot words).blocks[j]? = some b :=
            getElem?_onBlock_eq_some.mpr ⟨b, hb, (if_neg hj).symm⟩
          rw [definitionsIn_of_getElem? hsame]
          exact hm
  phiFree j _ hp b' hb' x hx := by
    rcases h.mem_withSlot words hb' hx with ⟨b, hb, hx⟩ | rfl
    · exact hp b hb x hx
    · rfl

theorem successors_withSlot (j : BlockId) : (f.withSlot words).successors j = f.successors j :=
  successors_congr (terminator?_onBlock f 0 j fun _ => rfl)

/-- A new slot is no phi. -/
theorem Sound.phi_mem_withSlot (h : f.Sound rely) {k : BlockId} {b' : Block}
    (hb' : (f.withSlot words).blocks[k]? = some b') {v : ValueId}
    {arms : List (Operand × BlockId)} (hmem : .define v (.phi arms) ∈ b'.instrs) :
    ∃ b, f.blocks[k]? = some b ∧ .define v (.phi arms) ∈ b.instrs := by
  rcases h.mem_withSlot words hb' hmem with hold | hslot
  · exact hold
  · cases hslot

/-- A new slot takes the next number. -/
theorem Sound.once_withSlot (h : f.Sound rely) :
    (f.withSlot words).definitions.Perm (List.range (f.withSlot words).nextValue) := by
  obtain ⟨b, hb, htop⟩ := h.top
  have hdefs : (f.withSlot words).definitions.Perm ([f.nextValue] ++ f.definitions) :=
    flatMap_modify_perm hb ((List.perm_insertIdx _ _ htop).filterMap _)
  refine hdefs.trans ((h.once.append_left _).trans ?_)
  change (f.nextValue :: List.range f.nextValue).Perm (List.range (f.nextValue + 1))
  rw [List.range_succ]
  exact (List.perm_append_singleton _ _).symm

theorem Sound.withSlot (h : f.Sound rely) : (f.withSlot words).Sound rely := by
  have hg := h.grows_withSlot words 1
  have hfree := hg.phiFree 0 Nat.zero_lt_one h.phiFree
  obtain ⟨b₀, before, after, hb₀, hinstrs, hlen, hnew⟩ := h.withSlot_entry words
  exact {
    entry := h.entry
    covers := by
      intro j b' hb'
      by_cases hj : j = 0
      · subst hj
        cases hnew.symm.trans hb'
        have hcovers := h.covers_grow hg hb₀
        unfold Block.accesses at hcovers ⊢
        rw [hinstrs, List.flatMap_append, List.append_assoc, Covers.append_iff] at hcovers
        rw [List.flatMap_append, List.append_assoc, Covers.append_iff, List.flatMap_cons,
          List.append_assoc, Covers.append_iff]
        exact ⟨hcovers.1, .assigns [f.nextValue], hcovers.2.mono fun m hm => .inl hm⟩
      · obtain ⟨b, hb, rfl⟩ := getElem?_onBlock_eq_some.mp hb'
        rw [if_neg hj]
        exact h.covers_grow hg hb
    edges := by
      intro j k hk m hm
      rw [successors_withSlot] at hk
      exact (h.edges j k hk m hm).grow hg
    arms := by
      intro k b' hb' v arms hmem arm harm m hm
      obtain ⟨b, hb, hmem⟩ := h.phi_mem_withSlot words hb' hmem
      exact (h.arms k b hb v arms hmem arm harm m hm).grow hg
    bounded := by
      intro j k hk
      rw [successors_withSlot] at hk
      exact Nat.lt_of_lt_of_le (h.bounded j k hk) hg.length
    fresh := fun j m hm => Nat.lt_of_lt_of_le (h.fresh j m hm) hg.length
    once := h.once_withSlot words
    top := by
      refine ⟨_, hnew, ?_⟩
      change f.slots + 1 ≤ (before ++ _ :: after).length
      rw [List.length_append, hlen, List.length_cons]
      omega
    phiFree := hfree
    phisFirst := by
      intro b' hb'
      obtain ⟨j, hj⟩ := List.getElem?_of_mem hb'
      by_cases h0 : j = 0
      · subst h0
        exact pairwise_isPhi (hfree b' hj)
      · obtain ⟨b, hb, rfl⟩ := getElem?_onBlock_eq_some.mp hj
        rw [if_neg h0]
        exact h.phisFirst b (List.mem_of_getElem? hb)
    incoming := by
      intro k b' hb' v arms hmem
      obtain ⟨b, hb, hmem⟩ := h.phi_mem_withSlot words hb' hmem
      simpa only [successors_withSlot] using h.incoming k b hb v arms hmem }

end WithSlot

/-- Let blocks that no branch leads to yet rely on more values. -/
theorem Sound.extend (h : f.Sound rely) (blocks : List BlockId) (P : ValueId → Prop)
    (hlt : ∀ k ∈ blocks, k < f.blocks.length) (hzero : 0 ∉ blocks)
    (hnew : ∀ i, ∀ k ∈ blocks, k ∉ f.successors i) :
    f.Sound fun i m => rely i m ∨ i ∈ blocks ∧ P m := by
  refine { h with entry := ?_, covers := ?_, edges := ?_, arms := ?_, fresh := ?_ }
  · rintro m (hm | ⟨h0, _⟩)
    · exact h.entry m hm
    · exact hzero h0
  · exact fun i b hb => (h.covers i b hb).mono fun m hm => hm.imp .inl fun _ hs => hs
  · rintro i k hk m (hm | ⟨hb, _⟩)
    · exact (h.edges i k hk m hm).imp .inl (fun _ hs => hs) fun _ hd => hd
    · exact absurd hk (hnew i k hb)
  · intro k b hb v arms hmem arm harm m hm
    exact (h.arms k b hb v arms hmem arm harm m hm).imp .inl (fun _ hs => hs) fun _ hd => hd
  · rintro i m (hm | ⟨hb, _⟩)
    · exact h.fresh i m hm
    · exact hlt i hb

end Function
end BCompiler
