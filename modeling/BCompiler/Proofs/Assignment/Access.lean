import BCompiler.Proofs.Emission

/-!
Assignments and reads along the paths of a function.

A path begins at the first block and goes from block to block as their terminators allow. Running
along it assigns and reads values in some order; a phi reads the operand of the block that control
came from and no other.
-/
namespace BCompiler

/-- What running an instruction does to one value. -/
inductive Access where
  | assign (id : ValueId)
  | read (id : ValueId)
  deriving DecidableEq, Repr

/-- The values that an operand reads. -/
def Operand.uses : Operand → List ValueId
  | .value id => [id]
  | _ => []

/-- The values that an operation reads if control came from the block `origin`. -/
def Operation.uses (origin : Option BlockId) : Operation → List ValueId
  | .phi incoming =>
    (incoming.filter fun arm => some arm.2 == origin).flatMap fun arm => arm.1.uses
  | operation => operation.demands.flatMap fun x => x.2.uses

namespace Instr

def isPhi : Instr → Bool
  | define _ (.phi _) => true
  | _ => false

/-- The value that an instruction assigns. -/
def definition? : Instr → Option ValueId
  | define id _ => some id
  | store _ _ => none

/-- The values that an instruction reads if control came from the block `origin`. -/
def uses (origin : Option BlockId) : Instr → List ValueId
  | define _ operation => operation.uses origin
  | store value address => value.uses ++ address.uses

/-- An instruction reads first and assigns last. -/
def accesses (origin : Option BlockId) (instr : Instr) : List Access :=
  (instr.uses origin).map .read ++ instr.definition?.toList.map .assign

end Instr

def Terminator.uses : Terminator → List ValueId
  | .branch _ => []
  | .condBranch bit _ _ => bit.uses
  | .switch value _ _ => value.uses
  | .ret value => value.uses

namespace Block

/-- The values that a block assigns. -/
def definitions (b : Block) : List ValueId := b.instrs.filterMap Instr.definition?

def accesses (origin : Option BlockId) (b : Block) : List Access :=
  b.instrs.flatMap (Instr.accesses origin) ++
    ((b.terminator.map Terminator.uses).getD []).map .read

end Block

namespace Function

/-- The values that a function assigns, one entry for each assignment. -/
def definitions (f : Function) : List ValueId := f.blocks.flatMap Block.definitions

/-- The blocks that a block may run after. -/
def predecessors (f : Function) (k : BlockId) : List BlockId :=
  (List.range f.blocks.length).filter fun i => f.successors i |>.contains k

/-- Each block of the list may run after the one before it. -/
def Follows (f : Function) : List BlockId → Prop
  | i :: k :: path => k ∈ f.successors i ∧ f.Follows (k :: path)
  | _ => True

/-- A path through the function from its first block. -/
def IsPath (f : Function) (path : List BlockId) : Prop := path.head? = some 0 ∧ f.Follows path

/-- The accesses along a path, entered from the block `origin`. -/
def accesses (f : Function) : Option BlockId → List BlockId → List Access
  | _, [] => []
  | origin, i :: path =>
    ((f.blocks[i]?.map (Block.accesses origin)).getD []) ++ f.accesses (some i) path

end Function

/-- Every value that is read was assigned before. -/
def AssignedFirst (trace : List Access) : Prop :=
  ∀ before n after, trace = before ++ .read n :: after → .assign n ∈ before

/-- Static single assignment: every value number is assigned by one instruction, no path reads a
value before it is assigned, and the phis stand first in their blocks, with one operand for each
block that control may come from. -/
structure Function.SingleAssignment (f : Function) : Prop where
  once : f.definitions.Perm (List.range f.nextValue)
  assigned : ∀ path, f.IsPath path → AssignedFirst (f.accesses none path)
  phisFirst : ∀ b ∈ f.blocks, b.instrs.Pairwise fun x y => y.isPhi → x.isPhi
  incoming : ∀ (k : BlockId) (b : Block), f.blocks[k]? = some b →
    ∀ (id : ValueId) (arms : List (Operand × BlockId)), Instr.define id (.phi arms) ∈ b.instrs →
      (arms.map Prod.snd).Perm (f.predecessors k)

/-- Every value that is read is among the given ones or was assigned before. -/
def Covers (P : ValueId → Prop) : List Access → Prop
  | [] => True
  | .read n :: trace => P n ∧ Covers P trace
  | .assign n :: trace => Covers (fun m => m = n ∨ P m) trace

namespace Covers

variable {P Q : ValueId → Prop}

theorem mono {trace : List Access} (hPQ : ∀ n, P n → Q n) (h : Covers P trace) :
    Covers Q trace := by
  induction trace generalizing P Q with
  | nil => trivial
  | cons a trace ih =>
      cases a with
      | read n => exact ⟨hPQ n h.1, ih hPQ h.2⟩
      | assign n => exact ih (fun m hm => hm.imp id (hPQ m)) h

theorem append_iff {a b : List Access} :
    Covers P (a ++ b) ↔ Covers P a ∧ Covers (fun n => P n ∨ .assign n ∈ a) b := by
  induction a generalizing P with
  | nil => simp [Covers]
  | cons x a ih =>
      cases x with
      | read n => simp [Covers, ih, and_assoc]
      | assign n =>
          simp only [List.cons_append, Covers, ih, List.mem_cons, Access.assign.injEq]
          refine and_congr_right fun _ => ?_
          have hsame : (fun m => (m = n ∨ P m) ∨ .assign m ∈ a) =
              fun m => P m ∨ m = n ∨ .assign m ∈ a := by
            funext m
            exact propext (by grind)
          rw [hsame]

theorem reads_iff {ns : List ValueId} : Covers P (ns.map .read) ↔ ∀ n ∈ ns, P n := by
  induction ns with
  | nil => simp [Covers]
  | cons n ns ih => simp [Covers, ih]

theorem assigns (ns : List ValueId) : Covers P (ns.map .assign) := by
  induction ns generalizing P with
  | nil => trivial
  | cons n ns ih => exact ih

theorem assignedFirst {trace : List Access} (h : Covers (fun _ => False) trace) :
    AssignedFirst trace := by
  intro before n after htrace
  rw [htrace, append_iff] at h
  exact h.2.1.resolve_left id

end Covers

namespace Instr

theorem assign_mem_accesses {origin : Option BlockId} {instr : Instr} {n : ValueId} :
    .assign n ∈ instr.accesses origin ↔ instr.definition? = some n := by
  simp [accesses]

theorem isPhi_iff {instr : Instr} :
    instr.isPhi ↔ ∃ id arms, instr = .define id (.phi arms) := by
  constructor
  · intro h
    unfold isPhi at h
    split at h
    · exact ⟨_, _, rfl⟩
    · cases h
  · rintro ⟨id, arms, rfl⟩
    rfl

/-- Only a phi asks where control came from. -/
theorem accesses_of_not_isPhi {instr : Instr} (h : instr.isPhi = false) (origin : Option BlockId) :
    instr.accesses origin = instr.accesses none := by
  cases instr with
  | store value address => rfl
  | define id operation => cases operation <;> first | rfl | cases h

end Instr

namespace Block

theorem assign_mem_accesses {origin : Option BlockId} {b : Block} {n : ValueId} :
    .assign n ∈ b.accesses origin ↔ n ∈ b.definitions := by
  simp [accesses, definitions, Instr.assign_mem_accesses]

/-- The reads of the phis come on top of those that do not ask where control came from. -/
theorem covers_accesses {b : Block} {P : ValueId → Prop} {origin : Option BlockId}
    (h : Covers P (b.accesses none))
    (hphi : ∀ id arms, Instr.define id (.phi arms) ∈ b.instrs → ∀ arm ∈ arms, some arm.2 = origin →
      ∀ n ∈ arm.1.uses, P n) : Covers P (b.accesses origin) := by
  obtain ⟨name, instrs, terminator⟩ := b
  unfold accesses at h ⊢
  dsimp only at h hphi ⊢
  induction instrs generalizing P with
  | nil => exact h
  | cons instr instrs ih =>
      rw [List.flatMap_cons, List.append_assoc, Covers.append_iff] at h ⊢
      have hassign : ∀ n, .assign n ∈ instr.accesses none ↔ .assign n ∈ instr.accesses origin :=
        fun n => Instr.assign_mem_accesses.trans Instr.assign_mem_accesses.symm
      constructor
      · cases hi : instr.isPhi with
        | false => exact Instr.accesses_of_not_isPhi hi origin ▸ h.1
        | true =>
            obtain ⟨id, arms, rfl⟩ := Instr.isPhi_iff.mp hi
            refine Covers.append_iff.mpr ⟨Covers.reads_iff.mpr fun n hn => ?_, .assigns _⟩
            obtain ⟨arm, harm, hu⟩ := List.mem_flatMap.mp hn
            obtain ⟨hmem, horigin⟩ := List.mem_filter.mp harm
            exact hphi id arms (.head _) arm hmem (by simpa using horigin) n hu
      · refine ih (h.2.mono fun n hn => hn.imp id (hassign n).mp) ?_
        intro id arms hmem arm harm horigin n hn
        exact .inl (hphi id arms (.tail _ hmem) arm harm horigin n hn)

end Block

/-- For each block, the values besides the stack slots that it may rely on. -/
abbrev Reliance := BlockId → ValueId → Prop

namespace Function

/-- The values of the stack slots at the top of the first block. -/
def slotIds (f : Function) : List ValueId :=
  match f.blocks[0]? with
  | some b => (b.instrs.take f.slots).filterMap Instr.definition?
  | none => []

/-- The values that a block assigns. -/
def definitionsIn (f : Function) (i : BlockId) : List ValueId :=
  match f.blocks[i]? with
  | some b => b.definitions
  | none => []

variable (rely : Reliance) (f : Function)

/-- The value is assigned whenever the block is entered. -/
def AssignedBefore (i : BlockId) (n : ValueId) : Prop := i ≠ 0 ∧ n ∈ f.slotIds ∨ rely i n

/-- The value is assigned whenever the block is left. -/
def AssignedAfter (i : BlockId) (n : ValueId) : Prop :=
  n ∈ f.slotIds ∨ rely i n ∨ n ∈ f.definitionsIn i

/-- What the blocks rely on is true along every path. -/
structure Certified : Prop where
  entry : ∀ n, ¬rely 0 n
  covers : ∀ (i : BlockId) (b : Block), f.blocks[i]? = some b →
    Covers (f.AssignedBefore rely i) (b.accesses none)
  edges : ∀ i, ∀ k ∈ f.successors i, ∀ n, rely k n → f.AssignedAfter rely i n
  arms : ∀ (k : BlockId) (b : Block), f.blocks[k]? = some b →
    ∀ (id : ValueId) (arms : List (Operand × BlockId)), Instr.define id (.phi arms) ∈ b.instrs →
      ∀ arm ∈ arms, ∀ n ∈ arm.1.uses, f.AssignedAfter rely arm.2 n

variable {rely f}

theorem slotIds_subset : f.slotIds ⊆ f.definitionsIn 0 := by
  intro n hn
  unfold slotIds at hn
  unfold definitionsIn Block.definitions
  cases hb : f.blocks[0]? with
  | none => rw [hb] at hn; cases hn
  | some b =>
      rw [hb] at hn
      obtain ⟨instr, hi, hd⟩ := List.mem_filterMap.mp hn
      exact List.mem_filterMap.mpr ⟨instr, List.mem_of_mem_take hi, hd⟩

/-- Running a block assigns what is assigned when the block is left. -/
theorem AssignedAfter.of_accesses {i : BlockId} {b : Block} (hb : f.blocks[i]? = some b)
    {n : ValueId} {origin : Option BlockId} (h : f.AssignedAfter rely i n) :
    f.AssignedBefore rely i n ∨ .assign n ∈ b.accesses origin := by
  have hdef : n ∈ f.definitionsIn i → .assign n ∈ b.accesses origin := by
    unfold definitionsIn
    rw [hb]
    exact Block.assign_mem_accesses.mpr
  rcases h with hslot | hrely | hd
  · by_cases hi : i = 0
    · subst hi
      exact .inr (hdef (slotIds_subset hslot))
    · exact .inl (.inl ⟨hi, hslot⟩)
  · exact .inl (.inr hrely)
  · exact .inr (hdef hd)

/-- Along a path from a block, by induction on the path: what holds on entry carries over each
edge. -/
theorem Certified.covers_path (hf : f.Certified rely) {P : ValueId → Prop}
    {origin : Option BlockId} {path : List BlockId} (hpath : f.Follows path)
    (hbefore : ∀ i ∈ path.head?, ∀ n, f.AssignedBefore rely i n → P n)
    (horigin : ∀ p ∈ origin, ∀ n, f.AssignedAfter rely p n → P n) :
    Covers P (f.accesses origin path) := by
  induction path generalizing P origin with
  | nil => trivial
  | cons i path ih =>
      have hbefore := hbefore i rfl
      unfold accesses
      cases hb : f.blocks[i]? with
      | none =>
          have hend : path = [] := by
            cases path with
            | nil => rfl
            | cons k path =>
                have := hpath.1
                simp [successors, terminator?, hb] at this
          subst hend
          trivial
      | some b =>
          have hafter : ∀ n, f.AssignedAfter rely i n → P n ∨ .assign n ∈ b.accesses origin :=
            fun n hn => (hn.of_accesses hb).imp (hbefore n) id
          refine Covers.append_iff.mpr ⟨?_, ih ?_ ?_ ?_⟩
          · refine Block.covers_accesses ((hf.covers i b hb).mono hbefore) ?_
            intro id arms hmem arm harm hfrom n hn
            exact horigin arm.2 hfrom.symm n (hf.arms i b hb id arms hmem arm harm n hn)
          · cases path with
            | nil => trivial
            | cons k path => exact hpath.2
          · intro k hk n hn
            cases path with
            | nil => cases hk
            | cons k' path =>
                cases hk
                rcases hn with ⟨_, hslot⟩ | hrely
                · exact hafter n (.inl hslot)
                · exact hafter n (hf.edges i k hpath.1 n hrely)
          · intro p hp n hn
            cases hp
            exact hafter n hn

theorem Certified.assignedFirst (hf : f.Certified rely) {path : List BlockId}
    (hpath : f.IsPath path) : AssignedFirst (f.accesses none path) := by
  refine (hf.covers_path hpath.2 ?_ nofun).assignedFirst
  intro i hi n hn
  rw [hpath.1] at hi
  cases hi
  rcases hn with ⟨hne, _⟩ | hrely
  · exact hne rfl
  · exact hf.entry n hrely

end Function
end BCompiler
