import BCompiler.Proofs.Draft.View

/-!
Build steps that cannot fail.

A step that adds code fails only where the current block does not exist. So code whose names are
known can always be added.
-/
namespace BCompiler

/-- The current block exists, and so do the blocks below `n`; the local names are as given. -/
structure Draft.Ready (locals : List (String × Operand)) (n : Nat) (d : Draft) : Prop where
  valid : d.Valid
  locals : d.locals = locals
  length : n ≤ d.function.blocks.length

theorem Draft.Ready.lower {locals : List (String × Operand)} {n k : Nat} {d : Draft}
    (h : d.Ready locals n) (hk : k ≤ n) : d.Ready locals k :=
  ⟨h.valid, h.locals, Nat.le_trans hk h.length⟩

namespace Build

/-- The step succeeds on every draft that is ready, and leaves one that is ready. -/
def Sure {α : Type} (locals : List (String × Operand)) (n : Nat) (step : Build α) : Prop :=
  ∀ d, d.Ready locals n → ∃ a d', step d = .ok a d' ∧ d'.Ready locals n

variable {α β : Type} {locals : List (String × Operand)} {n : Nat}

theorem Sure.pure (a : α) : Sure locals n (Pure.pure a) := fun d h => ⟨a, d, rfl, h⟩

theorem Sure.bind {x : Build α} {f : α → Build β} (hx : Sure locals n x)
    (hf : ∀ a, Sure locals n (f a)) : Sure locals n (x >>= f) := by
  intro d h
  obtain ⟨a, d₁, ha, h₁⟩ := hx d h
  obtain ⟨b, d₂, hb, h₂⟩ := hf a d₁ h₁
  exact ⟨b, d₂, bind_eq_ok_iff.mpr ⟨a, d₁, ha, hb⟩, h₂⟩

theorem ready_opened {d : Draft} (h : d.Ready locals n) : d.opened.Ready locals n := by
  refine ⟨.of_isOpen d.isOpen_opened, ?_, ?_⟩ <;> unfold Draft.opened <;> split
  · exact h.locals
  · exact h.locals
  · exact h.length
  · exact Nat.le_trans h.length (by simp [Draft.goTo, Draft.addBlock, Draft.nextNumber])

theorem ready_onBlock {d : Draft} {change : Block → Block} {f : Function} (h : d.Ready locals n)
    (hf : f.blocks = (d.function.onBlock d.current change).blocks) :
    ({ d with function := f } : Draft).Ready locals n := by
  have hlen : f.blocks.length = d.function.blocks.length := by rw [hf, Function.length_onBlock]
  exact ⟨Nat.lt_of_lt_of_le h.valid (Nat.le_of_eq hlen.symm), h.locals, hlen.symm ▸ h.length⟩

theorem emit_sure (operation : Operation) : Sure locals n (emit operation) := by
  intro d h
  exact ⟨_, _, emit_eq_ok_iff.mpr ⟨h.valid, rfl, rfl⟩, ready_onBlock (ready_opened h) rfl⟩

theorem store_sure (value address : Operand) : Sure locals n (store value address) := by
  intro d h
  exact ⟨(), _, store_eq_ok_iff.mpr ⟨h.valid, rfl⟩, ready_onBlock (ready_opened h) rfl⟩

theorem terminate_sure (t : Terminator) : Sure locals n (terminate t) := by
  intro d h
  exact ⟨(), _, terminate_eq_ok_iff.mpr ⟨h.valid, rfl⟩, ready_onBlock (ready_opened h) rfl⟩

theorem terminateIfOpen_sure (t : Terminator) : Sure locals n (terminateIfOpen t) := by
  intro d h
  refine ⟨(), _, terminateIfOpen_eq_ok_iff.mpr ⟨h.valid, rfl⟩, ?_⟩
  unfold Draft.endedIfOpen
  split
  · exact ready_onBlock h rfl
  · exact h

theorem currentBlock_sure : Sure locals n currentBlock := fun d h => ⟨d.current, d, rfl, h⟩

theorem switchTo_sure {block : BlockId} (hb : block < n) : Sure locals n (switchTo block) :=
  fun _ h => ⟨(), _, rfl, Nat.lt_of_lt_of_le hb h.length, h.locals, h.length⟩

theorem rvalue_sure (a : Denotation) : Sure locals n (rvalue a) := by
  cases a with
  | word value => exact .pure value
  | address address => exact emit_sure _
  | function name => exact emit_sure _

theorem apply_sure (op : Op) (lhs rhs : Operand) : Sure locals n (op.apply lhs rhs) := by
  cases op with
  | binary op => exact emit_sure _
  | compare pred => exact .bind (emit_sure _) fun _ => emit_sure _

theorem assign_sure (op : Option Op) (address value : Operand) :
    Sure locals n (assign op address value) := by
  cases op with
  | none => exact .bind (store_sure _ _) fun _ => .pure _
  | some op =>
      refine .bind (emit_sure _) fun _ => .bind (apply_sure op _ _) fun _ => ?_
      exact .bind (store_sure _ _) fun _ => .pure _

theorem step_sure (op : BinaryOp) (spelling : String) (address : Operand) :
    Sure locals n (step op spelling (.address address)) :=
  .bind (emit_sure _) fun _ => .bind (emit_sure _) fun _ => .bind (store_sure _ _) fun _ => .pure _

theorem leave_sure (last : BlockId) : Sure locals n (leave last) :=
  .bind currentBlock_sure fun _ => .bind (terminate_sure _) fun _ => .pure _

theorem join_sure {last : BlockId} (hlast : last < n) (thenValue : Operand) (thenExit : BlockId)
    (elseValue : Operand) : Sure locals n (join last thenValue thenExit elseValue) :=
  .bind (leave_sure _) fun _ => .bind (switchTo_sure hlast) fun _ => emit_sure _

theorem fallInto_sure (target : BlockId) {next : BlockId} (hn : next < n) :
    Sure locals n (fallInto target next) :=
  .bind (terminateIfOpen_sure _) fun _ => switchTo_sure hn

theorem newGroup_sure (construct first second last : String) {d : Draft} (h : d.Ready locals n) :
    newGroup construct first second last d = .ok d.group (d.addGroup construct first second last) ∧
      (d.addGroup construct first second last).Ready locals (d.function.blocks.length + 3) := by
  refine ⟨newGroup_eq .., ?_, h.locals, ?_⟩
  · exact Nat.lt_of_lt_of_le h.valid (by simp [Draft.addGroup, Draft.addBlock, Draft.nextNumber])
  · simp [Draft.addGroup, Draft.addBlock, Draft.nextNumber]

theorem condBranch_sure (word : Operand) (t e : BlockId) : Sure locals n (condBranch word t e) :=
  .bind (emit_sure _) fun _ => terminate_sure _

theorem fork_sure (construct : String) (word : Operand) {d : Draft} (h : d.Ready locals n) :
    ∃ d', fork construct word d = .ok d.group d' ∧
      d'.Ready locals (d.function.blocks.length + 3) := by
  obtain ⟨hg, h₁⟩ := newGroup_sure construct "then" "else" "end" h
  obtain ⟨_, d₂, hc, h₂⟩ := condBranch_sure word d.group.first d.group.second _ h₁
  have hfirst : d.group.first < d.function.blocks.length + 3 :=
    Nat.lt_add_of_pos_right (Nat.succ_pos 2)
  obtain ⟨_, d₃, hs, h₃⟩ := switchTo_sure hfirst d₂ h₂
  refine ⟨d₃, bind_eq_ok_iff.mpr ⟨_, _, hg, bind_eq_ok_iff.mpr ⟨_, _, hc, ?_⟩⟩, h₃⟩
  exact bind_eq_ok_iff.mpr ⟨_, _, hs, rfl⟩

end Build
end BCompiler
