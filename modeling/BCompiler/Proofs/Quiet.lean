import BCompiler.Proofs.Grammar.Congruence
import BCompiler.Proofs.Trail.Statement

/-!
Steps that neither declare a local nor mention a label.

Whatever their text, and also where they fail, expressions and most parts of statements add code to
open blocks, add blocks of their own and move between blocks. None of this touches the locals or the
labels of the function, and no block that they add has the name of a label.
-/
namespace BCompiler

/-- A name that does not begin like that of the block of a label. -/
def Unlabelled (name : String) : Prop := ∃ c rest, name.toList = c :: rest ∧ c ≠ 'l'

namespace Unlabelled

theorem append {name : String} (h : Unlabelled name) (rest : String) :
    Unlabelled (name ++ rest) := by
  obtain ⟨c, cs, hl, hc⟩ := h
  exact ⟨c, cs ++ rest.toList, by rw [String.toList_append, hl]; rfl, hc⟩

theorem ne {name : String} (h : Unlabelled name) (x : String) : name ≠ "label." ++ x := by
  rintro rfl
  obtain ⟨c, cs, hl, hc⟩ := h
  rw [String.toList_append] at hl
  cases hl
  exact hc rfl

end Unlabelled

/-- The changes that lead from a draft to another without a local or a label. -/
inductive Quiet : Draft → Draft → Prop
  | refl (d : Draft) : Quiet d d
  | trans {d d₁ d₂ : Draft} : Quiet d d₁ → Quiet d₁ d₂ → Quiet d d₂
  | define {d : Draft} {operation : Operation} : d.isOpen → operation.isSlot = false →
      Quiet d (d.define operation)
  | store {d : Draft} {value address : Operand} : d.isOpen →
      Quiet d (d.append (.store value address))
  | ended {d : Draft} {t : Terminator} : d.isOpen → Quiet d (d.endedBy t)
  | addBlock {d : Draft} {name : String} : Unlabelled name → Quiet d (d.addBlock name)
  | nextNumber (d : Draft) : Quiet d d.nextNumber
  | goTo (d : Draft) (block : BlockId) : Quiet d (d.goTo block)
  | program (d : Draft) (p : Program) : Quiet d { d with program := p }

instance : Lasting Quiet := ⟨.refl, .trans⟩

theorem Draft.quiet_opened (d : Draft) : Quiet d d.opened := by
  unfold opened
  split
  · exact .refl d
  · have hname : Unlabelled ("dead." ++ toString d.nextGroup) :=
      Unlabelled.append ⟨'d', _, rfl, by decide⟩ _
    exact (Quiet.nextNumber d).trans ((Quiet.addBlock hname).trans (.goTo _ _))

theorem Draft.quiet_endedIfOpen (d : Draft) (t : Terminator) : Quiet d (d.endedIfOpen t) := by
  unfold endedIfOpen
  split
  · next ho => exact .ended ho
  · exact .refl d

theorem Draft.quiet_unreachable (d : Draft) : Quiet d d.unreachable := by
  have hname : Unlabelled ("unreachable." ++ toString d.nextGroup) :=
    Unlabelled.append ⟨'u', _, rfl, by decide⟩ _
  exact (Quiet.nextNumber d).trans ((Quiet.addBlock hname).trans (.goTo _ _))

namespace Quiet

variable {d d' : Draft}

theorem labels (h : Quiet d d') : d'.labels = d.labels := by
  induction h with
  | trans _ _ ih₁ ih₂ => exact ih₂.trans ih₁
  | refl | define | store | ended | addBlock | nextNumber | goTo | program => rfl

theorem blockNames (h : Quiet d d') :
    ∃ more, d'.function.blockNames = d.function.blockNames ++ more ∧
      ∀ name ∈ more, Unlabelled name := by
  induction h with
  | refl | nextNumber | goTo | program => exact ⟨[], (List.append_nil _).symm, nofun⟩
  | @trans d d₁ d₂ _ _ ih₁ ih₂ =>
      obtain ⟨more, hmore, hall⟩ := ih₁
      obtain ⟨more', hmore', hall'⟩ := ih₂
      refine ⟨more ++ more', by rw [hmore', hmore, List.append_assoc], fun name hm => ?_⟩
      exact (List.mem_append.mp hm).elim (hall name) (hall' name)
  | define => exact ⟨[], (Draft.blockNames_define ..).trans (List.append_nil _).symm, nofun⟩
  | store => exact ⟨[], (Draft.blockNames_append ..).trans (List.append_nil _).symm, nofun⟩
  | ended => exact ⟨[], (Draft.blockNames_endedBy ..).trans (List.append_nil _).symm, nofun⟩
  | @addBlock d name h =>
      exact ⟨[name], Draft.blockNames_addBlock .., fun _ hm => List.mem_singleton.mp hm ▸ h⟩

end Quiet

/-- However a step ends, it has made quiet changes only. -/
def Calm {σ α : Type} (view : σ → Draft) (step : EStateM Error σ α) : Prop :=
  ∀ w, Trails Quiet view w step fun _ _ => True

namespace Calm

variable {σ α β : Type} {view : σ → Draft}

theorem pure (a : α) : Calm view (Pure.pure a) := fun _ => .pure fun _ _ => trivial

theorem throw (e : Error) : Calm view (MonadExcept.throw e : EStateM Error σ α) :=
  fun _ => .throw

theorem bind {x : EStateM Error σ α} {f : α → EStateM Error σ β} (hx : Calm view x)
    (hf : ∀ a, Calm view (f a)) : Calm view (x >>= f) :=
  fun w => .bind (hx w) fun a w' _ _ => hf a w'

theorem ok {step : Build α} (h : Calm id step) {d d' : Draft} {a : α} (hs : step d = .ok a d') :
    Quiet d d' := by
  have hq := h d d (.refl d)
  rw [hs] at hq
  exact hq.1

theorem scan (step : Scan α) : Calm Site.target (Pass.scan step : Pass Draft α) :=
  fun _ s _ => Pass.scan_trails (.trivial step) s (.refl _)

theorem build {step : Build α} (h : Calm id step) : Calm Site.target (Pass.build step) :=
  fun w => Pass.build_trails (h w)

end Calm

namespace Build

theorem emit_calm {operation : Operation} (hs : operation.isSlot = false) :
    Calm id (emit operation) := by
  refine fun w => trails_of_cases (fun d _ hv => ?_) fun d hv => ?_
  · exact ⟨_, _, emit_eq_ok_iff.mpr ⟨hv, rfl, rfl⟩,
      d.quiet_opened.trans (.define d.isOpen_opened hs), trivial⟩
  · obtain ⟨e, he⟩ := ensureOpen_eq_error hv
    exact ⟨e, bind_of_error he⟩

theorem store_calm (value address : Operand) : Calm id (store value address) := by
  refine fun w => trails_of_cases (fun d _ hv => ?_) fun d hv => ?_
  · exact ⟨(), _, store_eq_ok_iff.mpr ⟨hv, rfl⟩, d.quiet_opened.trans (.store d.isOpen_opened),
      trivial⟩
  · obtain ⟨e, he⟩ := ensureOpen_eq_error hv
    exact ⟨e, bind_of_error he⟩

theorem terminate_calm (t : Terminator) : Calm id (terminate t) := by
  refine fun w => trails_of_cases (fun d _ hv => ?_) fun d hv => ?_
  · exact ⟨(), _, terminate_eq_ok_iff.mpr ⟨hv, rfl⟩, d.quiet_opened.trans (.ended d.isOpen_opened),
      trivial⟩
  · obtain ⟨e, he⟩ := ensureOpen_eq_error hv
    exact ⟨e, bind_of_error he⟩

theorem terminateIfOpen_calm (t : Terminator) : Calm id (terminateIfOpen t) := by
  refine fun w => trails_of_cases (fun d _ hv => ?_) fun d hv => ?_
  · exact ⟨(), _, terminateIfOpen_eq_ok_iff.mpr ⟨hv, rfl⟩, d.quiet_endedIfOpen t, trivial⟩
  · obtain ⟨e, he⟩ := isOpen_eq_error hv
    exact ⟨e, bind_of_error he⟩

theorem switchTo_calm (block : BlockId) : Calm id (switchTo block) :=
  fun _ d _ => ⟨.goTo d block, trivial⟩

theorem currentBlock_calm : Calm id currentBlock := fun _ d _ => ⟨.refl d, trivial⟩

theorem newBlock_calm {name : String} (h : Unlabelled name) : Calm id (newBlock name) :=
  fun _ _ _ => ⟨.addBlock h, trivial⟩

theorem newGroup_calm {construct : String} (h : Unlabelled construct) (first second last : String) :
    Calm id (newGroup construct first second last) := by
  intro w d _
  rw [newGroup_eq]
  have hname (part : String) :
      Unlabelled (construct ++ "." ++ toString d.nextGroup ++ "." ++ part) :=
    (((h.append _).append _).append _).append _
  have hblocks := (Quiet.addBlock (d := d.nextNumber) (hname first)).trans
    ((Quiet.addBlock (hname second)).trans (.addBlock (hname last)))
  exact ⟨(Quiet.nextNumber d).trans hblocks, trivial⟩

theorem compare_calm (pred : Predicate) (lhs rhs : Operand) : Calm id (compare pred lhs rhs) :=
  .bind (emit_calm rfl) fun _ => emit_calm rfl

theorem rvalue_calm (a : Denotation) : Calm id (rvalue a) := by
  cases a with
  | word value => exact .pure value
  | address address => exact emit_calm rfl
  | function name => exact emit_calm rfl

theorem apply_calm (op : Op) (lhs rhs : Operand) : Calm id (op.apply lhs rhs) := by
  cases op with
  | binary op => exact emit_calm rfl
  | compare pred => exact compare_calm pred lhs rhs

theorem assign_calm (op : Option Op) (address value : Operand) :
    Calm id (assign op address value) := by
  cases op with
  | none => exact .bind (store_calm _ _) fun _ => .pure _
  | some op =>
      refine .bind (emit_calm rfl) fun old => .bind (apply_calm op old value) fun joined => ?_
      exact .bind (store_calm _ _) fun _ => .pure _

theorem step_calm (op : BinaryOp) (spelling : String) (a : Denotation) :
    Calm id (step op spelling a) := by
  cases a with
  | word value => exact .throw _
  | function name => exact .throw _
  | address address =>
      refine .bind (emit_calm rfl) fun old => .bind (emit_calm rfl) fun value => ?_
      exact .bind (store_calm _ _) fun _ => .pure _

theorem sign_calm (sign : Sign) (a : Denotation) : Calm id (sign.apply a) := by
  cases sign with
  | not => exact .bind (rvalue_calm a) fun _ => .bind (compare_calm _ _ _) fun _ => .pure _
  | negate => exact .bind (rvalue_calm a) fun _ => .bind (emit_calm rfl) fun _ => .pure _
  | dereference => exact .bind (rvalue_calm a) fun _ => .bind (emit_calm rfl) fun _ => .pure _
  | increment => exact .bind (step_calm _ _ a) fun _ => .pure _
  | decrement => exact .bind (step_calm _ _ a) fun _ => .pure _
  | addressOf =>
      cases a with
      | word value => exact .throw _
      | function name => exact .throw _
      | address address => exact .bind (emit_calm rfl) fun _ => .pure _

theorem callee_calm (a : Denotation) : Calm id (callee a) := by
  cases a with
  | function name => exact .pure _
  | address address =>
      exact .bind (emit_calm rfl) fun _ => .bind (emit_calm rfl) fun _ => .pure _
  | word value => exact .bind (emit_calm rfl) fun _ => .pure _

theorem onProgram_calm {α : Type} (change : Program → Except Error (α × Program)) :
    Calm id (onProgram change) := by
  intro w d _
  unfold onProgram
  cases change d.program with
  | ok r => exact ⟨.program d r.2, trivial⟩
  | error e => exact .refl d

theorem resolve_calm (name : String) : Calm id (resolve name) := by
  intro w d hd
  rcases resolve_cases name d with ⟨address, _, he⟩ | ⟨_, he⟩ | ⟨_, he⟩ | he <;> rw [he]
  · exact ⟨.refl d, trivial⟩
  · exact Calm.bind (emit_calm rfl) (fun _ => .pure _) w d hd
  · exact ⟨.refl d, trivial⟩
  · exact .refl d

theorem resolveCallee_calm (name : String) : Calm id (resolveCallee name) := by
  intro w d hd
  rcases resolveCallee_cases name d with ⟨address, _, he⟩ | ⟨_, he⟩ | ⟨_, _, he⟩ | ⟨_, _, _, he⟩ <;>
    rw [he]
  · exact ⟨.refl d, trivial⟩
  · exact ⟨.refl d, trivial⟩
  · exact ⟨.refl d, trivial⟩
  · exact ⟨.program d _, trivial⟩

theorem condBranch_calm (word : Operand) (t e : BlockId) : Calm id (condBranch word t e) :=
  .bind (emit_calm rfl) fun _ => terminate_calm _

theorem fork_calm {construct : String} (h : Unlabelled construct) (word : Operand) :
    Calm id (fork construct word) :=
  .bind (newGroup_calm h _ _ _) fun _ => .bind (condBranch_calm _ _ _) fun _ =>
    .bind (switchTo_calm _) fun _ => .pure _

theorem leave_calm (last : BlockId) : Calm id (leave last) :=
  .bind currentBlock_calm fun _ => .bind (terminate_calm _) fun _ => .pure _

theorem join_calm (last : BlockId) (thenValue : Operand) (thenExit : BlockId)
    (elseValue : Operand) : Calm id (join last thenValue thenExit elseValue) :=
  .bind (leave_calm last) fun _ => .bind (switchTo_calm last) fun _ => emit_calm rfl

theorem fallInto_calm (target next : BlockId) : Calm id (fallInto target next) :=
  .bind (terminateIfOpen_calm _) fun _ => switchTo_calm next

theorem loop_calm : Calm id loop :=
  .bind (newGroup_calm ⟨'w', _, rfl, by decide⟩ _ _ _) fun _ =>
    .bind (fallInto_calm _ _) fun _ => .pure _

theorem test_calm (word : Operand) (group : BlockGroup) : Calm id (test word group) :=
  .bind (condBranch_calm _ _ _) fun _ => switchTo_calm _

theorem select_calm : Calm id select :=
  .bind (newGroup_calm ⟨'s', _, rfl, by decide⟩ _ _ _) fun _ =>
    .bind (fallInto_calm _ _) fun _ => .pure _

theorem settle_calm (value : Operand) (cases : List (Word × BlockId)) (group : BlockGroup) :
    Calm id (settle value cases group) := by
  refine .bind (fallInto_calm _ _) fun _ => .bind ?_ fun _ => switchTo_calm _
  unfold dispatch
  split
  · exact terminate_calm _
  · exact terminate_calm _

theorem caseBlock_calm (group : Nat) (value : Word) : Calm id (caseBlock group value) := by
  have hname : Unlabelled ("case." ++ toString group ++ "." ++ value.decimal) :=
    ((Unlabelled.append ⟨'c', _, rfl, by decide⟩ _).append _).append _
  exact .bind (newBlock_calm hname) fun _ => .bind (fallInto_calm _ _) fun _ => .pure _

theorem finish_calm : Calm id finish := by
  intro w d hd
  unfold finish
  rw [get_bind]
  cases leastName ((d.labels.filter fun label => !label.defined).map Label.name) with
  | some name => exact Calm.throw _ w d hd
  | none =>
      have hget : Calm id (get : Build Draft) := fun _ d _ => ⟨.refl d, trivial⟩
      exact Calm.bind (terminateIfOpen_calm _) (fun _ => .bind hget fun _ => .pure _) w d hd

end Build

theorem Computation.calm {α : Type} {step : Build α} (h : Computation step) : Calm id step := by
  cases h with
  | rvalue a => exact Build.rvalue_calm a
  | apply op lhs rhs => exact Build.apply_calm op lhs rhs
  | assign op address value => exact Build.assign_calm op address value
  | choose a =>
      exact .bind (Build.rvalue_calm a) fun _ => Build.fork_calm ⟨'c', _, rfl, by decide⟩ _
  | leave last => exact Build.leave_calm last
  | switchTo block => exact Build.switchTo_calm block
  | join last thenValue thenExit elseValue =>
      exact Build.join_calm last thenValue thenExit elseValue
  | sign sign a => exact Build.sign_calm sign a
  | base a => exact .bind (Build.rvalue_calm a) fun _ => Build.emit_calm rfl
  | element base index => exact Build.emit_calm rfl
  | callee a => exact Build.callee_calm a
  | call callee arguments => exact Build.emit_calm rfl
  | step op spelling a => exact Build.step_calm op spelling a
  | string text => exact .bind (Build.onProgram_calm _) fun _ => Build.emit_calm rfl
  | resolve name => exact Build.resolve_calm name
  | resolveCallee name => exact Build.resolveCallee_calm name

namespace Pass

theorem calm_congruence : Congruence (Alone (Calm Site.target)) where
  pure a := Calm.pure a
  throw _ := Calm.throw _
  bind hx hf := Calm.bind hx hf

/-- Whatever its text, an expression is quiet. -/
theorem expressionAt_calm (depth level : Nat) : Calm Site.target (expressionAt depth level) := by
  have h : Expressive (Alone (Calm Site.target)) :=
    { calm_congruence with
      token := fun _ => Calm.scan _
      compute := fun hc => Calm.build hc.calm }
  exact (h.expressions (fun _ => Calm.throw _) (Nat.le_refl depth)).1 level

theorem ret_calm {value : Pass Draft Operand} (h : Calm Site.target value) :
    Calm Site.target (ret value) := by
  refine .bind (.scan _) fun found => ?_
  split
  · exact .build (Build.terminate_calm _)
  · refine .bind h fun word => .bind (.scan _) fun _ => .bind (.scan _) fun _ => ?_
    exact .build (Build.terminate_calm _)
  · exact .throw _

theorem extrn_calm (depth : Nat) :
    Calm Site.target (items ';' "in extrn declaration" extrn depth) := by
  have hitem : Alone (Calm Site.target) extrn extrn :=
    Calm.bind (.scan _) fun _ => .build (Build.onProgram_calm _)
  exact calm_congruence.items (fun _ => Calm.throw _) (Calm.scan _) hitem (Nat.le_refl depth)

end Pass
end BCompiler
