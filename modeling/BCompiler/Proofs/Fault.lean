import BCompiler.Proofs.Grammar.Congruence
import BCompiler.Proofs.Trail.History

/-!
Faults of the compiler.

A step on a draft fails either for a cause in the source or because the current block does not
exist. The draft of a new function has its entry block, and every block that building goes on in
has been added before. So the second never happens.
-/
namespace BCompiler

theorem Module.isCause_of_defineGlobal {m : Module} {name : String} {init : GlobalInit} {e : Error}
    (h : m.defineGlobal name init = .error e) : e.isCause := by
  unfold defineGlobal at h
  split at h
  · cases h
    rfl
  · split at h <;> cases h

theorem Module.isCause_of_defineFunction {m : Module} {name : String} {params : List String}
    {e : Error} (h : m.defineFunction name params = .error e) : e.isCause := by
  unfold defineFunction at h
  split at h
  · cases h
    rfl
  · cases h

namespace Program

variable {p : Program} {name : String} {e : Error}

theorem isCause_of_defineGlobal {init : GlobalInit} (h : p.defineGlobal name init = .error e) :
    e.isCause := by
  unfold defineGlobal at h
  cases hd : p.module.defineGlobal name init with
  | ok r =>
      rw [hd] at h
      cases h
  | error e' =>
      rw [hd] at h
      cases h
      exact Module.isCause_of_defineGlobal hd

theorem isCause_of_bindExternal (h : p.bindExternal name = .error e) : e.isCause := by
  unfold bindExternal at h
  split at h
  · cases h
  · split at h
    · cases h
    · cases hd : p.module.defineGlobal name .placeholder with
      | ok r =>
          rw [hd] at h
          cases h
      | error e' =>
          rw [hd] at h
          cases h
          exact Module.isCause_of_defineGlobal hd

theorem isCause_of_declareScalar {values : List Constant}
    (h : p.declareScalar name values = .error e) : e.isCause := by
  unfold declareScalar at h
  split at h <;> exact isCause_of_defineGlobal h

theorem isCause_of_declareArray {size : UInt64} {values : List Constant}
    (h : p.declareArray name size values = .error e) : e.isCause := by
  unfold declareArray at h
  split at h
  · cases h
    rfl
  · cases hd : p.defineGlobal (name ++ ".data") (.buffer (arrayLength size values) values) with
    | error e' =>
        simp only [hd, bind, Except.bind] at h
        cases h
        exact isCause_of_defineGlobal hd
    | ok p₁ =>
        simp only [hd, bind, Except.bind] at h
        exact isCause_of_defineGlobal h

end Program

theorem Function.eq_nil_of_pushSlot {f : Function} {words : Option UInt64} {e : Error}
    (h : f.pushSlot words = .error e) : f.blocks = [] ∧ e = .internal (.noSuchBlock 0) := by
  cases hb : f.blocks with
  | nil =>
      simp only [pushSlot, freshValue, block, hb, List.getElem?_nil, bind, Except.bind] at h
      cases h
      exact ⟨rfl, rfl⟩
  | cons b blocks =>
      have hpos : 0 < f.blocks.length := by simp [hb]
      cases (pushSlot_eq_ok_iff.mpr ⟨hpos, rfl, rfl⟩).symm.trans h

namespace Build

variable {α β : Type}

/-- If the step fails where the current block exists, then for a cause in the source. -/
structure Blames (step : Build α) : Prop where
  error : ∀ {d e d'}, step d = .error e d' → e ≠ .internal .tooDeep ∧ (d'.Valid → e.isCause)

theorem ne_tooDeep_of_isCause {e : Error} (h : e.isCause) : e ≠ .internal .tooDeep := by
  rintro rfl
  cases h

namespace Blames

theorem of_cause {step : Build α} (h : ∀ d e d', step d = .error e d' → e.isCause) :
    Blames step :=
  ⟨fun he => ⟨ne_tooDeep_of_isCause (h _ _ _ he), fun _ => h _ _ _ he⟩⟩

theorem of_ok {step : Build α} (h : ∀ d, ∃ a d', step d = .ok a d') : Blames step := by
  refine ⟨fun {d e d'} he => ?_⟩
  obtain ⟨a, d₁, ha⟩ := h d
  cases ha.symm.trans he

theorem pure (a : α) : Blames (Pure.pure a) := of_ok fun d => ⟨a, d, rfl⟩

theorem throw {e : Error} (h : e.isCause) : Blames (MonadExcept.throw e : Build α) := by
  refine of_cause fun d e' d' he => ?_
  cases he
  exact h

theorem bind {x : Build α} {f : α → Build β} (hx : Blames x) (hf : ∀ a, Blames (f a)) :
    Blames (x >>= f) := by
  refine ⟨fun {d e d'} he => ?_⟩
  obtain hx' | ⟨a, d₁, _, hb⟩ := bind_eq_error_iff.mp he
  · exact hx.error hx'
  · exact (hf a).error hb

theorem get : Blames (MonadState.get : Build Draft) := of_ok fun d => ⟨d, d, rfl⟩

theorem modify (f : Draft → Draft) : Blames (modify f : Build PUnit) :=
  of_ok fun d => ⟨PUnit.unit, f d, rfl⟩

/-- A step that fails only where there is no current block, and leaves the draft as it was. -/
theorem of_valid {step : Build α} (hok : ∀ d, d.Valid → ∃ a d', step d = .ok a d')
    (hopen : ∀ d e, isOpen d = .error e d → step d = .error e d) : Blames step := by
  refine ⟨fun {d e d'} he => ?_⟩
  by_cases hv : d.Valid
  · obtain ⟨a, d₁, ha⟩ := hok d hv
    cases ha.symm.trans he
  · have hfault : isOpen d = .error (.internal (.noSuchBlock d.current)) d := by
      unfold isOpen Function.block
      rw [List.getElem?_eq_none (Nat.not_lt.mp hv)]
    cases (hopen d _ hfault).symm.trans he
    exact ⟨nofun, fun h => absurd h hv⟩

end Blames

theorem freshGroup_blames : Blames freshGroup := .of_ok fun _ => ⟨_, _, rfl⟩

theorem newBlock_blames (name : String) : Blames (newBlock name) := .of_ok fun _ => ⟨_, _, rfl⟩

theorem currentBlock_blames : Blames currentBlock := .of_ok fun _ => ⟨_, _, rfl⟩

theorem switchTo_blames (block : BlockId) : Blames (switchTo block) := .of_ok fun _ => ⟨_, _, rfl⟩

theorem newGroup_blames (construct first second last : String) :
    Blames (newGroup construct first second last) := .of_ok fun _ => ⟨_, _, newGroup_eq ..⟩

theorem emit_blames (operation : Operation) : Blames (emit operation) :=
  .of_valid (fun _ hv => ⟨_, _, emit_eq_ok_iff.mpr ⟨hv, rfl, rfl⟩⟩)
    fun _ _ h => bind_of_error (bind_of_error h)

theorem store_blames (value address : Operand) : Blames (store value address) :=
  .of_valid (fun _ hv => ⟨(), _, store_eq_ok_iff.mpr ⟨hv, rfl⟩⟩)
    fun _ _ h => bind_of_error (bind_of_error h)

theorem terminate_blames (t : Terminator) : Blames (terminate t) :=
  .of_valid (fun _ hv => ⟨(), _, terminate_eq_ok_iff.mpr ⟨hv, rfl⟩⟩)
    fun _ _ h => bind_of_error (bind_of_error h)

theorem terminateIfOpen_blames (t : Terminator) : Blames (terminateIfOpen t) :=
  .of_valid (fun _ hv => ⟨(), _, terminateIfOpen_eq_ok_iff.mpr ⟨hv, rfl⟩⟩)
    fun _ _ h => bind_of_error h

theorem rvalue_blames (a : Denotation) : Blames (rvalue a) := by
  cases a with
  | word value => exact .pure value
  | address address => exact emit_blames _
  | function name => exact emit_blames _

theorem compare_blames (pred : Predicate) (lhs rhs : Operand) : Blames (compare pred lhs rhs) :=
  .bind (emit_blames _) fun _ => emit_blames _

theorem apply_blames (op : Op) (lhs rhs : Operand) : Blames (op.apply lhs rhs) := by
  cases op with
  | binary op => exact emit_blames _
  | compare pred => exact compare_blames pred lhs rhs

theorem assign_blames (op : Option Op) (address value : Operand) :
    Blames (assign op address value) := by
  cases op with
  | none => exact .bind (store_blames _ _) fun _ => .pure _
  | some op =>
      refine .bind (emit_blames _) fun _ => .bind (apply_blames op _ _) fun _ => ?_
      exact .bind (store_blames _ _) fun _ => .pure _

theorem condBranch_blames (word : Operand) (thenBlock elseBlock : BlockId) :
    Blames (condBranch word thenBlock elseBlock) :=
  .bind (emit_blames _) fun _ => terminate_blames _

theorem fork_blames (construct : String) (word : Operand) : Blames (fork construct word) :=
  .bind (newGroup_blames ..) fun _ => .bind (condBranch_blames ..) fun _ =>
    .bind (switchTo_blames _) fun _ => .pure _

theorem leave_blames (last : BlockId) : Blames (leave last) :=
  .bind currentBlock_blames fun _ => .bind (terminate_blames _) fun _ => .pure _

theorem join_blames (last : BlockId) (thenValue : Operand) (thenExit : BlockId)
    (elseValue : Operand) : Blames (join last thenValue thenExit elseValue) :=
  .bind (leave_blames last) fun _ => .bind (switchTo_blames last) fun _ => emit_blames _

theorem step_blames (op : BinaryOp) (spelling : String) (a : Denotation) :
    Blames (step op spelling a) := by
  cases a with
  | address address =>
      refine .bind (emit_blames _) fun _ => .bind (emit_blames _) fun _ => ?_
      exact .bind (store_blames _ _) fun _ => .pure _
  | word value => exact .throw rfl
  | function name => exact .throw rfl

theorem sign_blames (sign : Sign) (a : Denotation) : Blames (sign.apply a) := by
  cases sign with
  | not => exact .bind (rvalue_blames a) fun _ => .bind (compare_blames ..) fun _ => .pure _
  | negate => exact .bind (rvalue_blames a) fun _ => .bind (emit_blames _) fun _ => .pure _
  | dereference => exact .bind (rvalue_blames a) fun _ => .bind (emit_blames _) fun _ => .pure _
  | increment => exact .bind (step_blames _ _ a) fun _ => .pure _
  | decrement => exact .bind (step_blames _ _ a) fun _ => .pure _
  | addressOf =>
      cases a with
      | address address => exact .bind (emit_blames _) fun _ => .pure _
      | word value => exact .throw rfl
      | function name => exact .throw rfl

theorem callee_blames (a : Denotation) : Blames (callee a) := by
  cases a with
  | function name => exact .pure _
  | address address =>
      exact .bind (emit_blames _) fun _ => .bind (emit_blames _) fun _ => .pure _
  | word value => exact .bind (emit_blames _) fun _ => .pure _

theorem string_blames (text : String) : Blames (string text) :=
  .bind (.of_ok fun _ => ⟨_, _, rfl⟩) fun _ => emit_blames _

theorem resolve_blames (name : String) : Blames (resolve name) := by
  refine .bind .get fun d => ?_
  cases d.locals.lookup name with
  | some address => exact .pure _
  | none =>
      dsimp only
      split
      · exact .bind (emit_blames _) fun _ => .pure _
      · split
        · exact .pure _
        · exact .throw rfl

theorem resolveCallee_blames (name : String) : Blames (resolveCallee name) := by
  refine .bind .get fun d => ?_
  cases d.locals.lookup name with
  | some address => exact .pure _
  | none =>
      dsimp only
      split
      · exact .pure _
      · split
        · exact .pure _
        · exact .bind (.of_ok fun _ => ⟨_, _, rfl⟩) fun _ => .pure _

theorem fallInto_blames (target next : BlockId) : Blames (fallInto target next) :=
  .bind (terminateIfOpen_blames _) fun _ => switchTo_blames next

theorem enter_blames (block : BlockId) : Blames (enter block) := fallInto_blames block block

theorem dispatch_blames (value : Operand) (cases : List (Word × BlockId)) (otherwise : BlockId) :
    Blames (dispatch value cases otherwise) := by
  unfold dispatch
  split
  · exact terminate_blames _
  · exact terminate_blames _

theorem labelBlock_blames (name : String) : Blames (labelBlock name) := by
  refine .bind .get fun d => ?_
  split
  · exact .pure _
  · exact .bind (newBlock_blames _) fun _ => .bind (.modify _) fun _ => .pure _

theorem defineLabel_blames (name : String) : Blames (defineLabel name) := by
  refine .bind (labelBlock_blames name) fun block => .bind .get fun d => ?_
  split
  · exact .throw rfl
  · exact .bind (.modify _) fun _ => .pure _

theorem slot_blames (name : String) (words : Option UInt64) : Blames (slot name words) := by
  refine .bind .get fun d => ?_
  split
  · exact .throw rfl
  · refine .bind ?_ fun _ => .bind (.modify _) fun _ => .pure _
    -- Without an entry block there is no current one either.
    refine ⟨fun {d e d'} he => ?_⟩
    unfold onFunction at he
    cases hs : d.function.pushSlot words with
    | ok r =>
        rw [hs] at he
        cases he
    | error e' =>
        rw [hs] at he
        cases he
        obtain ⟨hnil, rfl⟩ := Function.eq_nil_of_pushSlot hs
        exact ⟨nofun, fun hv => absurd hv (by simp [Draft.Valid, hnil])⟩

theorem declareAuto_blames (name : String) (size : Option Word) :
    Blames (declareAuto name size) := by
  cases size with
  | none => exact .bind (slot_blames name none) fun _ => store_blames _ _
  | some size =>
      refine .bind (slot_blames name _) fun _ => .bind (emit_blames _) fun _ => ?_
      exact .bind (emit_blames _) fun _ => store_blames _ _

theorem spill_blames (params : List String) : Blames (spill params) := by
  induction params with
  | nil => exact .pure ()
  | cons param params ih =>
      exact .bind (slot_blames param none) fun _ => .bind (store_blames _ _) fun _ => ih

theorem bindExternal_blames (name : String) : Blames (bindExternal name) := by
  refine .of_cause fun d e d' he => ?_
  unfold bindExternal onProgram at he
  cases hb : d.program.bindExternal name with
  | ok p =>
      simp only [hb, bind, Except.bind] at he
      cases he
  | error e' =>
      simp only [hb, bind, Except.bind] at he
      cases he
      exact Program.isCause_of_bindExternal hb

theorem finish_blames : Blames finish := by
  refine .bind .get fun d => ?_
  dsimp only
  split
  · exact .throw rfl
  · exact .bind (terminateIfOpen_blames _) fun _ => .bind .get fun _ => .pure _

end Build

theorem Construction.blames {α : Type} {step : Build α} (h : Construction step) :
    step.Blames := by
  cases h with
  | rvalue a => exact Build.rvalue_blames a
  | apply op lhs rhs => exact Build.apply_blames op lhs rhs
  | assign op address value => exact Build.assign_blames op address value
  | choose a => exact .bind (Build.rvalue_blames a) fun _ => Build.fork_blames _ _
  | fork construct word => exact Build.fork_blames construct word
  | leave last => exact Build.leave_blames last
  | switchTo block => exact Build.switchTo_blames block
  | join last thenValue thenExit elseValue => exact Build.join_blames ..
  | sign sign a => exact Build.sign_blames sign a
  | base a => exact .bind (Build.rvalue_blames a) fun _ => Build.emit_blames _
  | element base index => exact Build.emit_blames _
  | callee a => exact Build.callee_blames a
  | call callee arguments => exact Build.emit_blames _
  | step op spelling a => exact Build.step_blames op spelling a
  | string text => exact Build.string_blames text
  | resolve name => exact Build.resolve_blames name
  | resolveCallee name => exact Build.resolveCallee_blames name
  | fallInto target next => exact Build.fallInto_blames target next
  | enter block => exact Build.enter_blames block
  | loop =>
      exact .bind (Build.newGroup_blames ..) fun _ => .bind (Build.enter_blames _) fun _ => .pure _
  | test word group =>
      exact .bind (Build.condBranch_blames ..) fun _ => Build.switchTo_blames _
  | select =>
      refine .bind (Build.newGroup_blames ..) fun _ => ?_
      exact .bind (Build.fallInto_blames ..) fun _ => .pure _
  | settle value cases group =>
      refine .bind (Build.fallInto_blames ..) fun _ => ?_
      exact .bind (Build.dispatch_blames ..) fun _ => Build.switchTo_blames _
  | caseBlock group value =>
      exact .bind (Build.newBlock_blames _) fun _ => .bind (Build.enter_blames _) fun _ => .pure _
  | goto name =>
      refine .bind (Build.labelBlock_blames name) fun _ => ?_
      refine .bind (Build.terminateIfOpen_blames _) fun _ => .bind Build.freshGroup_blames ?_
      exact fun _ => .bind (Build.newBlock_blames _) fun _ => Build.switchTo_blames _
  | placeLabel name => exact .bind (Build.defineLabel_blames name) fun _ => Build.enter_blames _
  | declareAuto name size => exact Build.declareAuto_blames name size
  | bindExternal name => exact Build.bindExternal_blames name
  | ret value => exact Build.terminate_blames _
  | finish => exact Build.finish_blames

/-- The current block stays one of the function. -/
theorem Trail.valid {d d' : Draft} (ht : Trail d d') (hc : d.Coherent) (hv : d.Valid) :
    d'.Valid := by
  induction ht with
  | refl d => exact hv
  | trans h₁ _ ih₁ ih₂ => exact ih₂ (h₁.coherent hc) (ih₁ hc hv)
  | goTo hb =>
      cases hc.meets hb with
      | block hk => exact hk
  | define _ _ _ => exact Nat.lt_of_lt_of_le hv (Draft.Retains.define _ _).length_le
  | store _ _ _ => exact Nat.lt_of_lt_of_le hv (Draft.Retains.append _ _).length_le
  | ended _ _ => exact Nat.lt_of_lt_of_le hv (Draft.Retains.endedBy _ _).length_le
  | addBlock _ => exact Nat.lt_of_lt_of_le hv (Draft.Retains.addBlock _ _).length_le
  | nextNumber d => exact hv
  | slot hl _ => exact Nat.lt_of_lt_of_le hv (Draft.Retains.withSlot _ _ hl).length_le
  | label _ => exact Nat.lt_of_lt_of_le hv (Draft.Retains.withLabel _ _).length_le
  | labelDefined d name => exact hv
  | string d text => exact hv
  | declare _ _ => exact hv
  | external _ _ => exact hv

/-- The draft of a new function starts in its entry block. -/
theorem Trail.valid_of_entered {p : Program} {id : FunctionId} {name : String}
    {params : List String} {d : Draft} (h : Trail (.ofFunction p id (.entered name params)) d) :
    d.Valid :=
  h.valid (.ofFunction p id name params) Nat.one_pos

/-- Storing the parameters is the first part of the trail. -/
theorem Build.spill_leads (name : String) (params : List String) (p : Program) (i : FunctionId) :
    Leads Trail id (.ofFunction p i (.entered name params)) (fun _ _ => True)
      (spill params (.ofFunction p i (.entered name params))) :=
  spill_trails (fun _ hx => hx) _ (.refl _)

namespace Draft

variable {name : String} {params : List String} {p : Program}

theorem trail_of_start {d : Draft} (h : start name params p = .ok d) :
    ∃ id m, p.module.defineFunction name params = .ok (id, m) ∧
      Trail (.ofFunction { p with module := m } id (.entered name params)) d := by
  unfold start at h
  cases hd : p.module.defineFunction name params with
  | error e =>
      simp only [hd] at h
      cases h
  | ok r =>
      simp only [hd] at h
      have hspill := Build.spill_leads name params { p with module := r.2 } r.1
      split at h
      · next hs =>
          rw [hs] at hspill
          cases h
          exact ⟨r.1, r.2, rfl, hspill.1⟩
      · cases h

theorem isCause_of_start {r : Error × Program} (h : start name params p = .error r) :
    r.1.isCause := by
  unfold start at h
  cases hd : p.module.defineFunction name params with
  | error e =>
      simp only [hd] at h
      cases h
      exact Module.isCause_of_defineFunction hd
  | ok r =>
      simp only [hd] at h
      have hspill := Build.spill_leads name params { p with module := r.2 } r.1
      split at h
      · cases h
      · next hs =>
          rw [hs] at hspill
          cases h
          exact ((Build.spill_blames params).error hs).2 hspill.valid_of_entered

end Draft

namespace Pass

variable {σ α β : Type}

/-- If the step fails where the target is as `P` says, then for a cause in the source, or because
the bound on the nesting was too small. -/
structure Blames (P : σ → Prop) (x : Pass σ α) : Prop where
  error : ∀ {s e t}, x s = .error e t → e = .internal .tooDeep ∨ (P t.target → e.isCause)

namespace Blames

variable {P : σ → Prop}

theorem bind {x : Pass σ α} {f : α → Pass σ β} (hx : Blames P x) (hf : ∀ a, Blames P (f a)) :
    Blames P (x >>= f) := by
  refine ⟨fun {s e t} he => ?_⟩
  obtain hx' | ⟨a, r, _, hb⟩ := bind_eq_error_iff.mp he
  · exact hx.error hx'
  · exact (hf a).error hb

theorem congruence (P : σ → Prop) : Congruence (Alone (Blames P)) where
  pure _ := ⟨nofun⟩
  throw h := by
    refine ⟨fun he => .inr fun _ => ?_⟩
    cases he
    exact h
  bind := bind

theorem deep (P : σ → Prop) : Deep (Alone (Blames P)) := by
  refine fun _ => ⟨fun he => .inl ?_⟩
  cases he
  rfl

theorem bounded {f : Nat → Pass σ α} (h : ∀ d, Blames P (f d)) : Blames P (bounded f) :=
  ⟨fun he => (h _).error he⟩

theorem scan {step : Scan α} (h : Reader step) : Blames P (Pass.scan step) := by
  refine ⟨fun {s e t} he => .inr fun _ => ?_⟩
  have hs := h.spends s.cursor
  rw [(scan_eq_error_iff.mp he).1] at hs
  exact hs.2

theorem build {step : EStateM Error σ α}
    (h : ∀ d e d', step d = .error e d' → P d' → e.isCause) : Blames P (Pass.build step) :=
  ⟨fun he => .inr (h _ _ _ (build_eq_error_iff.mp he).1)⟩

theorem anyItems {close : Char} {place : String} {item : Pass σ α} (h : Blames P item) :
    Blames P (Pass.bounded (anyItems close place item)) := by
  have hitem : Alone (Blames P) item item := h
  exact bounded fun d => (congruence P).anyItems (deep P) (scan (.accept _)) (scan (.another _ _))
    hitem (Nat.le_refl d)

theorem grammatical : Grammatical (Alone (Blames Draft.Valid)) :=
  .of_readers (congruence Draft.Valid) scan fun hc => build fun _ _ _ he => (hc.blames.error he).2

theorem functionBody : Blames Draft.Valid functionBody := by
  have h := grammatical
  refine bind (bounded fun d => ?_) fun _ => bind (h.build .finish) fun _ => h.pure ()
  exact bind ((h.statements (deep _) (Nat.le_refl d)).1 none) fun _ => h.pure ()

/-- A function is built without a fault, since its draft is on a trail from its entry block. -/
theorem drafted (name : String) (params : List String) :
    Blames (fun _ => True) (drafted name params Pass.functionBody) := by
  refine ⟨fun {s e t} he => ?_⟩
  obtain ⟨hstart, _⟩ | ⟨d, r, hstart, hb, _⟩ := drafted_eq_error_iff.mp he
  · exact .inr fun _ => Draft.isCause_of_start hstart
  · have hbody := functionBody_trails d ⟨s.cursor, d⟩ (.refl d)
    rw [hb] at hbody
    obtain ⟨i, m, _, htrail⟩ := Draft.trail_of_start hstart
    have hv := (htrail.trans hbody).valid_of_entered
    exact (functionBody.error hb).imp_right fun h _ => h hv

theorem update {change : Program → Except Error Program}
    (h : ∀ p e, change p = .error e → e.isCause) : Blames (fun _ => True) (update change) := by
  refine build fun p e p' he _ => ?_
  cases hc : change p with
  | ok p₁ =>
      simp only [hc] at he
      cases he
  | error e' =>
      simp only [hc] at he
      cases he
      exact h p e hc

theorem declarative : Declarative (Alone (Blames fun _ => True)) :=
  .of_readers (congruence _) scan anyItems
    (fun _ => build fun _ _ _ he => by cases he)
    (fun _ _ _ => update fun _ _ => Program.isCause_of_declareArray)
    (fun _ _ => update fun _ _ => Program.isCause_of_declareScalar) drafted

end Blames

/-- Declarations fail for a cause in the source, if only the bound is large enough. -/
theorem declarationsAt_blames (d : Nat) : Blames (fun _ => True) (declarationsAt d) :=
  Blames.declarative.declarationsAt (Blames.deep _) Blames.scan (Blames.update nofun)
    (Nat.le_refl d)

end Pass
end BCompiler
