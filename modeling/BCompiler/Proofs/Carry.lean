import BCompiler.Session.Basic
import BCompiler.Proofs.Course

/-!
What lasts while the body of a function is compiled.

A body that is accepted is compiled by a course of steps, and each step is made of a few changes of
the draft. A relation between drafts that these changes keep to holds between any two drafts of a
course. One of them says that the draft goes on with the same function. A switch that a course makes
has no value twice, since a case is compared with those before it.
-/
namespace BCompiler

namespace Module

variable {m : Module} {name : String}

theorem prefix_declareFunction (m : Module) (name : String) :
    m.functions <+: (m.declareFunction name).2.functions := by
  unfold declareFunction
  cases h : m.functionId? name with
  | some id => exact List.prefix_rfl
  | none =>
      dsimp only
      unfold insertFunction
      have h : m.functionId? (Function.declared name).name = none := h
      rw [h]
      exact List.prefix_append _ _

theorem functions_defineGlobal {m' : Module} {init : GlobalInit} {id : GlobalId}
    (h : m.defineGlobal name init = .ok (id, m')) : m'.functions = m.functions := by
  unfold defineGlobal at h
  split at h
  · cases h
  · split at h <;> cases h <;> rfl

end Module

namespace Program

variable {p p' : Program} {name : String}

theorem functions_defineGlobal {init : GlobalInit} (h : p.defineGlobal name init = .ok p') :
    p'.module.functions = p.module.functions := by
  unfold defineGlobal at h
  cases hg : p.module.defineGlobal name init with
  | error e => rw [hg] at h; cases h
  | ok r =>
      rw [hg] at h
      cases h
      exact Module.functions_defineGlobal hg

theorem functions_bindExternal (h : p.bindExternal name = .ok p') :
    p'.module.functions = p.module.functions := by
  unfold bindExternal at h
  split at h
  · cases h
    rfl
  · split at h
    · cases h
      rfl
    · cases hg : p.module.defineGlobal name .placeholder with
      | error e => simp [hg, bind, Except.bind] at h
      | ok r =>
          simp only [hg, bind, Except.bind, pure, Except.pure] at h
          cases h
          exact Module.functions_defineGlobal hg

end Program

/-- The values that a terminator compares with. -/
def Terminator.caseValues : Terminator → List Word
  | .switch _ _ cases => cases.map Prod.fst
  | _ => []

theorem Terminator.caseValues_dispatch (value : Operand) (cases : List (Word × BlockId))
    (otherwise : BlockId) :
    (Terminator.dispatch value cases otherwise).caseValues = cases.map Prod.fst := by
  cases cases <;> rfl

/-- The values that the innermost enclosing switch has so far. -/
def Switch.valuesOf (enclosing : Option Switch) : List Word :=
  ((enclosing.map Switch.cases).getD []).map Prod.fst

theorem Course.nodup_valuesOf {d d' : Draft} {e e' : Option Switch} (h : Course d e d' e') :
    (Switch.valuesOf e).Nodup → (Switch.valuesOf e').Nodup := by
  induction h with
  | refl | code | slot | external | ret | goto | label | switch => exact fun he => he
  | trans _ _ ih₁ ih₂ => exact fun he => ih₂ (ih₁ he)
  | ifElse _ _ _ _ _ _ _ ih₁ ih₂ => exact fun he => ih₂ (ih₁ he)
  | whileLoop _ _ _ _ _ _ ih => exact ih
  | @case d d' e value block hnew _ =>
      intro he
      change ((e.cases ++ [(value, block)]).map Prod.fst).Nodup
      rw [List.map_append, List.nodup_append]
      refine ⟨he, by simp, fun a ha b hb => ?_⟩
      obtain ⟨arm, harm, rfl⟩ := List.mem_map.mp ha
      rw [List.mem_singleton.mp hb]
      exact hnew arm harm

/-- A relation between drafts that the changes on a course keep to. -/
structure Draft.Carried (R : Draft → Draft → Prop) : Prop where
  refl (d : Draft) : R d d
  trans {d d₁ d' : Draft} : R d d₁ → R d₁ d' → R d d'
  define (d : Draft) {operation : Operation} : operation.callsComputed → R d (d.define operation)
  append (d : Draft) (value address : Operand) : R d (d.append (.store value address))
  endedBy (d : Draft) {t : Terminator} : d.isOpen → t.caseValues.Nodup → R d (d.endedBy t)
  addBlock (d : Draft) (name : String) : R d (d.addBlock name)
  goTo (d : Draft) (block : BlockId) : R d (d.goTo block)
  nextNumber (d : Draft) : R d d.nextNumber
  withSlot (d : Draft) (name : String) (words : Option UInt64) : R d (d.withSlot name words)
  withLabels (d : Draft) (labels : List Label) : R d { d with labels }
  program (d : Draft) (p : Program) : d.program.module.functions <+: p.module.functions →
    R d { d with program := p }

namespace Draft.Carried

variable {R : Draft → Draft → Prop} (r : Carried R) {d d' : Draft}

include r

theorem addGroup (d : Draft) (construct first second last : String) :
    R d (d.addGroup construct first second last) :=
  r.trans (r.nextNumber d)
    (r.trans (r.addBlock _ _) (r.trans (r.addBlock _ _) (r.addBlock _ _)))

theorem opened (d : Draft) : R d d.opened := by
  unfold Draft.opened
  split
  · exact r.refl d
  · exact r.trans (r.nextNumber d) (r.trans (r.addBlock _ _) (r.goTo _ _))

theorem endedIfOpen (d : Draft) {t : Terminator} (ht : t.caseValues.Nodup) :
    R d (d.endedIfOpen t) := by
  unfold Draft.endedIfOpen
  split
  · next hopen => exact r.endedBy d hopen ht
  · exact r.refl d

theorem mentioning (d : Draft) (name : String) : R d (d.mentioning name) := by
  unfold Draft.mentioning
  split
  · exact r.refl d
  · exact r.trans (r.addBlock d _) (r.withLabels _ _)

theorem unreachable (d : Draft) : R d d.unreachable :=
  r.trans (r.nextNumber d) (r.trans (r.addBlock _ _) (r.goTo _ _))

theorem branched (d : Draft) (word : Operand) (t e : BlockId) : R d (d.branched word t e) :=
  r.trans (r.opened d) (r.trans (r.define _ rfl)
    (r.endedBy _ (isOpen_define d.isOpen_opened _) List.nodup_nil))

theorem fallenInto (d : Draft) (target next : BlockId) : R d (d.fallenInto target next) :=
  r.trans (r.endedIfOpen d (t := .branch target) List.nodup_nil) (r.goTo _ _)

theorem fallInto {target next : BlockId} {u : Unit}
    (h : Build.fallInto target next d = .ok u d') : R d d' := by
  obtain ⟨_, rfl⟩ := Build.fallInto_eq_ok_iff.mp h
  exact r.fallenInto d target next

theorem leave {last exit : BlockId} (h : Build.leave last d = .ok exit d') : R d d' := by
  obtain ⟨_, _, rfl⟩ := Build.leave_eq_ok_iff.mp h
  exact r.trans (r.opened d) (r.endedBy _ d.isOpen_opened List.nodup_nil)

theorem emit {operation : Operation} {v : Operand} (hcalls : operation.callsComputed)
    (h : Build.emit operation d = .ok v d') : R d d' := by
  obtain ⟨_, _, rfl⟩ := Build.emit_eq_ok_iff.mp h
  exact r.trans (r.opened d) (r.define _ hcalls)

theorem store {value address : Operand} {u : Unit} (h : Build.store value address d = .ok u d') :
    R d d' := by
  obtain ⟨_, rfl⟩ := Build.store_eq_ok_iff.mp h
  exact r.trans (r.opened d) (r.append _ _ _)

theorem ret {v : Operand} {u : Unit} (h : Build.ret v d = .ok u d') : R d d' := by
  obtain ⟨_, rfl⟩ := Build.terminate_eq_ok_iff.mp h
  exact r.trans (r.opened d) (r.endedBy _ d.isOpen_opened List.nodup_nil)

theorem fork {construct : String} {word : Operand} {g : BlockGroup}
    (h : Build.fork construct word d = .ok g d') : R d d' := by
  obtain ⟨_, rfl, rfl⟩ := Build.fork_eq_ok_iff.mp h
  exact r.trans (r.addGroup d _ _ _ _) (r.trans (r.branched _ _ _ _) (r.goTo _ _))

theorem join {last exit : BlockId} {thenValue elseValue v : Operand}
    (h : Build.join last thenValue exit elseValue d = .ok v d') : R d d' := by
  obtain ⟨elseExit, d₁, hl, h⟩ := bind_eq_ok_iff.mp h
  obtain ⟨_, d₂, hs, h⟩ := bind_eq_ok_iff.mp h
  cases Build.switchTo_eq_ok_iff.mp hs
  exact r.trans (r.leave hl) (r.trans (r.goTo d₁ last) (r.emit rfl h))

theorem loop {g : BlockGroup} (h : Build.loop d = .ok g d') : R d d' := by
  obtain ⟨_, rfl, rfl⟩ := Build.loop_eq_ok_iff.mp h
  exact r.trans (r.addGroup d _ _ _ _) (r.fallenInto _ _ _)

theorem test {word : Operand} {g : BlockGroup} {u : Unit} (h : Build.test word g d = .ok u d') :
    R d d' := by
  obtain ⟨_, rfl⟩ := Build.test_eq_ok_iff.mp h
  exact r.trans (r.branched d _ _ _) (r.goTo _ _)

theorem select {g : BlockGroup} (h : Build.select d = .ok g d') : R d d' := by
  obtain ⟨_, rfl, rfl⟩ := Build.select_eq_ok_iff.mp h
  exact r.trans (r.addGroup d _ _ _ _) (r.fallenInto _ _ _)

theorem settle {value : Operand} {cases : List (Word × BlockId)} {g : BlockGroup} {u : Unit}
    (hcases : (cases.map Prod.fst).Nodup) (h : Build.settle value cases g d = .ok u d') :
    R d d' := by
  obtain ⟨_, _, rfl⟩ := Build.settle_eq_ok_iff.mp h
  rw [← Terminator.caseValues_dispatch value cases g.last] at hcases
  refine r.trans (r.fallenInto d g.last g.second) ?_
  exact r.trans (r.opened _) (r.trans (r.endedBy _ (isOpen_opened _) hcases) (r.goTo _ _))

theorem emission {known known' : List Typed} (h : Emission d known d' known') : R d d' := by
  induction h with
  | refl d => exact r.refl d
  | trans _ _ ih₁ ih₂ => exact r.trans ih₁ ih₂
  | const | symbol | slot => exact r.refl _
  | emit hp _ h => exact r.emit (Operation.callsComputed_of_isPlain hp) h
  | store _ _ h => exact r.store h
  | string text => exact r.program _ _ List.prefix_rfl
  | declare name => exact r.program _ _ (Module.prefix_declareFunction _ name)
  | @conditional d d₁ d₂ d₃ d₄ d' _ _ _ _ _ _ _ g _ _ hf _ _ hl _ _ hj ih₁ ih₂ =>
      have helse := r.trans (r.goTo d₃ g.second) (r.trans ih₂ (r.join hj))
      exact r.trans (r.fork hf) (r.trans ih₁ (r.trans (r.leave hl) helse))

theorem course {e e' : Option Switch} (h : Course d e d' e') : R d d' := by
  induction h with
  | refl d => exact r.refl d
  | trans _ _ ih₁ ih₂ => exact r.trans ih₁ ih₂
  | code h => exact r.emission h
  | slot h =>
      obtain ⟨_, _, _, rfl⟩ := Build.slot_eq_ok_iff.mp h
      exact r.withSlot _ _ _
  | @external d d' e name u h =>
      obtain ⟨p, hp, rfl⟩ := Build.onProgram_eq_ok_iff.mp h
      cases hb : d.program.bindExternal name with
      | error e => simp [hb, bind, Except.bind] at hp
      | ok q =>
          simp only [hb, bind, Except.bind, pure, Except.pure, Except.ok.injEq, Prod.mk.injEq,
            true_and] at hp
          subst hp
          exact r.program _ _ (Program.functions_bindExternal hb ▸ List.prefix_rfl)
  | ret hc _ h => exact r.trans (r.emission hc) (r.ret h)
  | @goto d d' e name u h =>
      obtain ⟨_, rfl⟩ := Build.goto_eq_ok_iff.mp h
      have hended := r.endedIfOpen (d.mentioning name) (t := .branch (d.labelTarget name))
        List.nodup_nil
      exact r.trans (r.mentioning d name) (r.trans hended (r.unreachable _))
  | @label d d' e name u h =>
      obtain ⟨_, _, rfl⟩ := Build.placeLabel_eq_ok_iff.mp h
      exact r.trans (r.mentioning d name) (r.trans (r.withLabels _ _) (r.fallenInto _ _ _))
  | @case d d' e value block _ h =>
      obtain ⟨_, rfl, rfl⟩ := Build.caseBlock_eq_ok_iff.mp h
      exact r.trans (r.addBlock d _) (r.fallenInto _ _ _)
  | ifElse hc _ hf _ hfall _ henter ih₁ ih₂ =>
      have harms := r.trans ih₁ (r.trans (r.fallInto hfall) (r.trans ih₂ (r.fallInto henter)))
      exact r.trans (r.emission hc) (r.trans (r.fork hf) harms)
  | whileLoop hl hc _ ht _ hfall ih =>
      have hbody := r.trans (r.test ht) (r.trans ih (r.fallInto hfall))
      exact r.trans (r.loop hl) (r.trans (r.emission hc) hbody)
  | switch hc _ hs hbody hd ih =>
      have hsettle := r.settle (hbody.nodup_valuesOf List.nodup_nil) hd
      exact r.trans (r.emission hc) (r.trans (r.select hs) (r.trans ih hsettle))

theorem spill {params : List String} {u : Unit} (h : Build.spill params d = .ok u d') :
    R d d' := by
  refine Build.spill_induction (P := R d) (fun hd hslot hstore => ?_) (r.refl d) h
  exact r.trans hd (r.trans (r.course (.slot (e := none) hslot)) (r.store hstore))

theorem finish {id : FunctionId} (h : Build.finish d = .ok id d') : R d d' := by
  obtain ⟨_, _, _, rfl⟩ := Build.finish_eq_ok_iff.mp h
  exact r.endedIfOpen d (t := .ret (.const 0)) List.nodup_nil

end Draft.Carried

/-- The draft goes on with the same function, whose blocks stay, and its program keeps the functions
that it has. -/
structure Draft.Continues (d d' : Draft) : Prop where
  id : d'.id = d.id
  name : d'.function.name = d.function.name
  params : d'.function.params = d.function.params
  blocks : d.function.blockNames <+: d'.function.blockNames
  functions : d.program.module.functions <+: d'.program.module.functions

namespace Draft.Continues

variable {d d' : Draft}

theorem refl (d : Draft) : d.Continues d := ⟨rfl, rfl, rfl, List.prefix_rfl, List.prefix_rfl⟩

theorem trans {d₁ : Draft} (h : d.Continues d₁) (h' : d₁.Continues d') : d.Continues d' :=
  ⟨h'.id.trans h.id, h'.name.trans h.name, h'.params.trans h.params, h.blocks.trans h'.blocks,
    h.functions.trans h'.functions⟩

/-- A change of the program that keeps its functions. -/
theorem program (p : Program) (h : d.program.module.functions <+: p.module.functions) :
    d.Continues { d with program := p } := ⟨rfl, rfl, rfl, List.prefix_rfl, h⟩

/-- A change of the code that adds no block. -/
theorem code (h : (d'.id, d'.function.name, d'.function.params, d'.program) =
      (d.id, d.function.name, d.function.params, d.program))
    (hnames : d'.function.blockNames = d.function.blockNames) : d.Continues d' := by
  simp only [Prod.mk.injEq] at h
  obtain ⟨hid, hname, hparams, hprogram⟩ := h
  exact ⟨hid, hname, hparams, hnames ▸ List.prefix_rfl, hprogram ▸ List.prefix_rfl⟩

theorem goTo (d : Draft) (block : BlockId) : d.Continues (d.goTo block) := .code rfl rfl

theorem define (d : Draft) (operation : Operation) : d.Continues (d.define operation) :=
  .code rfl (d.blockNames_define operation)

theorem append (d : Draft) (instr : Instr) : d.Continues (d.append instr) :=
  .code rfl (d.blockNames_append instr)

theorem endedBy (d : Draft) (t : Terminator) : d.Continues (d.endedBy t) :=
  .code rfl (d.blockNames_endedBy t)

theorem addBlock (d : Draft) (name : String) : d.Continues (d.addBlock name) :=
  ⟨rfl, rfl, rfl, d.blockNames_addBlock name ▸ List.prefix_append _ _, List.prefix_rfl⟩

theorem nextNumber (d : Draft) : d.Continues d.nextNumber := .code rfl rfl

theorem carried : Carried Continues where
  refl := refl
  trans := trans
  define d _ _ := define d _
  append d _ _ := append d _
  endedBy d _ _ _ := endedBy d _
  addBlock := addBlock
  goTo := goTo
  nextNumber := nextNumber
  withSlot d name words := .code rfl (d.blockNames_withSlot name words)
  withLabels _ _ := .code rfl rfl
  program _ p h := program p h

end Draft.Continues

end BCompiler
