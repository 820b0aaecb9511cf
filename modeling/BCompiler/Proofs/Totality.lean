import BCompiler.Proofs.Assembly.Module
import BCompiler.Proofs.Line

/-!
The compiler comes to an end and never meets a fault of its own.

Whatever a session has compiled before, with or without success, a further source is compiled or
refused for something in its text. The bound on the nesting plays no part in it, every block and
function that is looked up exists, and the module that is left can be printed.
-/
namespace BCompiler

/-- The number of functions that have a body. -/
def Module.definedCount (m : Module) : Nat := m.functions.countP fun f => !f.isDeclaration

theorem Session.functionsDefined_eq (s : Session) :
    s.statistics.functionsDefined = s.module.definedCount :=
  List.countP_eq_length_filter.symm

namespace Module

/-- A function with a body takes the place of any other. -/
theorem definedCount_le_setFunction (m : Module) (id : FunctionId) {f : Function}
    (hf : f.isDeclaration = false) : m.definedCount ≤ (m.setFunction id f).definedCount := by
  unfold definedCount setFunction
  by_cases hid : id < m.functions.length
  · have hone : (if !m.functions[id].isDeclaration then 1 else 0) ≤ 1 := by split <;> omega
    have hpos := List.boole_getElem_le_countP (p := fun f => !f.isDeclaration) hid
    rw [List.countP_set hid, hf]
    simp only [Bool.not_false, if_true]
    omega
  · have hset := List.set_eq_of_length_le (Nat.not_lt.mp hid) (a := f)
    exact Nat.le_of_eq (congrArg (List.countP fun f => !f.isDeclaration) hset.symm)

theorem definedCount_le_of_prefix {m m' : Module} (h : m.functions <+: m'.functions) :
    m.definedCount ≤ m'.definedCount := h.countP_le

theorem definedCount_le_insertFunction (m : Module) {f : Function} (hf : f.isDeclaration = false) :
    m.definedCount ≤ (m.insertFunction f).2.definedCount := by
  unfold insertFunction
  split
  · exact m.definedCount_le_setFunction _ hf
  · exact definedCount_le_of_prefix (List.prefix_append _ _)

end Module

/-- No step takes a function away, or its body. -/
theorem Growth.definedCount_le {p p' : Program} (h : Growth p p') :
    p.module.definedCount ≤ p'.module.definedCount := by
  induction h with
  | refl p => exact Nat.le_refl _
  | trans _ _ ih₁ ih₂ => exact Nat.le_trans ih₁ ih₂
  | string p text => exact Nat.le_refl _
  | global _ _ hd =>
      obtain ⟨i, m, hm, rfl⟩ := Program.defineGlobal_eq_ok hd
      obtain ⟨_, hf, _⟩ := Module.defineGlobal_eq_ok hm
      exact Module.definedCount_le_of_prefix (hf ▸ List.prefix_rfl)
  | clearScope p => exact Nat.le_refl _
  | @function p name params i m d _ _ hd ht =>
      obtain ⟨_, hi⟩ := Module.defineFunction_eq_ok hd
      have hinsert := p.module.definedCount_le_insertFunction
        (show (Function.entered name params).isDeclaration = false from rfl)
      rw [hi] at hinsert
      have hbuilt := Module.definedCount_le_of_prefix ht.retains.functions
      have hbody : d.function.isDeclaration = false := by
        have hlen := Nat.lt_of_le_of_lt (Nat.zero_le _) ht.valid_of_entered
        exact List.isEmpty_eq_false_iff.mpr (List.length_pos_iff.mp hlen)
      exact Nat.le_trans hinsert
        (Nat.le_trans hbuilt (d.program.module.definedCount_le_setFunction d.id hbody))

/-- The place of a draft in its module, and that of its current block, exist. -/
theorem Trail.inRange {p : Program} {name : String} {params : List String} {i : FunctionId}
    {m : Module} {d : Draft} (hd : p.module.defineFunction name params = .ok (i, m))
    (ht : Trail (.ofFunction { p with module := m } i (.entered name params)) d) :
    d.id < d.program.module.functions.length ∧ d.current < d.function.blocks.length := by
  obtain ⟨_, hi⟩ := Module.defineFunction_eq_ok hd
  obtain ⟨g, hg, hgname⟩ := Module.name_of_insertFunction hi
  obtain ⟨g', hg', _⟩ := ht.place hg hgname
  exact ⟨(List.getElem?_eq_some_iff.mp hg').1, ht.valid_of_entered⟩

namespace Session

/-- Compiling the source comes to an end without a fault of the compiler. -/
structure Completes (s : Session) (path text : String) : Prop where
  /-- No bound on the nesting is too small that is not less than the one set by the text. -/
  bounded : ∀ d, (Cursor.ofText text s.wordSize).depth ≤ d →
    Pass.declarationsAt d ⟨.ofText text s.wordSize, s.program⟩ =
      Pass.declarations ⟨.ofText text s.wordSize, s.program⟩
  /-- No error is a fault. -/
  faultless : ∀ e s', compile path text s = .error e s' → ∀ fault, e.cause ≠ .internal fault
  /-- The changes of the program are drafts of functions, and others without a draft. -/
  growth : Growth s.program (s.after path text).program
  /-- A draft looks up functions and blocks that exist. -/
  inRange : ∀ p name params i m d, Growth s.program p →
    p.module.defineFunction name params = .ok (i, m) →
    Trail (.ofFunction { p with module := m } i (.entered name params)) d →
    d.id < d.program.module.functions.length ∧ d.current < d.function.blocks.length
  /-- Lines are counted from one. -/
  lines : ∀ c, (Cursor.ofText text s.wordSize).Visits c → 1 ≤ c.line
  functionsDefined : s.statistics.functionsDefined ≤ (s.after path text).statistics.functionsDefined
  /-- What is left can be printed. -/
  printed : ∃ assembly, (s.after path text).module.assembly = .ok assembly

theorem cause_of_compile {s s' : Session} {path text : String} {e : Error}
    (h : compile path text s = .error e s') : e.cause.isCause := by
  unfold compile at h
  cases hd : Pass.declarations ⟨.ofText text s.wordSize, s.program⟩ with
  | ok u site =>
      rw [hd] at h
      cases h
  | error e' site =>
      rw [hd] at h
      cases h
      have hcause := Pass.isCause_of_declarations hd
      rw [Error.cause_locate]
      cases e' with
      | located | io | internal => cases hcause
      | _ => rfl

theorem history_append (s : Session) (sources : List (String × String)) (path text : String) :
    s.history (sources ++ [(path, text)]) = (s.history sources).after path text :=
  List.foldl_append

/-- Whatever a session has compiled before, it comes to an end with any source. -/
theorem completes_history (moduleName : String) (wordSize : Nat)
    (sources : List (String × String)) (path text : String) :
    ((Session.new moduleName wordSize).history sources).Completes path text where
  bounded d hd := (Pass.declarations_eq hd).symm
  faultless e s' h fault hfault := by
    have hcause := cause_of_compile h
    rw [hfault] at hcause
    cases hcause
  growth := growth_after path text _
  inRange _ _ _ _ _ _ _ hd ht := ht.inRange hd
  lines c hc := hc.follows.forward
  functionsDefined := by
    rw [functionsDefined_eq, functionsDefined_eq]
    exact (growth_after path text _).definedCount_le
  printed := by
    have htext := assembly_history moduleName wordSize (sources ++ [(path, text)])
    rwa [history_append] at htext

end Session
end BCompiler
