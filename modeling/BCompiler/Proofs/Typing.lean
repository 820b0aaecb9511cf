import BCompiler.Proofs.Closure

/-!
The types of operands.

Operands carry no types, but the assembly needs a type at each place: a word, one bit or a pointer.
Each operand has one type, given by what it stands for, and it is the type that every place needs at
which the operand stands.
-/
namespace BCompiler

/-- The type of a value, if the instruction defines it. -/
def Instr.typeOf? (id : ValueId) : Instr → Option ValueType
  | define id' operation => if id' = id then some operation.type else none
  | store _ _ => none

namespace Function

/-- The type of an operand: a value has that of the operation that defines it. -/
def typeOf? (f : Function) : Operand → Option ValueType
  | .const _ => some .word
  | .param x => if x ∈ f.params then some .word else none
  | .value id => f.instrs.findSome? (Instr.typeOf? id)
  | .symbol _ => some .pointer

/-- Every value is defined once, and every operand has the type that its place needs. -/
structure WellTyped (f : Function) : Prop where
  once : f.definitions.Nodup
  typed : ∀ x ∈ f.demands, f.typeOf? x.2 = some x.1

variable {f : Function}

theorem definitions_eq (f : Function) : f.definitions = f.instrs.filterMap Instr.definition? := by
  unfold definitions instrs
  rw [List.filterMap_flatMap]
  rfl

/-- The first definition of a value is the only one. -/
theorem findSome?_typeOf? {instrs : List Instr} {id : ValueId} {operation : Operation}
    (honce : (instrs.filterMap Instr.definition?).Nodup) (h : .define id operation ∈ instrs) :
    instrs.findSome? (Instr.typeOf? id) = some operation.type := by
  induction instrs with
  | nil => cases h
  | cons instr instrs ih =>
      rw [List.findSome?_cons]
      rcases List.mem_cons.mp h with rfl | hrest
      · rw [Instr.typeOf?, if_pos rfl]
      · cases instr with
        | store value address => exact ih honce hrest
        | define id' operation' =>
            obtain ⟨hnew, honce⟩ := List.nodup_cons.mp honce
            have hne : id' ≠ id := by
              rintro rfl
              exact hnew (List.mem_filterMap.mpr ⟨_, hrest, rfl⟩)
            rw [Instr.typeOf?, if_neg hne]
            exact ih honce hrest

theorem Meets.typeOf? {p : Program} {type : ValueType} {operand : Operand}
    (honce : f.definitions.Nodup) (h : f.Meets p (.operand type operand)) :
    f.typeOf? operand = some type := by
  cases h with
  | const w => rfl
  | param hx => exact if_pos hx
  | symbol _ => rfl
  | value hi => exact findSome?_typeOf? (f.definitions_eq ▸ honce) hi

theorem Coherent.wellTyped {p : Program} (h : f.Coherent p) : f.WellTyped := by
  have honce : f.definitions.Nodup := h.once.nodup_iff.mpr List.nodup_range
  exact ⟨honce, fun x hx => (h.met _ (operand_mem_needs.mpr hx)).typeOf? honce⟩

end Function

/-- Whatever was compiled in a session, with or without success, every function of its module is
well typed, however far its body was compiled. -/
theorem Session.wellTyped_history (moduleName : String) (wordSize : Nat)
    (sources : List (String × String)) {f : Function}
    (h : f ∈ ((Session.new moduleName wordSize).history sources).module.functions) : f.WellTyped :=
  ((closed_history moduleName wordSize sources).functions f h).coherent.wellTyped

/-- Two sources, the second of which breaks off inside an argument list: its function stops where
the arms of a conditional are joined, before the call. -/
def Session.brokenOff : List (String × String) :=
  [("whole.b", "n; f(a) \x7b extrn n; return(a[n++] * -a); \x7d"),
    ("broken.b", "g(x) \x7b extrn n; auto v[3]; while (x < n) v[x] = f(x ? &n : !*x, ")]

theorem Session.wellTyped_brokenOff :
    ((Session.new "m" 8).history brokenOff).filesCompiled = 1 ∧
      ∃ f, ((Session.new "m" 8).history brokenOff).module.function? "g" = some f ∧
        f.demands.length = 32 ∧ f.WellTyped := by
  have hlength : (((Session.new "m" 8).history brokenOff).module.function? "g").map
      (fun f => f.demands.length) = some 32 := by decide +kernel
  obtain ⟨f, hf, hlength⟩ := Option.map_eq_some_iff.mp hlength
  exact ⟨by decide +kernel, f, hf, hlength,
    wellTyped_history "m" 8 brokenOff (Module.mem_of_function? hf)⟩

end BCompiler
