import BCompiler.Proofs.Expression.Run

/-!
The beginning of a function.

Every parameter and every local word has a stack slot. The slots stand together at the top of the
first block, in the order of the names, and behind them the first word of each name is stored in
its slot: an argument, or zero. A machine that is through with this code holds these words.
-/
namespace BCompiler

/-- The stack slot that an instruction makes. -/
def Instr.allocated? : Instr → Option ValueId
  | .define id (.alloca _) => some id
  | _ => none

/-- The stack slots of a function. -/
def Function.allocated (f : Function) : List ValueId :=
  f.blocks.flatMap fun b => b.instrs.filterMap Instr.allocated?

/-- No two stack slots of the function have the same address. -/
def Machine.SlotsDisjoint (m : Machine) : Prop :=
  ∀ i ∈ m.function.allocated, ∀ j ∈ m.function.allocated, m.slot i = m.slot j → i = j

instance (m : Machine) : Decidable m.SlotsDisjoint :=
  inferInstanceAs (Decidable (∀ i ∈ m.function.allocated, ∀ j ∈ m.function.allocated, _))

/-- A slot for a new name, with the operand stored in it. -/
def Build.place (name : String) (value : Operand) : Build Unit := do
  store value (← slot name none)

def Build.fill : List (String × Operand) → Build Unit
  | [] => return
  | (name, value) :: bindings => do
    place name value
    fill bindings

theorem Build.spill_eq_fill (params : List String) :
    spill params = fill (params.map fun x => (x, .param x)) := by
  induction params with
  | nil => rfl
  | cons param params ih =>
      unfold spill
      rw [ih]
      exact (bind_assoc ..).symm

theorem Build.fill_append (bindings more : List (String × Operand)) :
    fill (bindings ++ more) = (do fill bindings; fill more) := by
  induction bindings with
  | nil => rfl
  | cons b bindings ih =>
      rw [List.cons_append, fill, ih, ← bind_assoc]
      rfl

/-- The code that makes the slots from `n` on. -/
def slotCode (n k : Nat) : List Instr := (List.range' n k).map fun i => .define i (.alloca none)

theorem length_slotCode (n k : Nat) : (slotCode n k).length = k := by simp [slotCode]

/-- The code that fills the slots from `n` on. -/
def storeCode (n : Nat) (bindings : List (String × Operand)) : List Instr :=
  (bindings.zipIdx n).map fun b => .store b.1.2 (.value b.2)

/-- The slots of the names, the last one first. -/
def slotNames (bindings : List (String × Operand)) : List (String × Operand) :=
  (bindings.zipIdx.map fun b => (b.1.1, Operand.value b.2)).reverse

/-- The draft of a function that has made and filled the slots of some names. -/
def Draft.entry (program : Program) (id : FunctionId) (name : String) (params : List String)
    (bindings : List (String × Operand)) : Draft where
  program := program
  id := id
  function := ⟨name, params,
    [⟨"entry", slotCode 0 bindings.length ++ storeCode 0 bindings, none⟩],
    bindings.length, bindings.length⟩
  current := 0
  locals := slotNames bindings
  labels := []
  nextGroup := 0

section Fill

variable {program : Program} {id : FunctionId} {name : String} {params : List String}

theorem mem_slotNames {bindings : List (String × Operand)} {x : String} {a : Operand}
    (h : (slotNames bindings).lookup x = some a) :
    ∃ i b, bindings[i]? = some b ∧ b.1 = x ∧ a = .value i := by
  have hm : (x, a) ∈ slotNames bindings := by
    obtain ⟨l₁, l₂, he, _⟩ := List.lookup_eq_some_iff.mp h
    rw [he]
    simp
  obtain ⟨⟨b, i⟩, hb, he⟩ := List.mem_map.mp (List.mem_reverse.mp hm)
  cases he
  exact ⟨i, b, List.mem_zipIdx_iff_getElem?.mp hb, rfl, rfl⟩

theorem lookup_slotNames_eq_none {bindings : List (String × Operand)} {x : String}
    (h : x ∉ bindings.map Prod.fst) : (slotNames bindings).lookup x = none := by
  cases hl : (slotNames bindings).lookup x with
  | none => rfl
  | some a =>
      obtain ⟨i, b, hb, rfl, _⟩ := mem_slotNames hl
      exact absurd (List.mem_map_of_mem (List.mem_of_getElem? hb)) h

theorem isSome_lookup_slotNames {bindings : List (String × Operand)} {x : String}
    (h : x ∈ bindings.map Prod.fst) : ((slotNames bindings).lookup x).isSome := by
  obtain ⟨b, hb, rfl⟩ := List.mem_map.mp h
  obtain ⟨i, hi⟩ := List.mem_iff_getElem?.mp hb
  have hm : (b.1, Operand.value i) ∈ slotNames bindings :=
    List.mem_reverse.mpr (List.mem_map.mpr ⟨(b, i), List.mem_zipIdx_iff_getElem?.mpr hi, rfl⟩)
  rw [List.lookup_isSome_iff]
  exact ⟨_, hm, beq_self_eq_true b.1⟩

theorem Draft.scoped_entry (bindings : List (String × Operand)) :
    (entry program id name params bindings).Scoped := by
  intro x a hl
  obtain ⟨i, b, hb, _, rfl⟩ := mem_slotNames hl
  rintro _ ⟨⟩
  exact (List.getElem?_eq_some_iff.mp hb).1

/-- One more name in the entry of a function. -/
theorem Draft.place_entry {bindings : List (String × Operand)} {x : String} (v : Operand)
    (hx : x ∉ bindings.map Prod.fst) :
    Build.place x v (entry program id name params bindings) =
      .ok () (entry program id name params (bindings ++ [(x, v)])) := by
  let d := entry program id name params bindings
  have hslot : Build.slot x none d = .ok (.value bindings.length) (d.withSlot x none) :=
    Build.slot_eq_ok_iff.mpr ⟨lookup_slotNames_eq_none hx, Nat.one_pos, rfl, rfl⟩
  have hopen : (d.withSlot x none).isOpen := rfl
  refine bind_eq_ok_iff.mpr ⟨_, _, hslot, Build.store_eq_ok_iff.mpr ⟨.of_isOpen hopen, ?_⟩⟩
  rw [opened_of_isOpen hopen]
  -- the new slot goes behind the old ones and in front of the stores
  have hcode : (slotCode 0 bindings.length ++ storeCode 0 bindings).insertIdx bindings.length
      (.define bindings.length (.alloca none)) ++ [.store v (.value bindings.length)] =
      slotCode 0 (bindings ++ [(x, v)]).length ++ storeCode 0 (bindings ++ [(x, v)]) := by
    have hinsert := List.modifyTailIdx_add (.cons (.define bindings.length (.alloca none))) 0
      (slotCode 0 bindings.length) (storeCode 0 bindings)
    rw [length_slotCode, Nat.add_zero] at hinsert
    rw [List.insertIdx, hinsert]
    simp [slotCode, storeCode, List.zipIdx_append, List.range'_1_concat]
  have hnames : slotNames (bindings ++ [(x, v)]) =
      (x, .value bindings.length) :: slotNames bindings := by
    simp [slotNames, List.zipIdx_append]
  unfold entry
  rw [← hcode, hnames, List.length_append]
  rfl

theorem Draft.fill_entry {bindings more : List (String × Operand)}
    (h : ((bindings ++ more).map Prod.fst).Nodup) :
    Build.fill more (entry program id name params bindings) =
      .ok () (entry program id name params (bindings ++ more)) := by
  induction more generalizing bindings with
  | nil =>
      rw [List.append_nil]
      rfl
  | cons b more ih =>
      obtain ⟨x, v⟩ := b
      have hx : x ∉ bindings.map Prod.fst := by
        rw [List.map_append] at h
        exact fun hm => (List.nodup_append.mp h).2.2 x hm x (.head _) rfl
      rw [List.append_cons] at h ⊢
      exact bind_eq_ok_iff.mpr ⟨(), _, place_entry v hx, ih h⟩

end Fill

namespace Machine

variable {m : Machine} {origin : Option BlockId}

/-- Instructions that stand one behind the other in a block. -/
theorem steps_instrs {k : BlockId} {b : Block} {before code after : List Instr} {s s' : State}
    (hb : m.function.blocks[k]? = some b) (hi : b.instrs = before ++ code ++ after)
    (hs : code.foldlM (m.instr origin) s = some s') :
    m.Steps code.length ⟨k, before.length, origin, s⟩
      ⟨k, before.length + code.length, origin, s'⟩ := by
  induction code generalizing before s with
  | nil =>
      cases hs
      exact .refl _
  | cons instr code ih =>
      obtain ⟨s₁, h₁, hs⟩ := Option.bind_eq_some_iff.mp hs
      have hfetch : b.instrs[before.length]? = some instr := by simp [hi]
      have hstep : m.step ⟨k, before.length, origin, s⟩ =
          .next ⟨k, before.length + 1, origin, s₁⟩ := by
        simp only [step, hb, hfetch, h₁]
      have hcode : b.instrs = before ++ [instr] ++ code ++ after := by simp [hi]
      have hrest := ih hcode hs
      rw [List.length_append, List.length_singleton] at hrest
      rw [List.length_cons, ← Nat.add_assoc, Nat.add_right_comm]
      exact .next hstep hrest

theorem slotCode_run (m : Machine) (origin : Option BlockId) (n k : Nat) (s : State) :
    ∃ s', (slotCode n k).foldlM (m.instr origin) s = some s' ∧
      (∀ i, n ≤ i → i < n + k → s'.values i = some (m.slot i)) ∧
      ∀ i < n, s'.values i = s.values i := by
  induction k generalizing n s with
  | zero => exact ⟨s, rfl, fun i hn hi => absurd hi (Nat.not_lt.mpr hn), fun _ _ => rfl⟩
  | succ k ih =>
      obtain ⟨s', hs', hnew, hold⟩ := ih (n + 1) (s.define n (m.slot n) s.memory)
      refine ⟨s', hs', fun i hn hi => ?_, fun i hi => ?_⟩
      · by_cases he : i = n
        · subst he
          rw [hold i (Nat.lt_succ_self i)]
          exact if_pos rfl
        · exact hnew i (by omega) (by omega)
      · rw [hold i (Nat.lt_succ_of_lt hi)]
        exact if_neg (Nat.ne_of_lt hi)

/-- What is stored stays, because the slots are disjoint. -/
theorem storeCode_run {env : Env} {k : Nat} (bindings : List (String × Operand)) (n : Nat)
    (s : State) (hk : n + bindings.length ≤ k)
    (hslots : ∀ i < k, s.values i = some (m.slot i))
    (hdisjoint : ∀ i < k, ∀ j < k, m.slot i = m.slot j → i = j)
    (hwords : ∀ b ∈ bindings, ∀ s, m.operand s b.2 = some (env b.1)) :
    ∃ s', (storeCode n bindings).foldlM (m.instr origin) s = some s' ∧ s'.values = s.values ∧
      (∀ i b, bindings[i]? = some b → s'.memory (m.slot (n + i)) = env b.1) ∧
      ∀ i < n, s'.memory (m.slot i) = s.memory (m.slot i) := by
  induction bindings generalizing n s with
  | nil => exact ⟨s, rfl, rfl, fun i b hb => by simp at hb, fun _ _ => rfl⟩
  | cons b bindings ih =>
      rw [List.length_cons] at hk
      have hinstr : m.instr origin s (.store b.2 (.value n)) =
          some (s.store (m.slot n) (env b.1)) := by
        have haddress : m.operand s (.value n) = some (m.slot n) := hslots n (by omega)
        rw [instr, haddress, hwords b (.head _)]
        rfl
      obtain ⟨s', hs', hvalues, hnew, hold⟩ := ih (n + 1) (s.store (m.slot n) (env b.1)) (by omega)
        hslots fun b hb => hwords b (.tail _ hb)
      refine ⟨s', ?_, hvalues, fun i b' hb => ?_, fun i hi => ?_⟩
      · exact Option.bind_eq_some_iff.mpr ⟨_, hinstr, hs'⟩
      · cases i with
        | zero =>
            cases hb
            rw [Nat.add_zero, hold n (Nat.lt_succ_self n)]
            exact if_pos rfl
        | succ i =>
            have hword := hnew i b' hb
            rwa [Nat.add_right_comm] at hword
      · rw [hold i (by omega)]
        refine if_neg fun he => ?_
        exact absurd (hdisjoint i (by omega) n (by omega) he) (by omega)

/-- The entry of a function leaves the first words in the slots of the names. -/
theorem entry_steps {program : Program} {id : FunctionId} {name : String} {params : List String}
    {bindings : List (String × Operand)} {env : Env}
    (hx : (Draft.entry program id name params bindings).function.Extends m.function)
    (hdisjoint : m.SlotsDisjoint)
    (hwords : ∀ b ∈ bindings, ∀ s, m.operand s b.2 = some (env b.1)) (memory : Memory) :
    ∃ n s, m.Steps n (.start memory)
        ((Draft.entry program id name params bindings).point none s) ∧
      Holds (slotNames bindings) env s := by
  obtain ⟨b, hb, hext⟩ := hx 0 _ rfl
  obtain ⟨after, hinstrs⟩ :
      ∃ after, b.instrs = [] ++ (slotCode 0 bindings.length ++ storeCode 0 bindings) ++ after := by
    rcases hext with rfl | ⟨_, after, ha⟩
    · exact ⟨[], (List.append_nil _).symm⟩
    · exact ⟨after, ha.symm⟩
  have hslot : ∀ i < bindings.length, i ∈ m.function.allocated := by
    intro i hi
    refine List.mem_flatMap.mpr ⟨b, List.mem_of_getElem? hb, List.mem_filterMap.mpr
      ⟨Instr.define i (.alloca none), ?_, rfl⟩⟩
    rw [hinstrs, List.nil_append]
    refine List.mem_append_left _ (List.mem_append_left _ (List.mem_map.mpr ⟨i, ?_, rfl⟩))
    exact List.mem_range'_1.mpr ⟨Nat.zero_le i, Nat.lt_of_lt_of_eq hi (Nat.zero_add _).symm⟩
  have hslots : ∀ i < bindings.length, ∀ j < bindings.length, m.slot i = m.slot j → i = j :=
    fun i hi j hj => hdisjoint i (hslot i hi) j (hslot j hj)
  obtain ⟨s₁, h₁, hmade, _⟩ := slotCode_run m none 0 bindings.length ⟨fun _ => none, memory⟩
  have hmade : ∀ i < bindings.length, s₁.values i = some (m.slot i) :=
    fun i hi => hmade i (Nat.zero_le i) (Nat.lt_of_lt_of_eq hi (Nat.zero_add _).symm)
  obtain ⟨s₂, h₂, hvalues, hfilled, _⟩ := storeCode_run bindings 0 s₁
    (Nat.le_of_eq (Nat.zero_add _)) hmade hslots hwords
  rw [← hvalues] at hmade
  have hrun : (slotCode 0 bindings.length ++ storeCode 0 bindings).foldlM (m.instr none)
      ⟨fun _ => none, memory⟩ = some s₂ := by
    rw [List.foldlM_append]
    exact Option.bind_eq_some_iff.mpr ⟨s₁, h₁, h₂⟩
  have hsteps := steps_instrs hb hinstrs hrun
  rw [List.length_nil, Nat.zero_add] at hsteps
  refine ⟨_, s₂, hsteps, ?_, ?_⟩
  · intro x a hl
    obtain ⟨i, binding, hi, rfl, rfl⟩ := mem_slotNames hl
    refine ⟨i, m.slot i, rfl, hmade i (List.getElem?_eq_some_iff.mp hi).1, ?_⟩
    rw [← hfilled i binding hi, Nat.zero_add]
  · intro x y i j place hlx hly hi hj
    obtain ⟨_, b₁, hb₁, rfl, he⟩ := mem_slotNames hlx
    cases he
    obtain ⟨_, b₂, hb₂, rfl, he⟩ := mem_slotNames hly
    cases he
    have hil := (List.getElem?_eq_some_iff.mp hb₁).1
    have hjl := (List.getElem?_eq_some_iff.mp hb₂).1
    have hsame : m.slot i = m.slot j := Option.some.inj <|
      (hmade i hil).symm.trans (hi.trans (hj.symm.trans (hmade j hjl)))
    cases hslots i hil j hjl hsame
    cases hb₁.symm.trans hb₂
    rfl

end Machine
end BCompiler
