import BCompiler.Proofs.Frame
import BCompiler.Proofs.Machine

/-!
Running the code of a draft.

A run of a function that has the code of a draft passes through the places where the code was
added. What the steps of a build compute is said by the word that there is afterwards, or by no word
at all if the machine gets stuck on the way.
-/
namespace BCompiler

/-- Where a run stands that is through with the code of the current block of a draft. -/
def Draft.point (d : Draft) (origin : Option BlockId) (s : State) : Config :=
  ⟨d.current, (d.function.blocks[d.current]?.map fun b => b.instrs.length).getD 0, origin, s⟩

theorem Draft.point_of_empty {d : Draft} {name : String}
    (h : d.function.blocks[d.current]? = some (.empty name)) (origin : Option BlockId) (s : State) :
    d.point origin s = ⟨d.current, 0, origin, s⟩ := by
  rw [point, h]
  rfl

/-- New blocks do not change where a run stands. -/
theorem Draft.point_addGroup {d : Draft} (hv : d.Valid) (construct first second last : String)
    (origin : Option BlockId) (s : State) :
    (d.addGroup construct first second last).point origin s = d.point origin s := by
  have hb : (d.addGroup construct first second last).function.blocks[d.current]? =
      d.function.blocks[d.current]? := by
    simp [addGroup, addBlock, nextNumber, List.getElem?_append_left hv]
  have hc : (d.addGroup construct first second last).current = d.current := rfl
  rw [point, point, hc, hb]

/-- The values below `k` are the same. -/
def State.Keeps (k : Nat) (s s' : State) : Prop := ∀ id < k, s'.values id = s.values id

namespace State

theorem Keeps.refl (k : Nat) (s : State) : s.Keeps k s := fun _ _ => rfl

theorem Keeps.trans {k n : Nat} {s s' s'' : State} (h : s.Keeps k s') (h' : s'.Keeps n s'')
    (hle : k ≤ n) : s.Keeps k s'' :=
  fun id hid => (h' id (Nat.lt_of_lt_of_le hid hle)).trans (h id hid)

theorem keeps_define (s : State) (id : ValueId) (word : Word) (memory : Memory) :
    s.Keeps id (s.define id word memory) :=
  fun _ hn => if_neg (Nat.ne_of_lt hn)

end State

/-- The operand reads no value from `k` on. -/
def Operand.Below (k : Nat) (v : Operand) : Prop := ∀ id, v = .value id → id < k

theorem Operand.Below.mono {k n : Nat} {v : Operand} (h : v.Below k) (hle : k ≤ n) : v.Below n :=
  fun id he => Nat.lt_of_lt_of_le (h id he) hle

namespace Machine

variable {m : Machine} {d d' : Draft} {origin : Option BlockId} {s s' : State}

theorem operand_of_keeps {k : Nat} {v : Operand} (hv : v.Below k) (hs : s.Keeps k s') :
    m.operand s' v = m.operand s v := by
  cases v with
  | value id => exact hs id (hv id rfl)
  | const | param | symbol => rfl

/-- The instruction that was added at the end of the current block is the next one to run. -/
theorem step_append (ho : d.isOpen) (instr : Instr)
    (hx : (d.append instr).function.Extends m.function) (origin : Option BlockId) (s : State) :
    m.step (d.point origin s) =
      match m.instr origin s instr with
      | some s' => .next ((d.append instr).point origin s')
      | none => .stuck := by
  obtain ⟨b, hb, _⟩ := Draft.isOpen_iff.mp ho
  have hnew : (d.append instr).function.blocks[d.current]? = some (b.append instr) := by
    change (d.function.onBlock d.current _).blocks[d.current]? = _
    rw [Function.getElem?_onBlock, if_pos rfl, hb]
    rfl
  obtain ⟨b', hb', he⟩ := hx d.current _ hnew
  have hprefix : (b.append instr).instrs <+: b'.instrs := by
    rcases he with rfl | ⟨_, hp⟩
    · exact List.prefix_rfl
    · exact hp
  have hfetch : b'.instrs[b.instrs.length]? = some instr := by
    obtain ⟨rest, hrest⟩ := hprefix
    rw [← hrest]
    simp [Block.append]
  have hhere : (d.append instr).point origin =
      fun s' => ⟨d.current, b.instrs.length + 1, origin, s'⟩ := by
    funext s'
    change Config.mk d.current (((d.append instr).function.blocks[d.current]?.map _).getD 0) _ _ = _
    rw [hnew]
    simp [Block.append]
  rw [hhere]
  cases hi : m.instr origin s instr <;>
    simp only [step, Draft.point, hb', hb, Option.map_some, Option.getD_some, hfetch, hi]

/-- The terminator that was set is the next step. -/
theorem step_endedBy (ho : d.isOpen) {t : Terminator}
    (hx : (d.endedBy t).function.Extends m.function) (origin : Option BlockId) (s : State) :
    m.step (d.point origin s) = m.terminator (d.point origin s) t := by
  obtain ⟨b, hb, _⟩ := Draft.isOpen_iff.mp ho
  have hnew : (d.endedBy t).function.blocks[d.current]? = some (b.endedBy t) := by
    change (d.function.onBlock d.current _).blocks[d.current]? = _
    rw [Function.getElem?_onBlock, if_pos rfl, hb]
    rfl
  obtain ⟨b', hb', he⟩ := hx d.current _ hnew
  have hsame : b' = b.endedBy t := by
    rcases he with rfl | ⟨ht, _⟩
    · rfl
    · cases ht
  subst hsame
  simp [step, Draft.point, hb', hb, Block.endedBy]

/-- The code up to the end of the draft gives a result and a state as `after` says, or the machine
gets stuck. -/
def Computes {α : Type} (m : Machine) (c : Config) (d : Draft) (result : Option α)
    (after : α → State → Prop) : Prop :=
  match result with
  | some a => ∃ n origin s, m.Steps n c (d.point origin s) ∧ after a s
  | none => m.Fails c

namespace Computes

variable {α β : Type}

theorem pure {a : α} {after : α → State → Prop} (h : after a s) :
    m.Computes (d.point origin s) d (some a) after := ⟨0, origin, s, .refl _, h⟩

theorem mono {c : Config} {r : Option α} {after after' : α → State → Prop}
    (h : m.Computes c d r after) (himp : ∀ a s, after a s → after' a s) :
    m.Computes c d r after' := by
  cases r with
  | none => exact h
  | some a =>
      obtain ⟨n, origin, s, hs, ha⟩ := h
      exact ⟨n, origin, s, hs, himp a s ha⟩

theorem of_steps {n : Nat} {c c' : Config} {r : Option α} {after : α → State → Prop}
    (hs : m.Steps n c c') (h : m.Computes c' d r after) : m.Computes c d r after := by
  cases r with
  | none => exact Fails.of_steps hs h
  | some a =>
      obtain ⟨k, origin, s, hs', ha⟩ := h
      exact ⟨n + k, origin, s, hs.trans hs', ha⟩

/-- One piece of code after the other. -/
theorem bind {c : Config} {r : Option α} {f : α → Option β} {after : α → State → Prop}
    {after' : β → State → Prop} (h : m.Computes c d r after)
    (hf : ∀ a origin s, r = some a → after a s →
      m.Computes (d.point origin s) d' (f a) after') :
    m.Computes c d' (r.bind f) after' := by
  cases r with
  | none => exact h
  | some a =>
      obtain ⟨n, origin, s, hs, ha⟩ := h
      exact (hf a origin s rfl ha).of_steps hs

/-- More code that keeps the result. -/
theorem extend {c : Config} {r : Option α} {after after' : α → State → Prop}
    (h : m.Computes c d r after)
    (hf : ∀ a origin s, after a s → m.Computes (d.point origin s) d' (some a) after') :
    m.Computes c d' r after' := by
  cases r with
  | none => exact h
  | some a =>
      obtain ⟨n, origin, s, hs, ha⟩ := h
      exact (hf a origin s ha).of_steps hs

end Computes

/-- What is known after an instruction that gives a word and leaves memory alone. -/
structure Gives (m : Machine) (d : Draft) (s : State) (v : Operand) (word : Word) (s' : State) :
    Prop where
  operand : m.operand s' v = some word
  memory : s'.memory = s.memory
  keeps : s.Keeps d.function.nextValue s'

theorem emit_computes {operation : Operation} {v : Operand} {r : Option Word} (ho : d.isOpen)
    (hs : Build.emit operation d = .ok v d') (hx : d'.function.Extends m.function)
    (hr : m.operation origin s d.function.nextValue operation = r.map fun w => (w, s.memory)) :
    m.Computes (d.point origin s) d' r (m.Gives d s v) := by
  obtain ⟨_, rfl, rfl⟩ := Build.emit_eq_ok_iff.mp hs
  rw [Draft.opened_of_isOpen ho] at hx ⊢
  have hstep := step_append ho (.define d.function.nextValue operation) hx origin s
  rw [instr, hr] at hstep
  cases r with
  | none => exact .of_stuck hstep
  | some w =>
      refine ⟨1, origin, s.define d.function.nextValue w s.memory, .one hstep, ?_, rfl, ?_⟩
      · exact if_pos rfl
      · exact s.keeps_define _ _ _

theorem Gives.trans {d₁ : Draft} {s₁ s₂ : State} {v v' : Operand} {w w' : Word}
    (h : m.Gives d s v w s₁) (h' : m.Gives d₁ s₁ v' w' s₂)
    (hle : d.function.nextValue ≤ d₁.function.nextValue) : m.Gives d s v' w' s₂ :=
  ⟨h'.operand, h'.memory.trans h.memory, h.keeps.trans h'.keeps hle⟩

theorem load_computes {address v : Operand} {place : Word} (ho : d.isOpen)
    (hs : Build.load address d = .ok v d') (hx : d'.function.Extends m.function)
    (ha : m.operand s address = some place) :
    m.Computes (d.point origin s) d' (some (s.memory place)) (m.Gives d s v) := by
  refine emit_computes ho hs hx ?_
  simp [operation, ha]

theorem binary_computes {op : BinaryOp} {lhs rhs v : Operand} {a b : Word} (ho : d.isOpen)
    (hs : Build.binary op lhs rhs d = .ok v d') (hx : d'.function.Extends m.function)
    (hl : m.operand s lhs = some a) (hr : m.operand s rhs = some b) :
    m.Computes (d.point origin s) d' (op.eval a b) (m.Gives d s v) := by
  refine emit_computes ho hs hx ?_
  simp only [operation, hl, hr, Option.bind_eq_bind, Option.bind_some]
  cases op.eval a b <;> rfl

theorem compare_computes {pred : Predicate} {lhs rhs v : Operand} {a b : Word} (ho : d.isOpen)
    (hs : Build.compare pred lhs rhs d = .ok v d') (hx : d'.function.Extends m.function)
    (hl : m.operand s lhs = some a) (hr : m.operand s rhs = some b) :
    m.Computes (d.point origin s) d' (some (.ofBool (pred.eval a b))) (m.Gives d s v) := by
  obtain ⟨bit, d₁, hbit, hwiden⟩ := bind_eq_ok_iff.mp hs
  have hbeside := (Draft.Beside.refl d₁).emit hwiden
  have hfirst : m.Computes (d.point origin s) d₁ (some (.ofBool (pred.eval a b)))
      (m.Gives d s bit) := by
    refine emit_computes ho hbit (hbeside.code.trans hx) ?_
    simp [operation, hl, hr]
  refine hfirst.bind (f := some) fun w origin₁ s₁ _ hw => ?_
  have hsecond : m.Computes (d₁.point origin₁ s₁) d' (some w) (m.Gives d₁ s₁ v) := by
    refine emit_computes (Draft.isOpen_emit hbit) hwiden hx ?_
    simp [operation, hw.operand]
  exact hsecond.mono fun _ _ hg => hw.trans hg ((Draft.Beside.refl d).emit hbit).values

theorem store_computes {value address : Operand} {u : Unit} {w a : Word} (ho : d.isOpen)
    (hs : Build.store value address d = .ok u d') (hx : d'.function.Extends m.function)
    (hw : m.operand s value = some w) (ha : m.operand s address = some a) :
    m.Computes (d.point origin s) d' (some ()) fun _ s' => s' = s.store a w := by
  obtain ⟨_, rfl⟩ := Build.store_eq_ok_iff.mp hs
  rw [Draft.opened_of_isOpen ho] at hx ⊢
  have hstep := step_append ho _ hx origin s
  rw [instr, hw, ha] at hstep
  exact ⟨1, origin, s.store a w, .one hstep, rfl⟩

/-- A branch on a word. -/
theorem branched_steps {word : Operand} {t e : BlockId} {w : Word} (origin : Option BlockId)
    (ho : d.isOpen) (hx : (d.branched word t e).function.Extends m.function)
    (hw : m.operand s word = some w) :
    ∃ s', m.Steps 2 (d.point origin s) ⟨if w = 0 then e else t, 0, some d.current, s'⟩ ∧
      s'.memory = s.memory ∧ s.Keeps d.function.nextValue s' := by
  let test : Operation := .compare .ne word (.const 0)
  let t' : Terminator := .condBranch (.value d.function.nextValue) t e
  have hopen : (d.define test).isOpen := Draft.isOpen_define ho test
  unfold Draft.branched at hx
  rw [Draft.opened_of_isOpen ho] at hx
  have hx' := (Draft.extends_endedBy hopen t').trans hx
  have htest := step_append ho (.define d.function.nextValue test) hx' origin s
  let s' := s.define d.function.nextValue (.ofBool (Predicate.ne.eval w 0)) s.memory
  have hbranch := step_endedBy hopen hx origin s'
  rw [instr, operation, hw] at htest
  have hbit : s'.values d.function.nextValue = some (.ofBool (Predicate.ne.eval w 0)) := if_pos rfl
  have htaken : (if Word.ofBool (Predicate.ne.eval w 0) = 0 then e else t) =
      if w = 0 then e else t := by
    by_cases h0 : w = 0 <;> simp [h0, Word.ofBool, Predicate.eval]
  refine ⟨s', .next htest (.one (hbranch.trans ?_)), rfl, s.keeps_define _ _ _⟩
  simp only [terminator, operand, Draft.point, hbit, Config.enter, htaken]
  rfl

theorem fork_steps {construct : String} {word : Operand} {g : BlockGroup} {w : Word}
    (origin : Option BlockId) (ho : d.isOpen) (hs : Build.fork construct word d = .ok g d')
    (hx : d'.function.Extends m.function) (hw : m.operand s word = some w) :
    ∃ s', m.Steps 2 (d.point origin s)
        ⟨if w = 0 then g.second else g.first, 0, some d.current, s'⟩ ∧
      s'.memory = s.memory ∧ s.Keeps d.function.nextValue s' := by
  obtain ⟨_, _, rfl⟩ := Build.fork_eq_ok_iff.mp hs
  have hopen : (d.addGroup construct "then" "else" "end").isOpen :=
    Draft.isOpen_addBlock (Draft.isOpen_addBlock (Draft.isOpen_addBlock ho _) _) _
  obtain ⟨s', hsteps, hm, hk⟩ := branched_steps origin hopen hx hw
  rw [Draft.point_addGroup (.of_isOpen ho)] at hsteps
  exact ⟨s', hsteps, hm, hk⟩

theorem test_steps {word : Operand} {g : BlockGroup} {u : Unit} {w : Word}
    (origin : Option BlockId) (ho : d.isOpen) (hs : Build.test word g d = .ok u d')
    (hx : d'.function.Extends m.function) (hw : m.operand s word = some w) :
    ∃ s', m.Steps 2 (d.point origin s)
        ⟨if w = 0 then g.last else g.second, 0, some d.current, s'⟩ ∧
      s'.memory = s.memory ∧ s.Keeps d.function.nextValue s' := by
  obtain ⟨_, rfl⟩ := Build.test_eq_ok_iff.mp hs
  exact branched_steps origin ho hx hw

end Machine
end BCompiler
