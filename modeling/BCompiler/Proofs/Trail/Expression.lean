import BCompiler.Proofs.Source.Name
import BCompiler.Proofs.Trail.Step

/-!
The trails of expressions.

Whatever the text and wherever compiling an expression stops, the draft has followed a trail. An
expression that is accepted gives a word that the draft has.
-/
namespace BCompiler

namespace Draft

/-- The draft has the operand of a denotation, at the type that the denotation gives it. -/
def Holds (d : Draft) : Denotation → Prop
  | .word v => d.Has (.operand .word v)
  | .address a => d.Has (.operand .pointer a)
  | .function name => d.Has (.callee name)

theorem Holds.mono {d d' : Draft} (h : Trail d d') {a : Denotation} (ha : d.Holds a) :
    d'.Holds a := by
  cases a with
  | word value => exact h.has ha
  | address address => exact h.has ha
  | function name => exact h.has ha

/-- An operation that names no function and no block needs its operands alone. -/
theorem has_needs {d : Draft} {operation : Operation} (hc : operation.callees = [])
    (ho : operation.origins = []) (h : ∀ x ∈ operation.demands, d.Has (.operand x.1 x.2)) :
    ∀ need ∈ operation.needs, d.Has need := by
  intro need hm
  rw [Operation.needs, hc, ho, List.map_nil, List.map_nil, List.append_nil, List.append_nil] at hm
  obtain ⟨x, hx, rfl⟩ := List.mem_map.mp hm
  exact h x hx

theorem has_const (d : Draft) (value : Word) : d.Has (.operand .word (.const value)) :=
  .met (.const value)

theorem has_symbol {d : Draft} {name : String} (h : d.Has (.callee name)) :
    d.Has (.operand .pointer (.symbol name)) := by
  cases h with
  | met h =>
      cases h with
      | callee hs hn =>
          refine .met (.symbol ⟨hs, .inl ?_⟩)
          simp [Module.symbols, hn]

end Draft

namespace Build

variable {w : Draft}

theorem load_trails {address : Operand} (ha : w.Has (.operand .pointer address)) :
    Trails Trail id w (load address) fun v w' => w'.Has (.operand .word v) :=
  emit_trails rfl (Draft.has_needs rfl rfl (by simpa [Operation.demands] using ha))

theorem binary_trails (op : BinaryOp) {lhs rhs : Operand} (hl : w.Has (.operand .word lhs))
    (hr : w.Has (.operand .word rhs)) :
    Trails Trail id w (binary op lhs rhs) fun v w' => w'.Has (.operand .word v) :=
  emit_trails rfl (Draft.has_needs rfl rfl (by simpa [Operation.demands] using ⟨hl, hr⟩))

/-- The bit of a comparison. -/
theorem emitCompare_trails (pred : Predicate) {lhs rhs : Operand}
    (hl : w.Has (.operand .word lhs)) (hr : w.Has (.operand .word rhs)) :
    Trails Trail id w (emit (.compare pred lhs rhs)) fun v w' => w'.Has (.operand .bit v) :=
  emit_trails rfl (Draft.has_needs rfl rfl (by simpa [Operation.demands] using ⟨hl, hr⟩))

theorem compare_trails (pred : Predicate) {lhs rhs : Operand} (hl : w.Has (.operand .word lhs))
    (hr : w.Has (.operand .word rhs)) :
    Trails Trail id w (compare pred lhs rhs) fun v w' => w'.Has (.operand .word v) := by
  refine .bind (emitCompare_trails pred hl hr) fun bit w₁ _ hbit => ?_
  exact emit_trails rfl (Draft.has_needs rfl rfl (by simpa [Operation.demands] using hbit))

theorem toPointer_trails {word : Operand} (hw : w.Has (.operand .word word)) :
    Trails Trail id w (toPointer word) fun v w' => w'.Has (.operand .pointer v) :=
  emit_trails rfl (Draft.has_needs rfl rfl (by simpa [Operation.demands] using hw))

theorem toWord_trails {pointer : Operand} (hp : w.Has (.operand .pointer pointer)) :
    Trails Trail id w (toWord pointer) fun v w' => w'.Has (.operand .word v) :=
  emit_trails rfl (Draft.has_needs rfl rfl (by simpa [Operation.demands] using hp))

theorem element_trails {base index : Operand} (hb : w.Has (.operand .pointer base))
    (hi : w.Has (.operand .word index)) :
    Trails Trail id w (element base index) fun v w' => w'.Has (.operand .pointer v) :=
  emit_trails rfl (Draft.has_needs rfl rfl (by simpa [Operation.demands] using ⟨hb, hi⟩))

theorem rvalue_trails {a : Denotation} (ha : w.Holds a) :
    Trails Trail id w (rvalue a) fun v w' => w'.Has (.operand .word v) := by
  cases a with
  | word value => exact .pure fun w' hw => hw.has ha
  | address address => exact load_trails ha
  | function name => exact toWord_trails (Draft.has_symbol ha)

end Build

/-- The draft has what a callee stands for. -/
def Draft.HasCallee (d : Draft) : Callee → Prop
  | .direct name => d.Has (.callee name)
  | .indirect pointer => d.Has (.operand .pointer pointer)

theorem Draft.HasCallee.mono {d d' : Draft} (h : Trail d d') {callee : Callee}
    (hc : d.HasCallee callee) : d'.HasCallee callee := by
  cases callee with
  | direct name => exact h.has hc
  | indirect pointer => exact h.has hc

namespace Build

variable {w : Draft}

theorem call_trails {callee : Callee} {arguments : List Operand} (hc : w.HasCallee callee)
    (ha : ∀ a ∈ arguments, w.Has (.operand .word a)) :
    Trails Trail id w (call callee arguments) fun v w' => w'.Has (.operand .word v) := by
  refine emit_trails rfl fun need hm => ?_
  cases callee with
  | direct name =>
      simp only [Operation.needs, Operation.demands, Callee.demands, Operation.callees,
        Operation.origins, List.nil_append, List.map_map, List.map_nil, List.append_nil,
        List.mem_append, List.mem_map, List.map_cons, List.mem_singleton] at hm
      rcases hm with ⟨a, hm, rfl⟩ | rfl
      · exact ha a hm
      · exact hc
  | indirect pointer =>
      simp only [Operation.needs, Operation.demands, Callee.demands, Operation.callees,
        Operation.origins, List.map_nil, List.append_nil, List.map_append, List.map_map,
        List.map_cons, List.mem_append, List.mem_singleton, List.mem_map] at hm
      rcases hm with rfl | ⟨a, hm, rfl⟩
      · exact hc
      · exact ha a hm

theorem string_trails (text : String) :
    Trails Trail id w (string text) fun v w' => w'.Has (.operand .word v) := by
  refine .bind (P := fun name w' => w'.Has (.operand .pointer (.symbol name))) ?_
    fun name w₁ _ hn => toWord_trails hn
  intro d _
  have hsymbol : isSymbol (".str." ++ toString d.program.module.strings.length) :=
    isSymbol_append.mpr ⟨by decide, isSymbol_toString _⟩
  refine ⟨.string d text, .met (.symbol ⟨hsymbol, .inl ?_⟩)⟩
  simp [Module.symbols, Module.stringNames]

theorem resolve_trails {name : String} (hname : isName name) :
    Trails Trail id w (resolve name) fun a w' => w'.Holds a := by
  intro d hd
  have hs := isSymbol_of_isName hname
  rcases resolve_cases name d with ⟨address, hl, he⟩ | ⟨hf, he⟩ | ⟨hb, he⟩ | he <;> rw [he]
  · exact ⟨.refl d, .slot hl⟩
  · have hc : d.Has (.callee name) := .met (.callee hs (Module.hasFunction_iff_mem.mp hf))
    exact Trails.bind (toWord_trails (Draft.has_symbol hc))
      (fun v w' _ hv => .pure fun w'' hw => hw.has hv) d (.refl d)
  · refine ⟨.refl d, .met (.symbol ⟨hs, .inr ?_⟩)⟩
    simpa [Program.isBound] using hb
  · exact .refl d

theorem resolveCallee_trails {name : String} (hname : isName name) :
    Trails Trail id w (resolveCallee name) fun a w' => w'.Holds a := by
  intro d hd
  have hs := isSymbol_of_isName hname
  rcases resolveCallee_cases name d with ⟨address, hl, he⟩ | ⟨hf, he⟩ | ⟨_, hg, he⟩ |
    ⟨_, _, hg, he⟩ <;> rw [he]
  · exact ⟨.refl d, .slot hl⟩
  · exact ⟨.refl d, .met (.callee hs (Module.hasFunction_iff_mem.mp hf))⟩
  · refine ⟨.refl d, .met (.symbol ⟨hs, ?_⟩)⟩
    rcases hg with hb | hg
    · exact .inr (by simpa [Program.isBound] using hb)
    · exact .inl (by simp [Module.symbols, Module.hasGlobal_iff_mem.mp hg])
  · have hglobal : name ∉ d.program.module.globalNames := fun hm => by
      simp [Module.hasGlobal_iff_mem.mpr hm] at hg
    refine ⟨.declare hname hglobal, .met (.callee hs ?_)⟩
    change name ∈ (d.program.module.declareFunction name).2.functionNames
    rw [Module.functionNames_declareFunction]
    exact mem_including.mpr (.inr rfl)

theorem step_trails (op : BinaryOp) (spelling : String) {a : Denotation} (ha : w.Holds a) :
    Trails Trail id w (step op spelling a) fun r w' =>
      w'.Has (.operand .word r.1) ∧ w'.Has (.operand .pointer r.2) := by
  cases a with
  | word value => exact .throw
  | function name => exact .throw
  | address address =>
      refine .bind (load_trails ha) fun old w₁ h₁ hold => ?_
      refine .bind (binary_trails op hold (w₁.has_const 1)) fun v w₂ h₂ hv => ?_
      refine .bind (store_trails hv ((h₁.trans h₂).has ha)) fun _ w₃ h₃ _ => .pure ?_
      exact fun w' hw => ⟨((h₂.trans h₃).trans hw).has hold,
        (((h₁.trans h₂).trans h₃).trans hw).has ha⟩

end Build

theorem Op.apply_trails (op : Op) {w : Draft} {lhs rhs : Operand}
    (hl : w.Has (.operand .word lhs)) (hr : w.Has (.operand .word rhs)) :
    Trails Trail id w (op.apply lhs rhs) fun v w' => w'.Has (.operand .word v) := by
  cases op with
  | binary op => exact Build.binary_trails op hl hr
  | compare pred => exact Build.compare_trails pred hl hr

namespace Build

variable {w : Draft}

theorem assign_trails {op : Option Op} {address value : Operand}
    (ha : w.Has (.operand .pointer address)) (hv : w.Has (.operand .word value)) :
    Trails Trail id w (assign op address value) fun v w' => w'.Has (.operand .word v) := by
  cases op with
  | none =>
      refine .bind (store_trails hv ha) fun _ w₁ h₁ _ => .pure ?_
      exact fun w' hw => (h₁.trans hw).has hv
  | some op =>
      refine .bind (load_trails ha) fun old w₁ h₁ hold => ?_
      refine .bind (op.apply_trails hold (h₁.has hv)) fun joined w₂ h₂ hj => ?_
      refine .bind (store_trails hj ((h₁.trans h₂).has ha)) fun _ w₃ h₃ _ => .pure ?_
      exact fun w' hw => (h₃.trans hw).has hj

theorem base_trails {a : Denotation} (ha : w.Holds a) :
    Trails Trail id w (base a) fun v w' => w'.Has (.operand .pointer v) :=
  .bind (rvalue_trails ha) fun _ _ _ hv => toPointer_trails hv

theorem callee_trails {a : Denotation} (ha : w.Holds a) :
    Trails Trail id w (callee a) fun c w' => w'.HasCallee c := by
  cases a with
  | function name => exact .pure fun w' hw => hw.has ha
  | address address =>
      refine .bind (load_trails ha) fun v w₁ _ hv => ?_
      exact .bind (toPointer_trails hv) fun p w₂ _ hp => .pure fun w' hw => hw.has hp
  | word value =>
      exact .bind (toPointer_trails ha) fun p w₂ _ hp => .pure fun w' hw => hw.has hp

end Build

theorem Sign.apply_trails (sign : Sign) {w : Draft} {a : Denotation} (ha : w.Holds a) :
    Trails Trail id w (sign.apply a) fun b w' => w'.Holds b := by
  cases sign with
  | not =>
      refine .bind (Build.rvalue_trails ha) fun v w₁ _ hv => ?_
      exact .bind (Build.compare_trails .eq hv (w₁.has_const 0))
        fun v' w₂ _ hv' => .pure fun w' hw => hw.has hv'
  | negate =>
      refine .bind (Build.rvalue_trails ha) fun v w₁ _ hv => ?_
      exact .bind (Build.binary_trails .sub (w₁.has_const 0) hv)
        fun v' w₂ _ hv' => .pure fun w' hw => hw.has hv'
  | dereference =>
      refine .bind (Build.rvalue_trails ha) fun v w₁ _ hv => ?_
      exact .bind (Build.toPointer_trails hv) fun p w₂ _ hp => .pure fun w' hw => hw.has hp
  | increment =>
      exact .bind (Build.step_trails .add "++" ha) fun r w₁ _ hr => .pure fun w' hw => hw.has hr.2
  | decrement =>
      exact .bind (Build.step_trails .sub "--" ha) fun r w₁ _ hr => .pure fun w' hw => hw.has hr.2
  | addressOf =>
      cases a with
      | word value => exact .throw
      | function name => exact .throw
      | address address =>
          exact .bind (Build.toWord_trails ha) fun v w₁ _ hv => .pure fun w' hw => hw.has hv

namespace Draft

/-- The draft has the three blocks of a construct. -/
structure HasGroup (d : Draft) (g : BlockGroup) : Prop where
  first : d.Has (.block g.first)
  second : d.Has (.block g.second)
  last : d.Has (.block g.last)

theorem HasGroup.mono {d d' : Draft} (h : Trail d d') {g : BlockGroup} (hg : d.HasGroup g) :
    d'.HasGroup g := ⟨h.has hg.first, h.has hg.second, h.has hg.last⟩

end Draft

namespace Build

variable {w : Draft}

theorem newGroup_trails {construct first second last : String} (hc : isSymbol construct)
    (h₁ : isSymbol first) (h₂ : isSymbol second) (h₃ : isSymbol last) :
    Trails Trail id w (newGroup construct first second last) fun g w' => w'.HasGroup g := by
  intro d _
  have hgroup : ∀ {part}, isSymbol part →
      isSymbol (construct ++ "." ++ toString d.nextGroup ++ "." ++ part) := by
    intro part hpart
    simp only [isSymbol_append]
    exact ⟨⟨⟨⟨hc, by decide⟩, isSymbol_toString _⟩, by decide⟩, hpart⟩
  rw [newGroup_eq]
  refine ⟨?_, ?_⟩
  · exact (Trail.nextNumber d).trans ((Trail.addBlock (hgroup h₁)).trans
      ((Trail.addBlock (hgroup h₂)).trans (.addBlock (hgroup h₃))))
  · have hlength : (d.addGroup construct first second last).function.blocks.length =
        d.function.blocks.length + 3 := by
      simp [Draft.addGroup, Draft.addBlock, Draft.nextNumber]
    have hblock : ∀ k < 3, (d.addGroup construct first second last).Has
        (.block (d.function.blocks.length + k)) := fun k hk =>
      .met (.block (hlength ▸ Nat.add_lt_add_left hk _))
    exact ⟨hblock 0 (by decide), hblock 1 (by decide), hblock 2 (by decide)⟩

theorem switchTo_trails {block : BlockId} (h : w.Has (.block block)) :
    Trails Trail id w (switchTo block) fun _ _ => True :=
  fun _ hd => ⟨.goTo (hd.has h), trivial⟩

theorem condBranch_trails {word : Operand} {t e : BlockId} (hw : w.Has (.operand .word word))
    (ht : w.Has (.block t)) (he : w.Has (.block e)) :
    Trails Trail id w (condBranch word t e) fun _ _ => True := by
  refine .bind (emitCompare_trails .ne hw (w.has_const 0)) fun bit w₁ h₁ hbit => ?_
  refine terminate_trails fun need hm => ?_
  simp only [Terminator.needs, Terminator.demands, Terminator.successors, List.map_cons,
    List.map_nil, List.cons_append, List.nil_append, List.mem_cons, List.not_mem_nil,
    or_false] at hm
  rcases hm with rfl | rfl | rfl
  · exact hbit
  · exact h₁.has ht
  · exact h₁.has he

theorem branch_needs {target : BlockId} (h : w.Has (.block target)) :
    ∀ need ∈ (Terminator.branch target).needs, w.Has need := by
  intro need hm
  cases List.mem_singleton.mp hm
  exact h

theorem fork_trails {construct : String} (hc : isSymbol construct) {word : Operand}
    (hw : w.Has (.operand .word word)) :
    Trails Trail id w (fork construct word) fun g w' => w'.HasGroup g := by
  refine .bind (newGroup_trails hc (by decide) (by decide) (by decide)) fun g w₁ h₁ hg => ?_
  refine .bind (condBranch_trails (h₁.has hw) hg.first hg.second) fun _ w₂ h₂ _ => ?_
  refine .bind (switchTo_trails (h₂.has hg.first)) fun _ w₃ h₃ _ => .pure ?_
  exact fun w' hw => hg.mono ((h₂.trans h₃).trans hw)

/-- The block that was left is there: otherwise it could not be left. -/
theorem leave_trails {last : BlockId} (h : w.Has (.block last)) :
    Trails Trail id w (leave last) fun exit w' => w'.Has (.block exit) := by
  refine trails_of_cases (fun d hd hv => ?_) fun d hv => ?_
  · have hended : Trail d (d.opened.endedBy (.branch last)) :=
      d.trail_opened.trans (.ended d.isOpen_opened
        (branch_needs ((hd.trans d.trail_opened).has h)))
    exact ⟨_, _, leave_eq_ok_iff.mpr ⟨hv, rfl, rfl⟩, hended, hended.has (.met (.block hv))⟩
  · obtain ⟨e, he⟩ := ensureOpen_eq_error hv
    exact ⟨e, (bind_of_ok rfl).trans (bind_of_error (bind_of_error he))⟩

theorem phi_trails {arms : List (Operand × BlockId)}
    (h : ∀ arm ∈ arms, w.Has (.operand .word arm.1) ∧ w.Has (.block arm.2)) :
    Trails Trail id w (phi arms) fun v w' => w'.Has (.operand .word v) := by
  refine emit_trails rfl fun need hm => ?_
  simp only [Operation.needs, Operation.demands, Operation.callees, Operation.origins,
    List.map_map, List.map_nil, List.append_nil, List.mem_append, List.mem_map] at hm
  rcases hm with ⟨arm, harm, rfl⟩ | ⟨arm, harm, rfl⟩
  · exact (h arm harm).1
  · exact (h arm harm).2

theorem join_trails {last thenExit : BlockId} {thenValue elseValue : Operand}
    (hlast : w.Has (.block last)) (hthen : w.Has (.operand .word thenValue))
    (hexit : w.Has (.block thenExit)) (helse : w.Has (.operand .word elseValue)) :
    Trails Trail id w (join last thenValue thenExit elseValue) fun v w' =>
      w'.Has (.operand .word v) := by
  refine .bind (leave_trails hlast) fun exit w₁ h₁ he => ?_
  refine .bind (switchTo_trails (h₁.has hlast)) fun _ w₂ h₂ _ => phi_trails fun arm harm => ?_
  have h := h₁.trans h₂
  rcases List.mem_cons.mp harm with rfl | harm
  · exact ⟨h.has hthen, h.has hexit⟩
  · cases List.mem_singleton.mp harm
    exact ⟨h.has helse, h₂.has he⟩

end Build

namespace Pass

variable {σ α β : Type} {R : σ → σ → Prop} {w : σ}

theorem scan_trails [Lasting R] {step : Scan α} {P : α → Prop} (h : Scan.Gives step P) :
    Trails R Site.target w (scan step) fun a _ => P a := by
  intro s _
  unfold scan
  cases hs : step s.cursor with
  | ok a c => exact ⟨Lasting.refl _, h _ _ _ hs⟩
  | error e c => exact Lasting.refl (R := R) s.target

theorem build_trails {step : EStateM Error σ α} {after : α → σ → Prop}
    (h : Trails R id w step after) : Trails R Site.target w (build step) after := by
  intro s hs
  have hl := h s.target hs
  unfold build
  cases hr : step s.target with
  | ok a t =>
      rw [hr] at hl
      exact hl
  | error e t =>
      rw [hr] at hl
      exact hl

/-- A scan says nothing about what is built. -/
theorem scan_bind_trails [Lasting R] {step : Scan α} {f : α → Pass σ β} {after : β → σ → Prop}
    (h : ∀ a w', R w w' → Trails R Site.target w' (f a) after) :
    Trails R Site.target w (scan step >>= f) after :=
  .bind (scan_trails (.trivial step)) fun a w' hw _ => h a w' hw

theorem items_trails [Lasting R] {close : Char} {place : String} {item : Pass σ α}
    {P : α → σ → Prop} (hP : ∀ a w w', R w w' → P a w → P a w')
    (h : ∀ w, Trails R Site.target w item P) (depth : Nat) (w : σ) :
    Trails R Site.target w (items close place item depth) fun as w' => ∀ a ∈ as, P a w' := by
  induction depth generalizing w with
  | zero => exact .throw
  | succ depth ih =>
      refine .bind (h w) fun a w₁ _ ha => scan_bind_trails fun another w₂ h₂ => ?_
      cases another with
      | true =>
          refine .bind (ih w₂) fun as w₃ h₃ has => .pure fun w' hw b hb => ?_
          rcases List.mem_cons.mp hb with rfl | hb
          · exact hP _ _ _ (Lasting.trans h₂ (Lasting.trans h₃ hw)) ha
          · exact hP _ _ _ hw (has b hb)
      | false =>
          refine .pure fun w' hw b hb => ?_
          cases List.mem_singleton.mp hb
          exact hP _ _ _ (Lasting.trans h₂ hw) ha

theorem anyItems_trails [Lasting R] {close : Char} {place : String} {item : Pass σ α}
    {P : α → σ → Prop} (hP : ∀ a w w', R w w' → P a w → P a w')
    (h : ∀ w, Trails R Site.target w item P) (depth : Nat) (w : σ) :
    Trails R Site.target w (anyItems close place item depth) fun as w' => ∀ a ∈ as, P a w' := by
  refine scan_bind_trails fun none w₁ _ => ?_
  cases none with
  | true => exact .pure fun w' _ a ha => absurd ha List.not_mem_nil
  | false => exact items_trails hP h depth w₁

end Pass

/-- Compiling to a word that the draft has in the end. -/
def Yields (value : Pass Draft Operand) : Prop :=
  ∀ w, Trails Trail Site.target w value fun v w' => w'.Has (.operand .word v)

namespace Pass

variable {w : Draft}

theorem assign_trails {right : Pass Draft Operand} {op : Option Op} {a : Denotation}
    (hr : Yields right) (ha : w.Holds a) :
    Trails Trail Site.target w (assign right op a) fun v w' => w'.Has (.operand .word v) := by
  cases a with
  | word value => exact .throw
  | function name => exact .throw
  | address address =>
      exact .bind (hr w) fun v w₁ h₁ hv => build_trails (Build.assign_trails (h₁.has ha) hv)

theorem conditional_trails {thenArm elseArm : Pass Draft Operand} {a : Denotation}
    (ht : Yields thenArm) (he : Yields elseArm) (ha : w.Holds a) :
    Trails Trail Site.target w (conditional thenArm elseArm a) fun v w' =>
      w'.Has (.operand .word v) := by
  refine .bind (P := fun g w' => w'.HasGroup g) (build_trails ?_) fun g w₁ _ hg => ?_
  · exact .bind (Build.rvalue_trails ha) fun word w₁ _ hw => Build.fork_trails (by decide) hw
  refine .bind (ht w₁) fun thenValue w₂ h₂ hthen => ?_
  refine .bind (build_trails (Build.leave_trails (h₂.has hg.last))) fun exit w₃ h₃ hexit => ?_
  refine scan_bind_trails fun _ w₄ h₄ => ?_
  have h₁₄ := (h₂.trans h₃).trans h₄
  refine .bind (build_trails (Build.switchTo_trails (h₁₄.has hg.second))) fun _ w₅ h₅ _ => ?_
  refine .bind (he w₅) fun elseValue w₆ h₆ helse => build_trails ?_
  have h₄₆ := (h₄.trans h₅).trans h₆
  exact Build.join_trails (((h₂.trans h₃).trans h₄₆).has hg.last) ((h₃.trans h₄₆).has hthen)
    (h₄₆.has hexit) helse

/-- The five levels of the grammar together, by induction on the bound. -/
theorem grammar_trails (depth : Nat) :
    (∀ level, Yields (expressionAt depth level)) ∧
    (∀ level a w, w.Holds a → Trails Trail Site.target w (climb depth level a) fun v w' =>
      w'.Has (.operand .word v)) ∧
    (∀ w, Trails Trail Site.target w (unary depth) fun a w' => w'.Holds a) ∧
    (∀ a w, w.Holds a → Trails Trail Site.target w (suffixes depth a) fun b w' => w'.Holds b) ∧
    (∀ w, Trails Trail Site.target w (primary depth) fun a w' => w'.Holds a) := by
  induction depth with
  | zero =>
      exact ⟨fun _ _ => .throw, fun _ _ _ _ => .throw, fun _ => .throw, fun _ _ _ => .throw,
        fun _ => .throw⟩
  | succ depth ih =>
      obtain ⟨hexpr, hclimb, hunary, hsuffixes, hprimary⟩ := ih
      refine ⟨?_, ?_, ?_, ?_, ?_⟩
      · intro level w
        exact .bind (hunary w) fun a w₁ _ ha => hclimb level a w₁ ha
      · intro level a w ha
        refine scan_bind_trails fun connective w₁ h₁ => ?_
        have ha := ha.mono h₁
        rcases connective with _ | op | _ | op
        · exact build_trails (Build.rvalue_trails ha)
        · refine .bind (build_trails (Build.rvalue_trails ha)) fun lhs w₂ _ hl => ?_
          refine .bind (hexpr _ w₂) fun rhs w₃ h₃ hr => ?_
          refine .bind (build_trails (op.apply_trails (h₃.has hl) hr)) fun v w₄ _ hv => ?_
          exact hclimb level (.word v) w₄ hv
        · exact conditional_trails (hexpr _) (hexpr _) ha
        · exact assign_trails (hexpr _) ha
      · intro w
        refine scan_bind_trails fun sign w₁ _ => ?_
        cases sign with
        | some sign =>
            exact .bind (hunary w₁) fun a w₂ _ ha => build_trails (sign.apply_trails ha)
        | none => exact .bind (hprimary w₁) fun a w₂ _ ha => hsuffixes a w₂ ha
      · intro a w ha
        refine scan_bind_trails fun suffix w₁ h₁ => ?_
        have ha := ha.mono h₁
        rcases suffix with _ | _ | _ | _ | _
        · exact .pure fun w' hw => ha.mono hw
        · refine .bind (build_trails (Build.base_trails ha)) fun base w₂ _ hb => ?_
          refine .bind (hexpr _ w₂) fun index w₃ h₃ hi => scan_bind_trails fun _ w₄ h₄ => ?_
          refine .bind (build_trails (Build.element_trails ((h₃.trans h₄).has hb) (h₄.has hi))) ?_
          exact fun address w₅ _ hd => hsuffixes (.address address) w₅ hd
        · refine .bind (build_trails (Build.callee_trails ha)) fun callee w₂ _ hc => ?_
          refine .bind (anyItems_trails (fun _ _ _ h hv => h.has hv) (hexpr _) depth w₂)
            fun arguments w₃ h₃ hargs => ?_
          refine .bind (build_trails (Build.call_trails (hc.mono h₃) hargs)) ?_
          exact fun v w₄ _ hv => hsuffixes (.word v) w₄ hv
        · refine .bind (build_trails (Build.step_trails .add "++" ha)) ?_
          exact fun r w₂ _ hr => hsuffixes (.word r.1) w₂ hr.1
        · refine .bind (build_trails (Build.step_trails .sub "--" ha)) ?_
          exact fun r w₂ _ hr => hsuffixes (.word r.1) w₂ hr.1
      · intro w
        refine .bind (scan_trails Scan.atom_gives) fun atom w₁ _ hatom => ?_
        rcases atom with value | text | _ | ⟨name, called⟩
        · exact .pure fun w' _ => w'.has_const value
        · exact .bind (build_trails (Build.string_trails text))
            fun v _ _ hv => .pure fun w' hw => hw.has hv
        · refine .bind (hexpr _ w₁) fun v w₂ _ hv => scan_bind_trails fun _ w₃ h₃ => ?_
          exact .pure fun w' hw => (h₃.trans hw).has hv
        · have hname := hatom name called rfl
          cases called with
          | true => exact build_trails (Build.resolveCallee_trails hname)
          | false => exact build_trails (Build.resolve_trails hname)

/-- Whatever the text, compiling an expression follows a trail. -/
theorem expressionAt_yields (depth level : Nat) : Yields (expressionAt depth level) :=
  (grammar_trails depth).1 level

end Pass
end BCompiler
