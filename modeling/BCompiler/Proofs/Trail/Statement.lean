import BCompiler.Proofs.Trail.Expression

/-!
The trails of statements and of whole function bodies.

Wherever compiling a function stops, its draft has followed a trail from its empty function. So what
holds along every trail holds of every function in a module, also of one that was left half-built.
-/
namespace BCompiler

theorem isSymbol_decimal (value : Word) : isSymbol value.decimal := by
  unfold Word.decimal
  cases value.toInt with
  | ofNat n => exact isSymbol_toString n
  | negSucc n => exact isSymbol_append.mpr ⟨by decide, isSymbol_toString (n + 1)⟩

namespace Build

variable {w : Draft}

/-- A name that is taken leaves the draft as it was. -/
theorem slot_trails (name : String) (words : Option UInt64) :
    Trails Trail id w (slot name words) fun v w' => w'.Has (.operand .pointer v) := by
  intro d _
  by_cases hslot : d.locals.lookup name = none ∧ 0 < d.function.blocks.length
  · have hs : slot name words d = .ok _ _ := slot_eq_ok_iff.mpr ⟨hslot.1, hslot.2, rfl, rfl⟩
    rw [hs]
    exact ⟨.slot hslot.1 hslot.2, .slot List.lookup_cons_self⟩
  · have hs : ∃ e, slot name words d = .error e d := by
      unfold slot
      rw [get_bind]
      cases hl : d.locals.lookup name with
      | some address => exact ⟨_, rfl⟩
      | none =>
          have hempty : d.function.blocks = [] :=
            List.eq_nil_of_length_eq_zero (Nat.eq_zero_of_not_pos fun h => hslot ⟨hl, h⟩)
          refine ⟨_, bind_of_error (e := .internal (.noSuchBlock 0)) ?_⟩
          unfold onFunction Function.pushSlot Function.freshValue Function.block
          simp only [hempty, List.getElem?_nil, bind, Except.bind]
    obtain ⟨e, hs⟩ := hs
    rw [hs]
    exact .refl d

theorem declareLocal_trails (name : String) :
    Trails Trail id w (declareLocal name) fun _ _ => True :=
  .bind (slot_trails name none) fun _ w₁ _ ha => store_trails (w₁.has_const 0) ha

theorem declareLocalArray_trails (name : String) (size : UInt64) :
    Trails Trail id w (declareLocalArray name size) fun _ _ => True := by
  refine .bind (slot_trails name _) fun head w₁ _ hhead => ?_
  refine .bind (emit_trails rfl
    (Draft.has_needs rfl rfl (by simpa [Operation.demands] using hhead))) fun first w₂ h₂ hf => ?_
  refine .bind (toWord_trails hf) fun word w₃ h₃ hw => ?_
  exact store_trails hw ((h₂.trans h₃).has hhead)

theorem declareAuto_trails (name : String) (size : Option Word) :
    Trails Trail id w (declareAuto name size) fun _ _ => True := by
  cases size with
  | none => exact declareLocal_trails name
  | some size => exact declareLocalArray_trails name size.count

theorem spill_trails {params : List String} (h : ∀ x ∈ params, x ∈ w.function.params) :
    Trails Trail id w (spill params) fun _ _ => True := by
  induction params generalizing w with
  | nil => exact .pure fun _ _ => trivial
  | cons param params ih =>
      refine .bind (slot_trails param none) fun address w₁ h₁ ha => ?_
      have hparams : ∀ {w'}, Trail w w' → ∀ x ∈ param :: params, x ∈ w'.function.params :=
        fun hw x hx => hw.retains.params ▸ h x hx
      have hparam : w₁.Has (.operand .word (.param param)) :=
        .met (.param (hparams h₁ param (.head _)))
      refine .bind (store_trails hparam ha) fun _ w₂ h₂ _ => ?_
      exact ih fun x hx => hparams (h₁.trans h₂) x (.tail _ hx)

theorem bindExternal_trails {name : String} (hname : isName name) :
    Trails Trail id w (bindExternal name) fun _ _ => True := by
  intro d _
  unfold bindExternal onProgram
  cases hb : d.program.bindExternal name with
  | error e =>
      simp only [hb, bind, Except.bind]
      exact .refl d
  | ok p =>
      simp only [hb, bind, Except.bind, pure, Except.pure]
      exact ⟨.external hname hb, trivial⟩

theorem labelBlock_trails {name : String} (hname : isName name) :
    Trails Trail id w (labelBlock name) fun block w' => w'.Has (.block block) := by
  intro d _
  rw [labelBlock_eq]
  refine ⟨?_, ?_⟩
  · change Trail d (d.mentioning name)
    unfold Draft.mentioning
    split
    · exact .refl d
    · exact .label hname
  · obtain ⟨label, hm, _, he⟩ := d.labelTarget_mentioning name
    exact he ▸ .label hm

theorem defineLabel_trails {name : String} (hname : isName name) :
    Trails Trail id w (defineLabel name) fun block w' => w'.Has (.block block) := by
  refine .bind (labelBlock_trails hname) fun block w₁ _ hblock d hd => ?_
  rw [get_bind]
  split
  · exact .refl d
  · have hdefined := Trail.labelDefined d name
    exact ⟨hdefined, (hd.trans hdefined).has hblock⟩

theorem branchIfOpen_trails {target : BlockId} (h : w.Has (.block target)) :
    Trails Trail id w (branchIfOpen target) fun _ _ => True :=
  terminateIfOpen_trails (branch_needs h)

theorem fallInto_trails {target next : BlockId} (ht : w.Has (.block target))
    (hn : w.Has (.block next)) : Trails Trail id w (fallInto target next) fun _ _ => True :=
  .bind (branchIfOpen_trails ht) fun _ _ h₁ _ => switchTo_trails (h₁.has hn)

theorem enter_trails {block : BlockId} (h : w.Has (.block block)) :
    Trails Trail id w (enter block) fun _ _ => True := fallInto_trails h h

theorem newBlock_trails {name : String} (hname : isSymbol name) :
    Trails Trail id w (newBlock name) fun block w' => w'.Has (.block block) :=
  fun d _ => ⟨.addBlock hname, d.has_new_block name⟩

theorem goto_trails {name : String} (hname : isName name) :
    Trails Trail id w (goto name) fun _ _ => True := by
  refine .bind (labelBlock_trails hname) fun block w₁ _ hblock => ?_
  refine .bind (branchIfOpen_trails hblock) fun _ w₂ _ _ => ?_
  refine .bind (P := fun _ _ => True) (fun d _ => ⟨.nextNumber d, trivial⟩) fun number w₃ _ _ => ?_
  have hsymbol : isSymbol ("unreachable." ++ toString number) :=
    isSymbol_append.mpr ⟨by decide, isSymbol_toString number⟩
  exact .bind (newBlock_trails hsymbol) fun block w₄ _ hb => switchTo_trails hb

theorem placeLabel_trails {name : String} (hname : isName name) :
    Trails Trail id w (placeLabel name) fun _ _ => True :=
  .bind (defineLabel_trails hname) fun _ _ _ hb => enter_trails hb

theorem loop_trails : Trails Trail id w loop fun g w' => w'.HasGroup g := by
  refine .bind (newGroup_trails (by decide) (by decide) (by decide) (by decide))
    fun g w₁ _ hg => ?_
  exact .bind (enter_trails hg.first) fun _ w₂ h₂ _ => .pure fun w' hw => hg.mono (h₂.trans hw)

theorem test_trails {word : Operand} {g : BlockGroup} (hw : w.Has (.operand .word word))
    (hg : w.HasGroup g) : Trails Trail id w (test word g) fun _ _ => True :=
  .bind (condBranch_trails hw hg.second hg.last) fun _ _ h₁ _ => switchTo_trails (h₁.has hg.second)

theorem select_trails : Trails Trail id w select fun g w' => w'.HasGroup g := by
  refine .bind (newGroup_trails (by decide) (by decide) (by decide) (by decide))
    fun g w₁ _ hg => ?_
  exact .bind (fallInto_trails hg.second hg.first)
    fun _ w₂ h₂ _ => .pure fun w' hw => hg.mono (h₂.trans hw)

theorem dispatch_trails {value : Operand} {cases : List (Word × BlockId)} {otherwise : BlockId}
    (hv : w.Has (.operand .word value)) (hc : ∀ arm ∈ cases, w.Has (.block arm.2))
    (ho : w.Has (.block otherwise)) :
    Trails Trail id w (dispatch value cases otherwise) fun _ _ => True := by
  unfold dispatch
  split
  · exact terminate_trails (branch_needs ho)
  · refine terminate_trails fun need hm => ?_
    simp only [Terminator.needs, Terminator.demands, Terminator.successors, List.map_cons,
      List.map_nil, List.map_map, List.cons_append, List.nil_append, List.mem_cons,
      List.mem_map] at hm
    rcases hm with rfl | rfl | ⟨arm, harm, rfl⟩
    · exact hv
    · exact ho
    · exact hc arm harm

theorem settle_trails {value : Operand} {cases : List (Word × BlockId)} {g : BlockGroup}
    (hv : w.Has (.operand .word value)) (hc : ∀ arm ∈ cases, w.Has (.block arm.2))
    (hg : w.HasGroup g) : Trails Trail id w (settle value cases g) fun _ _ => True := by
  refine .bind (fallInto_trails hg.last hg.second) fun _ w₁ h₁ _ => ?_
  refine .bind (dispatch_trails (h₁.has hv) (fun arm harm => h₁.has (hc arm harm))
    (h₁.has hg.last)) fun _ w₂ h₂ _ => ?_
  exact switchTo_trails ((h₁.trans h₂).has hg.last)

theorem caseBlock_trails (group : Nat) (value : Word) :
    Trails Trail id w (caseBlock group value) fun block w' => w'.Has (.block block) := by
  have hsymbol : isSymbol ("case." ++ toString group ++ "." ++ value.decimal) := by
    simp only [isSymbol_append]
    exact ⟨⟨⟨by decide, isSymbol_toString group⟩, by decide⟩, isSymbol_decimal value⟩
  refine .bind (newBlock_trails hsymbol) fun block w₁ _ hb => ?_
  exact .bind (enter_trails hb) fun _ w₂ h₂ _ => .pure fun w' hw => (h₂.trans hw).has hb

theorem ret_trails {value : Operand} (hv : w.Has (.operand .word value)) :
    Trails Trail id w (ret value) fun _ _ => True := by
  refine terminate_trails fun need hm => ?_
  cases List.mem_singleton.mp hm
  exact hv

theorem finish_trails : Trails Trail id w finish fun _ _ => True := by
  intro d hd
  unfold finish
  rw [get_bind]
  cases leastName ((d.labels.filter fun label => !label.defined).map Label.name) with
  | some name => exact .refl d
  | none =>
      have hret : Trails Trail id d (do
          terminateIfOpen (.ret (.const 0))
          return (← get).id) fun _ _ => True := by
        refine .bind (terminateIfOpen_trails fun need hm => ?_)
          fun _ w₁ _ _ d' _ => ⟨.refl d', trivial⟩
        cases List.mem_singleton.mp hm
        exact d.has_const 0
      exact hret d (.refl d)

end Build

/-- The draft has the blocks of the cases of a switch. -/
def Draft.HasCases (d : Draft) (e : Option Switch) : Prop :=
  ∀ switch ∈ e, ∀ arm ∈ switch.cases, d.Has (.block arm.2)

theorem Draft.HasCases.mono {d d' : Draft} (h : Trail d d') {e : Option Switch}
    (he : d.HasCases e) : d'.HasCases e :=
  fun switch hs arm harm => h.has (he switch hs arm harm)

namespace Pass

/-- A statement follows a trail, and has the blocks of the cases that it adds. -/
def Trailing (body : Body) : Prop :=
  ∀ e w, w.HasCases e → Trails Trail Site.target w (body e) fun e' w' => w'.HasCases e'

/-- A step that leaves the enclosing switch alone. -/
theorem Trailing.of_step {α : Type} {step : Pass Draft α} {P : α → Draft → Prop}
    (h : ∀ w, Trails Trail Site.target w step P) :
    Trailing fun enclosing => do
      let _ ← step
      return enclosing :=
  fun _ w he => .bind (h w) fun _ _ h₁ _ => .pure fun _ hw => he.mono (h₁.trans hw)

theorem Trailing.skip : Trailing fun enclosing => return enclosing :=
  fun _ _ he => .pure fun _ hw => he.mono hw

theorem labelled_trailing {body : Body} (hb : Trailing body) : Trailing (labelled body) := by
  intro e w he
  refine scan_bind_trails fun next w₁ h₁ => ?_
  split
  · exact .pure fun w' hw => he.mono (h₁.trans hw)
  · exact hb e w₁ (he.mono h₁)

theorem elsePart_trailing {body : Body} (hb : Trailing body) : Trailing (elsePart body) := by
  intro e w he
  refine scan_bind_trails fun found w₁ h₁ => ?_
  cases found with
  | true => exact hb e w₁ (he.mono h₁)
  | false => exact .pure fun w' hw => he.mono (h₁.trans hw)

theorem ifElse_trailing {condition : Pass Draft Operand} {body : Body} (hc : Yields condition)
    (hb : Trailing body) : Trailing (ifElse condition body) := by
  intro e w he
  refine scan_bind_trails fun _ w₁ h₁ => ?_
  refine .bind (hc w₁) fun word w₂ h₂ hword => scan_bind_trails fun _ w₃ h₃ => ?_
  refine .bind (build_trails (Build.fork_trails (by decide) (h₃.has hword))) fun g w₄ h₄ hg => ?_
  have h := (h₁.trans h₂).trans (h₃.trans h₄)
  refine .bind (hb e w₄ (he.mono h)) fun e₁ w₅ h₅ he₁ => ?_
  have hg := hg.mono h₅
  refine .bind (build_trails (Build.fallInto_trails hg.last hg.second)) fun _ w₆ h₆ _ => ?_
  refine .bind (elsePart_trailing hb e₁ w₆ (he₁.mono h₆)) fun e₂ w₇ h₇ he₂ => ?_
  refine .bind (build_trails (Build.enter_trails ((h₆.trans h₇).has hg.last))) fun _ w₈ h₈ _ => ?_
  exact .pure fun w' hw => he₂.mono (h₈.trans hw)

theorem whileLoop_trailing {condition : Pass Draft Operand} {body : Body} (hc : Yields condition)
    (hb : Trailing body) : Trailing (whileLoop condition body) := by
  intro e w he
  refine .bind (build_trails Build.loop_trails) fun g w₁ h₁ hg => ?_
  refine scan_bind_trails fun _ w₂ h₂ => ?_
  refine .bind (hc w₂) fun word w₃ h₃ hword => scan_bind_trails fun _ w₄ h₄ => ?_
  have hg := hg.mono ((h₂.trans h₃).trans h₄)
  refine .bind (build_trails (Build.test_trails (h₄.has hword) hg)) fun _ w₅ h₅ _ => ?_
  have h := ((h₁.trans h₂).trans (h₃.trans h₄)).trans h₅
  refine .bind (hb e w₅ (he.mono h)) fun e₁ w₆ h₆ he₁ => ?_
  have hg := hg.mono (h₅.trans h₆)
  refine .bind (build_trails (Build.fallInto_trails hg.first hg.last)) fun _ w₇ h₇ _ => ?_
  exact .pure fun w' hw => he₁.mono (h₇.trans hw)

theorem switch_trails {value : Pass Draft Operand} {body : Body} (hv : Yields value)
    (hb : Trailing body) (w : Draft) :
    Trails Trail Site.target w (switch value body) fun _ _ => True := by
  refine .bind (hv w) fun word w₁ _ hword => ?_
  refine .bind (build_trails Build.select_trails) fun g w₂ h₂ hg => ?_
  have hnone : w₂.HasCases (some ⟨g.number, []⟩) := by
    intro switch hs arm harm
    cases hs
    cases harm
  refine .bind (hb _ w₂ hnone) fun inner w₃ h₃ hinner => build_trails ?_
  refine Build.settle_trails ((h₂.trans h₃).has hword) (fun arm harm => ?_) (hg.mono h₃)
  cases inner with
  | none => cases harm
  | some inner => exact hinner inner rfl arm harm

theorem case_trailing {body : Body} (hb : Trailing body) : Trailing (case body) := by
  intro e w he
  cases e with
  | none => exact .throw
  | some enclosing =>
      refine scan_bind_trails fun value w₁ h₁ => ?_
      split
      · exact .throw
      · refine .bind (build_trails (Build.caseBlock_trails enclosing.group value))
          fun block w₂ h₂ hblock => labelled_trailing hb _ w₂ ?_
        intro switch hs arm harm
        cases hs
        rcases List.mem_append.mp harm with harm | harm
        · exact (h₁.trans h₂).has (he enclosing rfl arm harm)
        · cases List.mem_singleton.mp harm
          exact hblock

theorem label_trailing {name : String} (hname : isName name) {body : Body} (hb : Trailing body) :
    Trailing (label name body) :=
  fun e _ he => .bind (build_trails (Build.placeLabel_trails hname))
    fun _ w₁ h₁ _ => labelled_trailing hb e w₁ (he.mono h₁)

theorem ret_trails {value : Pass Draft Operand} (h : Yields value) (w : Draft) :
    Trails Trail Site.target w (ret value) fun _ _ => True := by
  refine scan_bind_trails fun found w₁ _ => ?_
  split
  · exact build_trails (Build.ret_trails (w₁.has_const 0))
  · refine .bind (h w₁) fun word w₂ _ hword => scan_bind_trails fun _ w₃ h₃ => ?_
    exact scan_bind_trails fun _ w₄ h₄ => build_trails (Build.ret_trails ((h₃.trans h₄).has hword))
  · exact .throw

theorem goto_trails (w : Draft) : Trails Trail Site.target w goto fun _ _ => True := by
  refine .bind (scan_trails (Scan.someName_gives _)) fun name w₁ _ hname => ?_
  exact .bind (build_trails (Build.goto_trails hname)) fun _ w₂ _ _ => scan_trails (.trivial _)

theorem auto_trails (w : Draft) : Trails Trail Site.target w auto fun _ _ => True :=
  scan_bind_trails fun item _ _ => build_trails (Build.declareAuto_trails item.1 item.2)

theorem extrn_trails (w : Draft) : Trails Trail Site.target w extrn fun _ _ => True :=
  .bind (scan_trails (Scan.someName_gives _))
    fun _ _ _ hname => build_trails (Build.bindExternal_trails hname)

theorem expression_trailing {value : Pass Draft Operand} (h : Yields value) :
    Trailing fun enclosing => do
      let _ ← value
      scan (Scan.expect ';' "after expression statement")
      return enclosing :=
  fun _ w he => .bind (h w) fun _ _ h₁ _ => scan_bind_trails fun _ _ h₂ =>
    .pure fun _ hw => he.mono ((h₁.trans h₂).trans hw)

/-- A statement and the statements of a block together, by induction on the bound. -/
theorem grammar_trailing (depth : Nat) :
    Trailing (statementAt depth) ∧ Trailing (statements depth) := by
  induction depth with
  | zero => exact ⟨fun _ _ _ => .throw, fun _ _ _ => .throw⟩
  | succ depth ih =>
      obtain ⟨hstatement, hstatements⟩ := ih
      have hvalue : Yields (expressionAt depth fullLevel) := expressionAt_yields depth fullLevel
      have hitems {item : Pass Draft Unit}
          (h : ∀ w, Trails Trail Site.target w item fun _ _ => True) (close : Char)
          (place : String) (w : Draft) :
          Trails Trail Site.target w (items close place item depth) _ :=
        items_trails (fun _ _ _ _ _ => trivial) h depth w
      constructor
      · intro e w he
        refine .bind (scan_trails Scan.statementHead_gives) fun head w₁ h₁ hhead => ?_
        have he := he.mono h₁
        cases head with
        | compound => exact hstatements e w₁ he
        | empty => exact Trailing.skip e w₁ he
        | ifElse => exact ifElse_trailing hvalue hstatement e w₁ he
        | whileLoop => exact whileLoop_trailing hvalue hstatement e w₁ he
        | case => exact case_trailing hstatement e w₁ he
        | label name => exact label_trailing (hhead name rfl) hstatement e w₁ he
        | switch => exact Trailing.of_step (switch_trails hvalue hstatement) e w₁ he
        | goto => exact Trailing.of_step goto_trails e w₁ he
        | auto => exact Trailing.of_step (hitems auto_trails _ _) e w₁ he
        | extrn => exact Trailing.of_step (hitems extrn_trails _ _) e w₁ he
        | ret => exact Trailing.of_step (ret_trails hvalue) e w₁ he
        | expression => exact expression_trailing hvalue e w₁ he
      · intro e w he
        refine scan_bind_trails fun closed w₁ h₁ => ?_
        cases closed with
        | true => exact .pure fun w' hw => he.mono (h₁.trans hw)
        | false =>
            refine scan_bind_trails fun atEnd w₂ h₂ => ?_
            cases atEnd with
            | true => exact .throw
            | false =>
                refine .bind (hstatement e w₂ (he.mono (h₁.trans h₂))) fun e₁ w₃ _ he₁ => ?_
                exact hstatements e₁ w₃ he₁

theorem statement_trails (w : Draft) : Trails Trail Site.target w statement fun _ _ => True := by
  intro s hs
  have hnone : w.HasCases none := fun _ h => absurd h (by simp)
  exact Trails.bind ((grammar_trailing _).1 none w hnone)
    (fun _ _ _ _ => .pure fun _ _ => trivial) s hs

/-- Whatever the text, compiling a function body follows a trail. -/
theorem functionBody_trails (w : Draft) :
    Trails Trail Site.target w functionBody fun _ _ => True :=
  .bind (statement_trails w) fun _ _ _ _ => .bind (build_trails Build.finish_trails)
    fun _ _ _ _ => .pure fun _ _ => trivial

end Pass
end BCompiler
