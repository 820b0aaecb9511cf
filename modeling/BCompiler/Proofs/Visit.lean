import BCompiler.Proofs.Draft.Total
import BCompiler.Proofs.Line
import BCompiler.Proofs.Quiet

/-!
The marks that the compiler comes to in the body of a function.

A mark is the beginning of a statement, a goto, a label or an item of an auto declaration.
Statements are read here with a log of their marks, in the order in which they are come to; without
its log this is how they are compiled. Whether the body is accepted or breaks off, the draft has
come from mark to mark by quiet changes, and only the last mark can have failed.
-/
namespace BCompiler

/-- What a mark does to the draft. -/
def Mark.act : Mark → Build Unit
  | .statement => return
  | .goto name => Build.goto name
  | .label name => Build.placeLabel name
  | .auto name size => Build.declareAuto name size

namespace Draft

/-- The label is mentioned. -/
def Mentions (d : Draft) (name : String) : Prop := ∃ label ∈ d.labels, label.name = name

/-- The label is defined. -/
def Defines (d : Draft) (name : String) : Prop :=
  ∃ label ∈ d.labels, label.name = name ∧ label.defined

theorem mentioning_of_mentions {d : Draft} {name : String} (h : d.Mentions name) :
    d.mentioning name = d := by
  unfold mentioning
  split
  · rfl
  · next hnone =>
      obtain ⟨label, hm, rfl⟩ := h
      exact absurd (beq_self_eq_true _) (List.find?_eq_none.mp hnone label hm)

theorem mentions_mentioning {d : Draft} {name x : String} :
    (d.mentioning name).Mentions x ↔ d.Mentions x ∨ x = name := by
  by_cases h : d.Mentions name
  · rw [mentioning_of_mentions h, or_iff_left_of_imp (· ▸ h)]
  · have hnone : d.labels.find? (fun label => label.name == name) = none :=
      List.find?_eq_none.mpr fun label hm he => h ⟨label, hm, eq_of_beq he⟩
    unfold mentioning
    rw [hnone]
    simp [Mentions, withLabel, or_and_right, exists_or, eq_comm]

theorem defines_mentioning {d : Draft} {name x : String} :
    (d.mentioning name).Defines x ↔ d.Defines x := by
  unfold mentioning
  split
  · rfl
  · simp [Defines, withLabel, or_and_right, exists_or]

theorem mentions_labelDefined {d : Draft} {name x : String} :
    (d.labelDefined name).Mentions x ↔ d.Mentions x := by
  constructor
  · rintro ⟨_, hm, rfl⟩
    obtain ⟨label, hold, rfl⟩ := List.mem_map.mp hm
    exact ⟨label, hold, (Label.name_define name label).symm⟩
  · rintro ⟨label, hm, rfl⟩
    exact ⟨_, List.mem_map.mpr ⟨label, hm, rfl⟩, Label.name_define name label⟩

theorem defines_labelDefined {d : Draft} {name x : String} (h : d.Mentions name) :
    (d.labelDefined name).Defines x ↔ d.Defines x ∨ x = name := by
  constructor
  · rintro ⟨_, hm, rfl, hd⟩
    obtain ⟨label, hold, rfl⟩ := List.mem_map.mp hm
    rw [Label.name_define]
    unfold Label.define at hd
    split at hd
    · next he => exact .inr (eq_of_beq he)
    · exact .inl ⟨label, hold, rfl, hd⟩
  · intro hx
    have hlabel : ∃ label ∈ d.labels, label.name = x ∧ (label.define name).defined := by
      rcases hx with ⟨label, hm, hname, hd⟩ | rfl
      · refine ⟨label, hm, hname, ?_⟩
        unfold Label.define
        split
        · rfl
        · exact hd
      · obtain ⟨label, hm, rfl⟩ := h
        refine ⟨label, hm, rfl, ?_⟩
        rw [Label.define, if_pos (beq_self_eq_true _)]
    obtain ⟨label, hm, hname, hd⟩ := hlabel
    exact ⟨_, List.mem_map.mpr ⟨label, hm, rfl⟩, (Label.name_define name label).trans hname, hd⟩

end Draft

namespace Mark

/-- What a mark changes in the names of the function. -/
def change : Mark → Draft → Draft
  | .statement, d => d
  | .goto name, d => d.mentioning name
  | .label name, d => (d.mentioning name).labelDefined name
  | .auto name size, d => d.withSlot name (size.map fun n => Build.localArrayLength n.count)

/-- A label is not defined twice, and a local is not declared twice. -/
def Fits : Mark → Draft → Prop
  | .label name, d => ¬d.Defines name
  | .auto name _, d => d.locals.lookup name = none
  | _, _ => True

end Mark

namespace Build

theorem any_defined_iff {d : Draft} {name : String} :
    ((d.mentioning name).labels.any fun label => label.name == name && label.defined) = false ↔
      ¬d.Defines name := by
  rw [← @Draft.defines_mentioning d name name]
  simp [Draft.Defines]

theorem valid_mentioning {d : Draft} (hv : d.Valid) (name : String) :
    (d.mentioning name).Valid := by
  unfold Draft.mentioning
  split
  · exact hv
  · exact Nat.lt_of_lt_of_le hv (by simp [Draft.withLabel, Draft.addBlock])

/-- Behind its slot, the declaration of a local adds code only. -/
theorem declareAuto_eq_ok {name : String} {size : Option Word} {d d' : Draft} {u : Unit}
    (h : declareAuto name size d = .ok u d') :
    d.locals.lookup name = none ∧
      Quiet (d.withSlot name (size.map fun n => localArrayLength n.count)) d' := by
  cases size with
  | none =>
      obtain ⟨v, d₁, hs, h⟩ := bind_eq_ok_iff.mp h
      obtain ⟨hl, _, _, rfl⟩ := slot_eq_ok_iff.mp hs
      exact ⟨hl, (store_calm _ _).ok h⟩
  | some n =>
      obtain ⟨v, d₁, hs, h⟩ := bind_eq_ok_iff.mp h
      obtain ⟨hl, _, _, rfl⟩ := slot_eq_ok_iff.mp hs
      have hfill : Calm id (emit (.arrayElement v (localArrayLength n.count) 1) >>= fun first =>
          toWord first >>= fun word => store word v) :=
        .bind (emit_calm rfl) fun _ => .bind (emit_calm rfl) fun _ => store_calm _ _
      exact ⟨hl, hfill.ok h⟩

/-- What slots and quiet changes keep holds when the parameters have their slots. -/
theorem spill_invariant {P : Draft → Prop} (hslot : ∀ d name, P d → P (d.withSlot name none))
    (hquiet : ∀ d d', Quiet d d' → P d → P d') {params : List String} {d d' : Draft} {u : Unit}
    (hd : P d) (h : spill params d = .ok u d') : P d' := by
  refine spill_induction (fun hd hs hst => ?_) hd h
  obtain ⟨_, _, _, rfl⟩ := slot_eq_ok_iff.mp hs
  exact hquiet _ _ ((store_calm _ _).ok hst) (hslot _ _ hd)

theorem declareAuto_of_lookup {name : String} {d : Draft} (hv : d.Valid)
    (hl : d.locals.lookup name = none) (size : Option Word) :
    ∃ d', declareAuto name size d = .ok () d' := by
  have hblocks : 0 < d.function.blocks.length := Nat.zero_lt_of_lt hv
  have hslot (words : Option UInt64) : slot name words d = .ok (.value d.function.nextValue)
      (d.withSlot name words) := slot_eq_ok_iff.mpr ⟨hl, hblocks, rfl, rfl⟩
  have hready (words : Option UInt64) :
      (d.withSlot name words).Ready (d.withSlot name words).locals 0 :=
    ⟨Nat.lt_of_lt_of_eq hv (Function.length_onBlock ..).symm, rfl, Nat.zero_le _⟩
  cases size with
  | none =>
      obtain ⟨_, d', hs, _⟩ := store_sure (.const 0) (.value d.function.nextValue) _ (hready none)
      exact ⟨d', bind_eq_ok_iff.mpr ⟨_, _, hslot none, hs⟩⟩
  | some n =>
      obtain ⟨_, d', hs, _⟩ := Sure.bind (emit_sure _) (fun first => .bind (emit_sure _)
        fun word => store_sure word (.value d.function.nextValue)) _
        (hready (some (localArrayLength n.count)))
      exact ⟨d', bind_eq_ok_iff.mpr ⟨_, _, hslot _, hs⟩⟩

theorem slot_redeclared {name : String} {d : Draft} (hl : d.locals.lookup name ≠ none)
    (words : Option UInt64) : slot name words d = .error (.redeclared name) d := by
  unfold slot
  rw [get_bind]
  cases h : d.locals.lookup name with
  | none => exact absurd h hl
  | some address => rfl

theorem declareAuto_redeclared {name : String} {d : Draft} (hl : d.locals.lookup name ≠ none)
    (size : Option Word) : declareAuto name size d = .error (.redeclared name) d := by
  cases size with
  | none => exact bind_of_error (slot_redeclared hl _)
  | some n => exact bind_of_error (slot_redeclared hl _)

theorem placeLabel_duplicate {name : String} {d : Draft} (hd : d.Defines name) :
    placeLabel name d = .error (.duplicateLabel name) d := by
  obtain ⟨label, hm, hname, hdef⟩ := hd
  have hmention : d.mentioning name = d := Draft.mentioning_of_mentions ⟨label, hm, hname⟩
  have hany : (d.labels.any fun label => label.name == name && label.defined) = true :=
    List.any_eq_true.mpr ⟨label, hm, by simp [hname, hdef]⟩
  refine bind_of_error ?_
  unfold defineLabel
  rw [bind_of_ok (labelBlock_eq name d), hmention, get_bind, if_pos hany]
  rfl

end Build

namespace Mark

variable {mark : Mark} {d d' : Draft}

/-- What a mark does, if it fits: it changes the names of the function, and adds code. -/
theorem act_eq_ok {u : Unit} (h : mark.act d = .ok u d') :
    mark.Fits d ∧ Quiet (mark.change d) d' := by
  cases mark with
  | statement =>
      obtain ⟨_, rfl⟩ := pure_eq_ok_iff.mp h
      exact ⟨trivial, .refl _⟩
  | goto name =>
      obtain ⟨_, rfl⟩ := Build.goto_eq_ok_iff.mp h
      exact ⟨trivial, (Draft.quiet_endedIfOpen _ _).trans (Draft.quiet_unreachable _)⟩
  | label name =>
      obtain ⟨hnew, _, rfl⟩ := Build.placeLabel_eq_ok_iff.mp h
      exact ⟨Build.any_defined_iff.mp hnew, (Draft.quiet_endedIfOpen _ _).trans (.goTo _ _)⟩
  | auto name size => exact Build.declareAuto_eq_ok h

theorem act_of_fits (hv : d.Valid) (h : mark.Fits d) : ∃ d', mark.act d = .ok () d' := by
  cases mark with
  | statement => exact ⟨d, rfl⟩
  | goto name => exact ⟨_, Build.goto_eq_ok_iff.mpr ⟨Build.valid_mentioning hv name, rfl⟩⟩
  | label name =>
      exact ⟨_, Build.placeLabel_eq_ok_iff.mpr
        ⟨Build.any_defined_iff.mpr h, Build.valid_mentioning hv name, rfl⟩⟩
  | auto name size => exact Build.declareAuto_of_lookup hv h size

/-- A mark that does not fit fails, and leaves the draft as it was. -/
theorem act_of_not_fits (h : ¬mark.Fits d) :
    (∃ x, mark = .label x ∧ mark.act d = .error (.duplicateLabel x) d) ∨
      ∃ x size, mark = .auto x size ∧ mark.act d = .error (.redeclared x) d := by
  cases mark with
  | statement | goto => exact absurd trivial h
  | label name => exact .inl ⟨name, rfl, Build.placeLabel_duplicate (Classical.not_not.mp h)⟩
  | auto name size => exact .inr ⟨name, size, rfl, Build.declareAuto_redeclared h size⟩

end Mark

/-- A mark that has been read, and where the compiler is before it does what the mark says. -/
structure Visit where
  mark : Mark
  site : Site Draft
  deriving DecidableEq, Repr

/-- A step with the marks that it comes to from a given place. -/
structure Logged (α : Type) where
  step : Pass Draft α
  log : Site Draft → List Visit

namespace Logged

variable {α β : Type}

/-- A step that comes to no mark. -/
def unmarked (step : Pass Draft α) : Logged α := ⟨step, fun _ => []⟩

instance : Monad Logged where
  pure a := unmarked (pure a)
  bind x f := {
    step := x.step >>= fun a => (f a).step
    log := fun s => x.log s ++
      match x.step s with
      | .ok a t => (f a).log t
      | .error _ _ => [] }

/-- A mark is logged with the place where the compiler is in front of it. -/
instance : MonadMark Logged where
  step := unmarked
  mark mark step := ⟨step, fun s => [⟨mark, s⟩]⟩

abbrev Body := BodyOf Logged

/-- A statement with its marks. -/
abbrev statementAt : Nat → Body := Pass.statementOf

/-- The statements of a block with their marks. -/
abbrev statements : Nat → Body := Pass.statementsOf

theorem step_bind (x : Logged α) (f : α → Logged β) :
    (x >>= f).step = x.step >>= fun a => (f a).step := rfl

theorem mem_log_bind {x : Logged α} {f : α → Logged β} {s : Site Draft} {v : Visit} :
    v ∈ (x >>= f).log s ↔ v ∈ x.log s ∨ ∃ a t, x.step s = .ok a t ∧ v ∈ (f a).log t := by
  change v ∈ x.log s ++ (match x.step s with
    | .ok a t => (f a).log t
    | .error _ _ => []) ↔ _
  rw [List.mem_append]
  refine or_congr_right ?_
  cases x.step s with
  | ok a t =>
      refine ⟨fun hv => ⟨a, t, rfl, hv⟩, ?_⟩
      rintro ⟨_, _, hs, hv⟩
      cases hs
      exact hv
  | error e t => simp

section Step

variable (body : Body) (enclosing : Option Switch)

theorem step_labelled :
    (Pass.labelled body enclosing).step = Pass.labelled (fun e => (body e).step) enclosing :=
  congrArg (Pass.scan Scan.peekMark >>= ·) (funext fun _ => apply_ite ..)

theorem step_elsePart :
    (Pass.elsePart body enclosing).step = Pass.elsePart (fun e => (body e).step) enclosing :=
  congrArg (Pass.scan (Scan.keyword "else") >>= ·) (funext fun _ => apply_ite ..)

theorem step_ifElse (condition : Pass Draft Operand) :
    (Pass.ifElse condition body enclosing).step =
      Pass.ifElse condition (fun e => (body e).step) enclosing := by
  simp only [Pass.ifElse, step_bind, step_elsePart]
  rfl

theorem step_case :
    (Pass.case body enclosing).step = Pass.case (fun e => (body e).step) enclosing := by
  cases enclosing with
  | none => rfl
  | some enclosing =>
      refine congrArg (Pass.scan Scan.caseConstant >>= ·) (funext fun value => ?_)
      refine (apply_ite ..).trans (ite_congr rfl (fun _ => rfl) fun _ => ?_)
      simp only [step_bind, step_labelled]
      rfl

theorem step_items (close : Char) (place : String) (item : Logged α) (depth : Nat) :
    (Pass.items close place item depth).step = Pass.items close place item.step depth := by
  induction depth with
  | zero => rfl
  | succ depth ih =>
      refine congrArg (item.step >>= ·) (funext fun a => ?_)
      refine congrArg (Pass.scan (Scan.another close place) >>= ·) (funext fun another => ?_)
      refine (apply_ite ..).trans (ite_congr rfl (fun _ => ?_) fun _ => rfl)
      exact congrArg (· >>= fun as => return a :: as) ih

end Step

/-- Without its log, the grammar is the one that compiles. -/
theorem step_grammar (depth : Nat) :
    (fun e => (statementAt depth e).step) = Pass.statementAt depth ∧
      (fun e => (statements depth e).step) = Pass.statements depth := by
  induction depth with
  | zero => exact ⟨rfl, rfl⟩
  | succ depth ih =>
      have hstatement : (fun e => (statementAt depth e).step) = Pass.statementOf depth := ih.1
      have hstatements : (fun e => (statements depth e).step) = Pass.statementsOf depth := ih.2
      constructor
      · refine funext fun e => congrArg (Pass.scan Scan.statementHead >>= ·) (funext fun head => ?_)
        simp only [← hstatement]
        cases head with
        | compound => exact congrFun hstatements e
        | ifElse => exact step_ifElse ..
        | case => exact step_case ..
        | label name =>
            exact congrArg (Pass.build (Build.placeLabel name) >>= ·)
              (funext fun _ => step_labelled ..)
        | auto => exact congrArg (· >>= fun _ => return e) (step_items ..)
        | empty | whileLoop | switch | goto | extrn | ret | expression => rfl
      · refine funext fun e => congrArg (Pass.scan (Scan.accept '}') >>= ·) ?_
        refine funext fun closed => ?_
        refine (apply_ite ..).trans (ite_congr rfl (fun _ => rfl) fun _ => ?_)
        refine congrArg (Pass.scan Scan.atEnd >>= ·) (funext fun ended => ?_)
        refine (apply_ite ..).trans (ite_congr rfl (fun _ => rfl) fun _ => ?_)
        rw [← hstatement, ← hstatements]
        rfl

end Logged

/-- The way from a place to another, reading on and making quiet changes from mark to mark, each of
which is done. -/
inductive Walk : Site Draft → List Visit → Site Draft → Prop
  | rest {s t : Site Draft} : s.cursor.Visits t.cursor → Quiet s.target t.target → Walk s [] t
  | visit {s t : Site Draft} {v : Visit} {vs : List Visit} {d : Draft} :
      s.cursor.Visits v.site.cursor → Quiet s.target v.site.target →
      v.mark.act v.site.target = .ok () d → Walk ⟨v.site.cursor, d⟩ vs t → Walk s (v :: vs) t

namespace Walk

variable {s r t : Site Draft} {vs ws : List Visit}

theorem after (hc : s.cursor.Visits r.cursor) (hq : Quiet s.target r.target) (h : Walk r vs t) :
    Walk s vs t := by
  cases h with
  | rest hc' hq' => exact .rest (hc.trans hc') (hq.trans hq')
  | visit hc' hq' ha hw => exact .visit (hc.trans hc') (hq.trans hq') ha hw

theorem trans (h : Walk s vs r) (h' : Walk r ws t) : Walk s (vs ++ ws) t := by
  induction h with
  | rest hc hq => exact h'.after hc hq
  | visit hc hq ha _ ih => exact .visit hc hq ha (ih h')

/-- A walk comes to each of its marks, and goes on from it. -/
theorem split {front back : List Visit} {v : Visit} (h : Walk s (front ++ v :: back) t) :
    Walk s front v.site ∧ ∃ d, v.mark.act v.site.target = .ok () d ∧
      Walk ⟨v.site.cursor, d⟩ back t := by
  induction front generalizing s with
  | nil =>
      cases h with
      | visit hc hq ha hw => exact ⟨.rest hc hq, _, ha, hw⟩
  | cons u front ih =>
      cases h with
      | visit hc hq ha hw =>
          obtain ⟨hfront, hrest⟩ := ih hw
          exact ⟨.visit hc hq ha hfront, hrest⟩

/-- The marks of a walk are read one after the other, and all before the place where it ends. -/
theorem follows (h : Walk s vs t) :
    vs.Pairwise (fun u v => u.site.cursor.Follows v.site.cursor) ∧
      (∀ v ∈ vs, s.cursor.Follows v.site.cursor ∧ v.site.cursor.Follows t.cursor) ∧
      s.cursor.Follows t.cursor := by
  induction h with
  | rest hc _ => exact ⟨.nil, nofun, hc.follows⟩
  | visit hc _ _ _ ih =>
      obtain ⟨hpairs, hvisits, hend⟩ := ih
      refine ⟨List.pairwise_cons.mpr ⟨fun u hu => (hvisits u hu).1, hpairs⟩, fun u hu => ?_,
        hc.follows.trans hend⟩
      rcases List.mem_cons.mp hu with rfl | hu
      · exact ⟨hc.follows, hend⟩
      · exact ⟨hc.follows.trans (hvisits u hu).1, (hvisits u hu).2⟩

end Walk

/-- How a step ends that comes to the marks: along a walk, or by a failure of the last mark. -/
def Walks {α : Type} (s : Site Draft) (visits : List Visit) :
    EStateM.Result Error (Site Draft) α → Prop
  | .ok _ t => Walk s visits t
  | .error e t => Walk s visits t ∨
      ∃ front v, visits = front ++ [v] ∧ Walk s front v.site ∧ t.cursor = v.site.cursor ∧
        v.mark.act v.site.target = .error e t.target

/-- What a step leaves of its target, whether it succeeds or fails. -/
def Pass.outcome {σ α : Type} : EStateM.Result Error (Site σ) α → σ
  | .ok _ t => t.target
  | .error _ t => t.target

/-- What a step gives and where it ends, if it succeeds. -/
def Pass.accepted? {σ α : Type} : EStateM.Result Error (Site σ) α → Option (α × Site σ)
  | .ok a t => some (a, t)
  | .error _ _ => none

theorem Pass.accepted?_eq_some {σ α : Type} {r : EStateM.Result Error (Site σ) α} {x : α × Site σ} :
    accepted? r = some x ↔ r = .ok x.1 x.2 := by
  cases r <;> simp [accepted?, Prod.ext_iff]

namespace Walks

variable {α : Type} {s : Site Draft} {visits front back : List Visit} {v : Visit}
  {r : EStateM.Result Error (Site Draft) α}

theorem follows (h : Walks s visits r) :
    visits.Pairwise fun u v => u.site.cursor.Follows v.site.cursor := by
  cases r with
  | ok a t => exact (Walk.follows h).1
  | error e t =>
      rcases h with hw | ⟨front, v, rfl, hw, _⟩
      · exact hw.follows.1
      · refine List.pairwise_append.mpr ⟨hw.follows.1, List.pairwise_singleton _ _, ?_⟩
        exact fun u hu w hm => List.mem_singleton.mp hm ▸ (hw.follows.2.1 u hu).2

/-- The draft that is left is at the end of a walk, to the last mark if that one does not fit. -/
theorem walk (h : Walks s visits r) (hv : ∀ v ∈ visits, v.site.target.Valid) :
    ∃ done t, Walk s done t ∧ t.target = Pass.outcome r ∧
      (visits = done ∨ ∃ v e, visits = done ++ [v] ∧ t = v.site ∧ r = .error e t ∧
        v.mark.act t.target = .error e t.target ∧ ¬v.mark.Fits t.target) := by
  cases r with
  | ok a t => exact ⟨visits, t, h, rfl, .inl rfl⟩
  | error e t =>
      rcases h with hw | ⟨done, v, hlog, hw, hcursor, hact⟩
      · exact ⟨visits, t, hw, rfl, .inl rfl⟩
      · have hfits : ¬v.mark.Fits v.site.target := by
          intro hfits
          have hvalid := hv v (hlog ▸ List.mem_append_right _ (.head _))
          obtain ⟨d, hok⟩ := Mark.act_of_fits hvalid hfits
          rw [hok] at hact
          cases hact
        have htarget : t.target = v.site.target := by
          rcases Mark.act_of_not_fits hfits with ⟨x, _, hact'⟩ | ⟨x, size, _, hact'⟩ <;>
            exact (EStateM.Result.error.inj (hact'.symm.trans hact)).2.symm
        have ht : t = v.site := by
          obtain ⟨cursor, target⟩ := t
          cases hcursor
          cases htarget
          rfl
        subst ht
        exact ⟨done, _, hw, rfl, .inr ⟨v, e, hlog, rfl, rfl, hact, hfits⟩⟩

/-- A mark is reached by a walk. If it fits, the walk goes on to where the step ends, and otherwise
the step ends there. -/
theorem split (h : Walks s (front ++ v :: back) r)
    (hv : ∀ u ∈ front ++ v :: back, u.site.target.Valid) :
    Walk s front v.site ∧
      ((∃ d rest t, v.mark.act v.site.target = .ok () d ∧ Walk ⟨v.site.cursor, d⟩ rest t ∧
          t.target = Pass.outcome r) ∨
        ∃ e, r = .error e v.site ∧ v.mark.act v.site.target = .error e v.site.target) := by
  obtain ⟨done, t, hw, htarget, hdone⟩ := h.walk hv
  have hwalk {rest : List Visit} (hrest : done = front ++ v :: rest) :
      Walk s front v.site ∧ ∃ d rest t, v.mark.act v.site.target = .ok () d ∧
        Walk ⟨v.site.cursor, d⟩ rest t ∧ t.target = Pass.outcome r := by
    obtain ⟨hfront, d, hact, hgo⟩ := (hrest ▸ hw).split
    exact ⟨hfront, d, rest, t, hact, hgo, htarget⟩
  rcases hdone with hdone | ⟨w, e, hdone, rfl, hr, hact, _⟩
  · obtain ⟨hfront, hgo⟩ := hwalk hdone.symm
    exact ⟨hfront, .inl hgo⟩
  · rcases List.eq_nil_or_concat back with rfl | ⟨rest, z, rfl⟩
    · obtain ⟨rfl, hvw⟩ := List.append_inj' hdone rfl
      cases hvw
      exact ⟨hw, .inr ⟨e, hr, hact⟩⟩
    · rw [List.concat_eq_append, ← List.cons_append, ← List.append_assoc] at hdone
      obtain ⟨hrest, _⟩ := List.append_inj' hdone rfl
      obtain ⟨hfront, hgo⟩ := hwalk hrest.symm
      exact ⟨hfront, .inl hgo⟩

end Walks

namespace Logged

variable {α β : Type}

/-- From every place, the step walks along its log. -/
def Tracks (x : Logged α) : Prop := ∀ s, Walks s (x.log s) (x.step s)

namespace Tracks

theorem unmarked {step : Pass Draft α} (ht : Pass.Travels step) (hc : Calm Site.target step) :
    Tracks (.unmarked step) := by
  intro s
  have hq := hc s.target s (.refl _)
  change Walks s [] (step s)
  cases hs : step s with
  | ok a t =>
      rw [hs] at hq
      exact .rest (ht.ok hs) hq.1
  | error e t =>
      rw [hs] at hq
      exact .inl (.rest (ht.error hs) hq)

theorem scan {step : Scan α} (h : Reader step) : Tracks (.unmarked (Pass.scan step)) :=
  unmarked (.scan h) (.scan step)

theorem build {step : Build α} (h : Calm id step) : Tracks (.unmarked (Pass.build step)) :=
  unmarked (.build step) (.build h)

theorem pure (a : α) : Tracks (Pure.pure a) := unmarked (Pass.Travels.congruence.pure a) (.pure a)

theorem throw (e : Error) : Tracks (.unmarked (MonadExcept.throw e) : Logged α) :=
  unmarked (.throw e) (.throw e)

theorem visit (mark : Mark) : Tracks (MonadMark.mark mark (Pass.build mark.act)) := by
  intro s
  change Walks s [⟨mark, s⟩] (Pass.build mark.act s)
  unfold Pass.build
  cases ha : mark.act s.target with
  | ok u d => exact .visit .start (.refl _) ha (.rest .start (.refl _))
  | error e d => exact .inr ⟨[], ⟨mark, s⟩, rfl, .rest .start (.refl _), rfl, ha⟩

theorem bind {x : Logged α} {f : α → Logged β} (hx : Tracks x) (hf : ∀ a, Tracks (f a)) :
    Tracks (x >>= f) := by
  intro s
  have h := hx s
  change Walks s (x.log s ++ match x.step s with
    | .ok a t => (f a).log t
    | .error _ _ => []) ((x.step >>= fun a => (f a).step) s)
  cases hs : x.step s with
  | error e t =>
      rw [hs] at h
      rw [bind_of_error hs, List.append_nil]
      exact h
  | ok a r =>
      rw [hs] at h
      rw [bind_of_ok hs]
      have hrest := hf a r
      dsimp only
      cases hr : (f a).step r with
      | ok b t =>
          rw [hr] at hrest
          exact Walk.trans h hrest
      | error e t =>
          rw [hr] at hrest
          rcases hrest with hw | ⟨front, v, hlog, hw, hcursor, ha⟩
          · exact .inl (Walk.trans h hw)
          · refine .inr ⟨x.log s ++ front, v, ?_, Walk.trans h hw, hcursor, ha⟩
            rw [hlog, List.append_assoc]

/-- What a statement begins with is read behind its mark. -/
theorem statementHead : Tracks (MonadMark.mark .statement (Pass.scan Scan.statementHead)) := by
  have h := bind (visit .statement) fun _ => scan .statementHead
  exact h

theorem items {close : Char} {place : String} {item : Logged α} (h : Tracks item) (depth : Nat) :
    Tracks (Pass.items close place item depth) := by
  induction depth with
  | zero => exact throw _
  | succ depth ih =>
      refine bind h fun a => bind (scan (.another close place)) fun another => ?_
      cases another with
      | true => exact bind ih fun _ => pure _
      | false => exact pure _

variable {body : Body} (hb : ∀ e, Tracks (body e))

include hb

theorem labelled (e : Option Switch) : Tracks (Pass.labelled body e) := by
  refine bind (scan .peekMark) fun next => ?_
  split
  · exact pure e
  · exact hb e

theorem elsePart (e : Option Switch) : Tracks (Pass.elsePart body e) := by
  refine bind (scan (.keyword (by decide))) fun found => ?_
  cases found with
  | true => exact hb e
  | false => exact pure e

theorem ifElse {condition : Pass Draft Operand} (ht : Pass.Travels condition)
    (hc : Calm Site.target condition) (e : Option Switch) :
    Tracks (Pass.ifElse condition body e) := by
  refine bind (scan (.expect _ _)) fun _ => bind (unmarked ht hc) fun word => ?_
  refine bind (scan (.expect _ _)) fun _ => ?_
  refine bind (build (Build.fork_calm ⟨'i', _, rfl, by decide⟩ word)) fun g => ?_
  refine bind (hb e) fun e₁ => ?_
  refine bind (build (Build.fallInto_calm _ _)) fun _ => bind (elsePart hb e₁) fun e₂ => ?_
  exact bind (build (Build.fallInto_calm _ _)) fun _ => pure e₂

theorem whileLoop {condition : Pass Draft Operand} (ht : Pass.Travels condition)
    (hc : Calm Site.target condition) (e : Option Switch) :
    Tracks (Pass.whileLoop condition body e) := by
  refine bind (build Build.loop_calm) fun g => bind (scan (.expect _ _)) fun _ => ?_
  refine bind (unmarked ht hc) fun word => bind (scan (.expect _ _)) fun _ => ?_
  refine bind (build (Build.test_calm word g)) fun _ => bind (hb e) fun e₁ => ?_
  exact bind (build (Build.fallInto_calm _ _)) fun _ => pure e₁

theorem switch {value : Pass Draft Operand} (ht : Pass.Travels value)
    (hv : Calm Site.target value) : Tracks (Pass.switch value body) := by
  refine bind (unmarked ht hv) fun word => bind (build Build.select_calm) fun g => ?_
  exact bind (hb _) fun inner => build (Build.settle_calm _ _ _)

theorem case (e : Option Switch) : Tracks (Pass.case body e) := by
  cases e with
  | none => exact throw _
  | some enclosing =>
      refine bind (scan .caseConstant) fun value => ?_
      split
      · exact throw _
      · exact bind (build (Build.caseBlock_calm _ _)) fun block => labelled hb _

theorem label (name : String) (e : Option Switch) : Tracks (Pass.label name body e) :=
  bind (visit _) fun _ => labelled hb e

end Tracks

theorem goto_tracks : Tracks Pass.goto :=
  .bind (.scan (.someName _)) fun _ => .bind (.visit _) fun _ => .scan (.expect _ _)

theorem auto_tracks : Tracks Pass.auto := .bind (.scan .autoItem) fun _ => .visit _

/-- A statement and the statements of a block together, by induction on the bound. -/
theorem grammar_tracks (depth : Nat) :
    (∀ e, Tracks (statementAt depth e)) ∧ ∀ e, Tracks (statements depth e) := by
  induction depth with
  | zero => exact ⟨fun _ => .throw _, fun _ => .throw _⟩
  | succ depth ih =>
      obtain ⟨hstatement, hstatements⟩ := ih
      have htravels : Pass.Alone Pass.Travels (Pass.expressionAt depth fullLevel)
          (Pass.expressionAt depth fullLevel) :=
        (Pass.Travels.grammatical.expressive.expressions Pass.Travels.deep
          (Nat.le_refl depth)).1 fullLevel
      have hcalm := Pass.expressionAt_calm depth fullLevel
      constructor
      · refine fun e => .bind .statementHead fun head => ?_
        cases head with
        | compound => exact hstatements e
        | empty => exact .pure e
        | ifElse => exact .ifElse hstatement htravels hcalm e
        | whileLoop => exact .whileLoop hstatement htravels hcalm e
        | case => exact .case hstatement e
        | label name => exact .label hstatement name e
        | switch => exact .bind (.switch hstatement htravels hcalm) fun _ => .pure e
        | goto => exact .bind goto_tracks fun _ => .pure e
        | auto => exact .bind (.items auto_tracks depth) fun _ => .pure e
        -- What an extrn, a return and an expression do falls between two marks.
        | extrn =>
            have hextrn : Pass.Travels (Pass.items ';' "in extrn declaration" Pass.extrn depth) :=
              Pass.Travels.congruence.items Pass.Travels.deep (.scan (.another _ _))
                Pass.Travels.grammatical.extrn (Nat.le_refl depth)
            exact .bind (.unmarked hextrn (Pass.extrn_calm depth)) fun _ => .pure e
        | ret =>
            have hret : Pass.Travels (Pass.ret (Pass.expressionAt depth fullLevel)) :=
              Pass.Travels.grammatical.ret htravels
            exact .bind (.unmarked hret (Pass.ret_calm hcalm)) fun _ => .pure e
        | expression =>
            refine .bind (.unmarked htravels hcalm) fun _ => ?_
            exact .bind (.scan (.expect _ _)) fun _ => .pure e
      · refine fun e => .bind (.scan (.accept _)) fun closed => ?_
        cases closed with
        | true => exact .pure e
        | false =>
            refine .bind (.scan .atEnd) fun ended => ?_
            cases ended with
            | true => exact .throw _
            | false => exact .bind (hstatement e) fun e₁ => hstatements e₁

end Logged

namespace Pass

/-- The marks that the compiler comes to in a statement outside of any switch, up to the place where
the statement ends or fails. -/
def visits (s : Site Draft) : List Visit := (Logged.statementAt s.cursor.depth none).log s

theorem statement_walks (s : Site Draft) : Walks s (visits s) (statement s) := by
  have h := (Logged.grammar_tracks s.cursor.depth).1 none s
  rw [show (Logged.statementAt s.cursor.depth none).step = _ from
    congrFun (Logged.step_grammar s.cursor.depth).1 none] at h
  change Walks s (visits s) ((statementAt s.cursor.depth none >>= fun _ => pure ()) s)
  cases hs : statementAt s.cursor.depth none s with
  | ok e t =>
      rw [bind_of_ok hs]
      rw [hs] at h
      exact h
  | error e t =>
      rw [bind_of_error hs]
      rw [hs] at h
      exact h

theorem quiet_functionBody (s : Site Draft) :
    Quiet (outcome (statement s)) (outcome (functionBody s)) := by
  change Quiet _ (outcome ((statement >>= fun _ => build Build.finish >>= fun _ => pure ()) s))
  cases hs : statement s with
  | error e t =>
      rw [bind_of_error hs]
      exact .refl _
  | ok u t =>
      rw [bind_of_ok hs]
      have hrest : Calm Site.target (build Build.finish >>= fun _ => pure ()) :=
        .bind (.build Build.finish_calm) fun _ => .pure ()
      have hq := hrest t.target t (.refl _)
      cases hr : (build Build.finish >>= fun _ => pure ()) t with
      | ok u' r =>
          rw [hr] at hq
          exact hq.1
      | error e r =>
          rw [hr] at hq
          exact hq

end Pass
end BCompiler
