import Mathlib.Data.List.Forall2
import BCompiler.Proofs.Definition
import BCompiler.Proofs.Frame
import BCompiler.Proofs.Phrase.Path

/-!
How a switch reaches its cases.

The body of a switch comes before the block that dispatches, and adds its cases to the switch on the
way, through whatever statements stand between them; a switch inside the body has cases of its own.
When the body is done, the block that dispatches is still open, since nothing but its switch enters
it, and it ends with the cases that were found.
-/
namespace BCompiler

/-- The switch with more cases. -/
def Switch.extend (arms : List (Word × BlockId)) (s : Switch) : Switch :=
  { s with cases := s.cases ++ arms }

theorem Switch.map_extend_nil (e : Option Switch) : e.map (extend []) = e := by
  cases e with
  | none => rfl
  | some s => simp [extend]

theorem Switch.map_extend_extend (e : Option Switch) (arms more : List (Word × BlockId)) :
    (e.map (extend arms)).map (extend more) = e.map (extend (arms ++ more)) := by
  cases e with
  | none => rfl
  | some s => simp [extend]

theorem Switch.group_map_extend (e : Option Switch) (arms : List (Word × BlockId)) :
    (e.map (extend arms)).map Switch.group = e.map Switch.group := by
  cases e <;> rfl

/-- Numbers that grow, from `lo` on and below `hi`. -/
structure Numbered (lo hi : Nat) (numbers : List Nat) : Prop where
  increasing : numbers.Pairwise (· < ·)
  within : ∀ n ∈ numbers, lo ≤ n ∧ n < hi

namespace Numbered

variable {lo mid hi : Nat} {numbers more : List Nat}

theorem nil : Numbered lo hi [] := ⟨.nil, nofun⟩

theorem widen {lo' hi' : Nat} (h : Numbered lo hi numbers) (hlo : lo' ≤ lo) (hhi : hi ≤ hi') :
    Numbered lo' hi' numbers :=
  ⟨h.increasing, fun n hn =>
    ⟨Nat.le_trans hlo (h.within n hn).1, Nat.lt_of_lt_of_le (h.within n hn).2 hhi⟩⟩

theorem append (h : Numbered lo mid numbers) (h' : Numbered mid hi more) (hlo : lo ≤ mid)
    (hhi : mid ≤ hi) : Numbered lo hi (numbers ++ more) where
  increasing := by
    rw [List.pairwise_append]
    refine ⟨h.increasing, h'.increasing, fun n hn m hm => ?_⟩
    exact Nat.lt_of_lt_of_le (h.within n hn).2 (h'.within m hm).1
  within n hn := by
    rcases List.mem_append.mp hn with hn | hn
    · exact (h.widen (Nat.le_refl _) hhi).within n hn
    · exact (h'.widen hlo (Nat.le_refl _)).within n hn

theorem cons {n : Nat} (hlo : lo ≤ n) (h : Numbered (n + 1) hi numbers) (hhi : n < hi) :
    Numbered lo hi (n :: numbers) where
  increasing := List.pairwise_cons.mpr ⟨fun m hm => (h.within m hm).1, h.increasing⟩
  within m hm := by
    rcases List.mem_cons.mp hm with rfl | hm
    · exact ⟨hlo, hhi⟩
    · exact ⟨Nat.le_trans hlo (Nat.le_of_lt (h.within m hm).1), (h.within m hm).2⟩

end Numbered

namespace Draft.Reserves

theorem spill {params : List String} {u : Unit} {d d' : Draft} (hd : d.Reserves [])
    (h : Build.spill params d = .ok u d') : d'.Reserves [] := by
  refine Build.spill_induction (P := fun d => d.Reserves []) (fun hd hslot hstore => ?_) hd h
  exact store (.course (.slot (e := none) hslot) hd) hstore

/-- A function begins without labels, and with a block. -/
theorem start {name : String} {params : List String} {p : Program} {d : Draft}
    (h : Draft.start name params p = .ok d) : d.Reserves [] := by
  obtain ⟨id, m, _, _, hspill⟩ := Draft.start_eq_ok h
  have hentered : (Draft.ofFunction { p with module := m } id (.entered name params)).Reserves [] :=
    ⟨Nat.zero_lt_one, nofun, nofun, nofun⟩
  exact hentered.spill hspill

end Draft.Reserves

namespace Build

/-- The block of a case is new. It is current and still empty, and what was open falls into it. -/
theorem caseBlock_enters {number : Nat} {value : Word} {block : BlockId} {d d' : Draft}
    (hv : d.Valid) (h : caseBlock number value d = .ok block d') :
    d'.current = block ∧
      d'.function.blocks[block]? =
        some (.empty ("case." ++ toString number ++ "." ++ value.decimal)) ∧
      (d.isOpen → d'.function.terminator? d.current = some (.branch block)) := by
  obtain ⟨hvalid, rfl, rfl⟩ := caseBlock_eq_ok_iff.mp h
  generalize "case." ++ toString number ++ "." ++ value.decimal = name at hvalid ⊢
  refine ⟨rfl, ?_, fun hopen => ?_⟩
  · have hne : d.function.blocks.length ≠ (d.addBlock name).current := Nat.ne_of_gt hv
    have hnew : (d.addBlock name).function.blocks[d.function.blocks.length]? =
        some (.empty name) := by simp [Draft.addBlock]
    change ((d.addBlock name).endedIfOpen _).function.blocks[_]? = _
    unfold Draft.endedIfOpen
    split
    · exact (Draft.getElem?_endedBy hne).trans hnew
    · exact hnew
  · change ((d.addBlock name).endedIfOpen _).function.terminator? d.current = _
    rw [Draft.endedIfOpen_of_isOpen (Draft.isOpen_addBlock hopen _),
      Draft.terminator?_endedBy _ _ _ hvalid]
    exact if_pos rfl

/-- The second block of a new construct waits for it. -/
theorem addGroup_reserves {d : Draft} (hd : d.Reserves []) (construct first second last : String) :
    (d.addGroup construct first second last).Reserves [d.group.second] := by
  have hgroup := hd.addGroup construct first second last
  have hsecond : d.group.second = d.function.blocks.length + 1 := rfl
  refine ⟨hgroup.valid, fun label hm => ⟨(hgroup.labels label hm).1, ?_⟩, ?_, ?_⟩
  · have hlt := (hd.labels label hm).1
    rw [List.mem_singleton, hsecond]
    exact Nat.ne_of_lt (Nat.lt_succ_of_lt hlt)
  · intro k hk
    rw [List.mem_singleton.mp hk]
    refine ⟨(hd.free_group construct first second last (.tail _ (.head _))).1, ?_⟩
    have hends : (d.addGroup construct first second last).function.terminator? d.group.second =
        d.function.terminator? d.group.second := by simp [Draft.addGroup, Draft.nextNumber]
    rw [hends, hsecond, Function.terminator?, List.getElem?_eq_none (Nat.le_succ _)]
    rfl
  · rw [List.mem_singleton, hsecond]
    exact Nat.ne_of_lt (Nat.lt_succ_of_lt hd.valid)

/-- A switch makes its blocks before its body, and keeps the one that dispatches for itself. -/
theorem select_reserves {g : BlockGroup} {d d' : Draft} (hd : d.Reserves [])
    (h : select d = .ok g d') :
    d'.Reserves [g.second] ∧ g.number = d.nextGroup ∧ d'.nextGroup = g.number + 1 ∧
      d'.function.blockNames[g.second]? = some ("switch." ++ toString g.number ++ ".cmp") ∧
      d'.function.blockNames[g.last]? = some ("switch." ++ toString g.number ++ ".end") := by
  obtain ⟨_, rfl, rfl⟩ := select_eq_ok_iff.mp h
  have hgroup := addGroup_reserves hd "switch" "stmts" "cmp" "end"
  have hfirst : (d.addGroup "switch" "stmts" "cmp" "end").Free [d.group.second] d.group.first := by
    refine ⟨(hd.free_group _ _ _ _ (.head _)).1, ?_⟩
    rw [List.mem_singleton]
    exact Nat.ne_of_lt (Nat.lt_succ_self _)
  have hlasts := Draft.Lasts.carried.fallenInto (d.addGroup "switch" "stmts" "cmp" "end")
    d.group.second d.group.first
  have hat := d.getElem?_blockNames_addGroup "switch" "stmts" "cmp" "end"
  have hname : ∀ part tail, "." ++ part = tail →
      "switch" ++ "." ++ toString d.nextGroup ++ "." ++ part =
        "switch." ++ toString d.nextGroup ++ tail := by
    rintro part _ rfl
    exact String.append_assoc
  refine ⟨hgroup.fallenInto hfirst, rfl, ?_, hlasts.name ?_, hlasts.name ?_⟩
  · unfold Draft.fallenInto Draft.endedIfOpen
    split <;> rfl
  · exact (hat 1).trans (congrArg some (hname "cmp" ".cmp" rfl))
  · exact (hat 2).trans (congrArg some (hname "end" ".end" rfl))

/-- A block that was kept for the dispatch is open when it comes, and ends with it. -/
theorem settle_dispatches {value : Operand} {cases : List (Word × BlockId)} {g : BlockGroup}
    {d d' : Draft} {u : Unit} (hd : d.Reserves [g.second])
    (h : settle value cases g d = .ok u d') :
    d'.function.terminator? g.second = some (.dispatch value cases g.last) := by
  obtain ⟨_, hvalid, rfl⟩ := settle_eq_ok_iff.mp h
  have hwaiting := (hd.endedIfOpen (.branch g.last)).waiting g.second (.head _)
  have hopen : (d.fallenInto g.last g.second).isOpen :=
    (Draft.isOpen_iff_open _).mpr hwaiting
  change ((d.fallenInto g.last g.second).opened.endedBy _).function.terminator? g.second = _
  rw [Draft.opened_of_isOpen hopen, Draft.terminator?_endedBy _ _ _ hvalid]
  exact if_pos rfl

end Build

namespace Statement

variable {size : Nat} {f₀ : Shape}

/-- A case of a switch with the number, and the arm of the switch that leads to it: the arm has the
value of the case and leads to a block of its own, at whose beginning the code behind the case
starts. Code in front of the case falls into the block if it can get there. -/
structure Arm (t : Statement size f₀) (p : Point) (final : Draft) (number : Nat)
    (c : Literal size × Statement size .labelled) (arm : Word × BlockId) : Prop where
  value : arm.1 = c.1.word
  name : final.function.blockNames[arm.2]? =
    some ("case." ++ toString number ++ "." ++ c.1.word.decimal)
  entered : ∃ q r, t.Reaches p (.case c.1 c.2) q ∧ Part (.case c.1 c.2) q c.2 r ∧
    r.draft.current = arm.2 ∧
    r.draft.function.blocks[arm.2]? =
      some (.empty ("case." ++ toString number ++ "." ++ c.1.word.decimal)) ∧
    (q.draft.isOpen → final.function.terminator? q.draft.current = some (.branch arm.2))

/-- A switch that is reached at `q`, where its value is `word` and its blocks are `group`, and how
its dispatch ends with its arms. -/
structure Dispatch (t : Statement size f₀) (p : Point) (final : Draft)
    (s : Term size (.level fullLevel) × Statement size .single) (q : Point) (word : Operand)
    (group : BlockGroup) (arms : List (Word × BlockId)) : Prop where
  reached : t.Reaches p (.switch s.1 s.2) q
  value : ∃ d₁ d₂, s.1.value q.draft = .ok word d₁ ∧ Build.select d₁ = .ok group d₂
  cmp : final.function.blockNames[group.second]? =
    some ("switch." ++ toString group.number ++ ".cmp")
  last : final.function.blockNames[group.last]? =
    some ("switch." ++ toString group.number ++ ".end")
  terminator : final.function.terminator? group.second =
    some (if s.2.ownCases.isEmpty then .branch group.last else .switch word group.last arms)
  distinct : (arms.map Prod.fst).Nodup
  own : List.Forall₂ (Arm t p final group.number) s.2.ownCases arms

/-- The switch has the number and dispatches to its own cases. -/
def Dispatched (t : Statement size f₀) (p : Point) (final : Draft)
    (s : Term size (.level fullLevel) × Statement size .single) (number : Nat) : Prop :=
  ∃ q word group arms, group.number = number ∧ Dispatch t p final s q word group arms

/-- What compiling a part adds: arms for its cases to the enclosing switch, and its own switches,
with growing numbers. -/
structure Compiled (t : Statement size f₀) (p : Point) (final : Draft)
    (cases : List (Literal size × Statement size .labelled))
    (switches : List (Term size (.level fullLevel) × Statement size .single))
    (e : Option Switch) (d : Draft) (e' : Option Switch) (d' : Draft) : Prop where
  arms : ∃ arms, e' = e.map (Switch.extend arms) ∧
    List.Forall₂ (fun c arm => ∃ n, e.map Switch.group = some n ∧ Arm t p final n c arm) cases arms
  numbers : ∃ numbers, Numbered d.nextGroup d'.nextGroup numbers ∧
    List.Forall₂ (Dispatched t p final) switches numbers

namespace Compiled

variable {t : Statement size f₀} {p : Point} {final : Draft}
  {cases cases' : List (Literal size × Statement size .labelled)}
  {switches switches' : List (Term size (.level fullLevel) × Statement size .single)}
  {e e₁ e' : Option Switch} {d d₁ d' : Draft}

theorem none (e : Option Switch) (d d' : Draft) : Compiled t p final [] [] e d e d' :=
  ⟨⟨[], (Switch.map_extend_nil e).symm, .nil⟩, [], .nil, .nil⟩

theorem append (h : Compiled t p final cases switches e d e₁ d₁)
    (h' : Compiled t p final cases' switches' e₁ d₁ e' d') (hd : d.Lasts d₁) (hd' : d₁.Lasts d') :
    Compiled t p final (cases ++ cases') (switches ++ switches') e d e' d' := by
  obtain ⟨⟨arms, rfl, harms⟩, numbers, hnumbers, hswitches⟩ := h
  obtain ⟨⟨arms', rfl, harms'⟩, numbers', hnumbers', hswitches'⟩ := h'
  rw [Switch.group_map_extend] at harms'
  exact ⟨⟨arms ++ arms', Switch.map_extend_extend e arms arms', List.rel_append harms harms'⟩,
    numbers ++ numbers', hnumbers.append hnumbers' hd.numbers hd'.numbers,
    List.rel_append hswitches hswitches'⟩

/-- Code without switches in front of the part and behind it. -/
theorem within {d₀ d₂ : Draft} (h : Compiled t p final cases switches e d e' d') (hd : d₀.Lasts d)
    (hd' : d'.Lasts d₂) : Compiled t p final cases switches e d₀ e' d₂ := by
  obtain ⟨harms, numbers, hnumbers, hswitches⟩ := h
  exact ⟨harms, numbers, hnumbers.widen hd.numbers hd'.numbers, hswitches⟩

/-- The case in front of the part. -/
theorem case {s : Switch} {c : Literal size × Statement size .labelled} {arm : Word × BlockId}
    (h : Compiled t p final cases switches (some (s.extend [arm])) d e' d')
    (harm : Arm t p final s.group c arm) :
    Compiled t p final (c :: cases) switches (some s) d e' d' := by
  obtain ⟨⟨arms, rfl, harms⟩, hnumbers⟩ := h
  refine ⟨⟨arm :: arms, ?_, .cons ⟨s.group, rfl, harm⟩ harms⟩, hnumbers⟩
  exact Switch.map_extend_extend (some s) [arm] arms

/-- The labels of a part are added in their order. -/
theorem values (h : Compiled t p final cases switches e d e' d') :
    e'.map (fun s => s.cases.map Prod.fst) =
      (e.map fun s => s.cases.map Prod.fst).map (· ++ cases.map fun c => c.1.word) := by
  obtain ⟨⟨arms, rfl, harms⟩, _⟩ := h
  have hvalues : arms.map Prod.fst = cases.map fun c => c.1.word := by
    induction harms with
    | nil => rfl
    | cons harm _ ih =>
        obtain ⟨_, _, harm⟩ := harm
        rw [List.map_cons, List.map_cons, harm.value, ih]
  cases e with
  | none => rfl
  | some s => simp [Switch.extend, hvalues]

end Compiled

/-- The part is compiled as its text says wherever it is reached. -/
def Compiles (t : Statement size f₀) (p : Point) (final : Draft) {f : Shape}
    (x : Statement size f) : Prop :=
  ∀ {q : Point} {e : Option Switch} {d : Draft}, t.Reaches p x q → q.draft.Reserves [] →
    x.emit q.enclosing q.draft = .ok e d → d.Lasts final →
    Compiled t p final x.ownCases x.switches q.enclosing q.draft e d

namespace Compiles

variable {t : Statement size f₀} {p : Point} {final : Draft}

theorem cons {s : Statement size .single} {b : Statement size .block} (hs : Compiles t p final s)
    (hb : Compiles t p final b) : Compiles t p final (cons s b) := by
  intro q e d hr hq hx hfinal
  obtain ⟨e₁, d₁, hemit, hx⟩ := bind_eq_ok_iff.mp hx
  have hrest : Part (.cons s b) q b _ := .rest hemit
  have hlasts : d₁.Lasts d := b.emit_lasts hx
  have h₁ := hs (hr.part .first) hq hemit (hlasts.trans hfinal)
  have h₂ := hb (hr.part hrest) (hrest.reserves hq) hx hfinal
  exact h₁.append h₂ (s.emit_lasts hemit) hlasts

theorem ifElse {c : Term size (.level fullLevel)} {s : Statement size .single}
    {o : Statement size .alternative} (hs : Compiles t p final s) (ho : Compiles t p final o) :
    Compiles t p final (ifElse c s o) := by
  intro q e d hr hq hx hfinal
  obtain ⟨word, d₁, hc, hx⟩ := bind_eq_ok_iff.mp hx
  obtain ⟨group, d₂, hf, hx⟩ := bind_eq_ok_iff.mp hx
  obtain ⟨e₁, d₃, hemit, hx⟩ := bind_eq_ok_iff.mp hx
  obtain ⟨_, d₄, hfall, hx⟩ := bind_eq_ok_iff.mp hx
  obtain ⟨e₂, d₅, hother, hx⟩ := bind_eq_ok_iff.mp hx
  obtain ⟨_, d₆, henter, hx⟩ := bind_eq_ok_iff.mp hx
  obtain ⟨rfl, rfl⟩ := pure_eq_ok_iff.mp hx
  obtain ⟨_, hcode, _⟩ := c.value_emission hc
  have hthen : Part (.ifElse c s o) q s _ := .thenArm hc hf
  have helse : Part (.ifElse c s o) q o _ := .elseArm hc hf hemit hfall
  have hl₂ := (Draft.Lasts.carried.emission hcode).trans (Draft.Lasts.carried.fork hf)
  have hl₄ := Draft.Lasts.carried.fallInto hfall
  have hl₅ := o.emit_lasts hother
  have hl₆ := Draft.Lasts.carried.fallInto henter
  have h₁ := hs (hr.part hthen) (hthen.reserves hq) hemit
    (hl₄.trans (hl₅.trans (hl₆.trans hfinal)))
  have h₂ := ho (hr.part helse) (helse.reserves hq) hother (hl₆.trans hfinal)
  have harms := (h₁.within hl₂ hl₄).append h₂ (hl₂.trans ((s.emit_lasts hemit).trans hl₄)) hl₅
  exact harms.within (.refl _) hl₆

theorem whileLoop {c : Term size (.level fullLevel)} {b : Statement size .single}
    (hb : Compiles t p final b) : Compiles t p final (whileLoop c b) := by
  intro q e d hr hq hx hfinal
  obtain ⟨group, d₁, hl, hx⟩ := bind_eq_ok_iff.mp hx
  obtain ⟨word, d₂, hc, hx⟩ := bind_eq_ok_iff.mp hx
  obtain ⟨_, d₃, ht, hx⟩ := bind_eq_ok_iff.mp hx
  obtain ⟨e₁, d₄, hemit, hx⟩ := bind_eq_ok_iff.mp hx
  obtain ⟨_, d₅, hfall, hx⟩ := bind_eq_ok_iff.mp hx
  obtain ⟨rfl, rfl⟩ := pure_eq_ok_iff.mp hx
  obtain ⟨_, hcode, _⟩ := c.value_emission hc
  have hbody : Part (.whileLoop c b) q b _ := .loopBody hl hc ht
  have hl₃ := (Draft.Lasts.carried.loop hl).trans
    ((Draft.Lasts.carried.emission hcode).trans (Draft.Lasts.carried.test ht))
  have hl₅ := Draft.Lasts.carried.fallInto hfall
  exact (hb (hr.part hbody) (hbody.reserves hq) hemit (hl₅.trans hfinal)).within hl₃ hl₅

theorem label {x : Name} {hplain : x.isPlain} {b : Statement size .labelled}
    (hb : Compiles t p final b) : Compiles t p final (label x hplain b) := by
  intro q e d hr hq hx hfinal
  obtain ⟨_, d₁, hl, hx⟩ := bind_eq_ok_iff.mp hx
  have hbody : Part (.label x hplain b) q b _ := .labelBody hl
  have hlasts : q.draft.Lasts d₁ := Draft.Lasts.carried.course (.label (e := none) hl)
  exact (hb (hr.part hbody) (hbody.reserves hq) hx hfinal).within hlasts (.refl _)

/-- The code of a case reaches the block of its arm. -/
theorem arm {q : Point} {value : Literal size} {b : Statement size .labelled} {s : Switch}
    {block : BlockId} {d : Draft} (hr : t.Reaches p (.case value b) q) (hq : q.draft.Reserves [])
    (he : q.enclosing = some s) (hnew : ∀ arm ∈ s.cases, arm.1 ≠ value.word)
    (hb : Build.caseBlock s.group value.word q.draft = .ok block d) (hfinal : d.Lasts final) :
    Arm t p final s.group (value, b) (value.word, block) := by
  obtain ⟨hcurrent, hempty, hfalls⟩ := Build.caseBlock_enters hq.valid hb
  refine ⟨rfl, hfinal.name ?_, q, _, hr, .caseBody he hnew hb, hcurrent, hempty, ?_⟩
  · rw [Function.blockNames, List.getElem?_map, hempty]
    rfl
  · exact fun hopen => hfinal.ends _ _ (hfalls hopen)

theorem case {value : Literal size} {b : Statement size .labelled} (hb : Compiles t p final b) :
    Compiles t p final (case value b) := by
  intro q e d hr hq hx hfinal
  cases he : q.enclosing with
  | none =>
      rw [he] at hx
      cases throw_ne_ok hx
  | some s =>
      rw [he] at hx
      unfold emit at hx
      split at hx
      · cases throw_ne_ok hx
      · next hany =>
          obtain ⟨block, d₁, hblock, hx⟩ := bind_eq_ok_iff.mp hx
          have hnew : ∀ arm ∈ s.cases, arm.1 ≠ value.word := fun arm hm hv =>
            hany (List.any_eq_true.mpr ⟨arm, hm, beq_iff_eq.mpr hv⟩)
          have hbody : Part (.case value b) q b _ := .caseBody he hnew hblock
          have h := hb (hr.part hbody) (hbody.reserves hq) hx hfinal
          have harm := arm hr hq he hnew hblock ((b.emit_lasts hx).trans hfinal)
          have hlasts : q.draft.Lasts d₁ := Draft.Lasts.carried.course (.case hnew hblock)
          exact (h.within hlasts (.refl _)).case harm

/-- The arms that the body of a switch adds are those that its dispatch ends with. -/
theorem switch {value : Term size (.level fullLevel)} {b : Statement size .single}
    (hb : Compiles t p final b) : Compiles t p final (switch value b) := by
  intro q e d hr hq hx hfinal
  obtain ⟨word, d₁, hv, hx⟩ := bind_eq_ok_iff.mp hx
  obtain ⟨g, d₂, hs, hx⟩ := bind_eq_ok_iff.mp hx
  obtain ⟨inner, d₃, hemit, hx⟩ := bind_eq_ok_iff.mp hx
  obtain ⟨_, d₄, hd, hx⟩ := bind_eq_ok_iff.mp hx
  obtain ⟨rfl, rfl⟩ := pure_eq_ok_iff.mp hx
  have hbody : Part (.switch value b) q b _ := .switchBody hv hs
  obtain ⟨_, hcode, _⟩ := value.value_emission hv
  have hcourse := b.emit_course hemit
  have hdistinct := hcourse.nodup_valuesOf List.nodup_nil
  have hsettle := Draft.Lasts.carried.settle hdistinct hd
  obtain ⟨h₂, hnumber, hnext, hcmp, hend⟩ := Build.select_reserves (.emission hcode hq) hs
  have hlasts := (Draft.Lasts.carried.course hcourse).trans hsettle
  have hterminator := hfinal.ends _ _ (Build.settle_dispatches (.course hcourse h₂) hd)
  obtain ⟨⟨arms, rfl, harms⟩, numbers, hnumbers, hswitches⟩ :=
    hb (hr.part hbody) (hbody.reserves hq) hemit (hsettle.trans hfinal)
  have hcases : ((Option.map (Switch.extend arms) (some ⟨g.number, []⟩)).map Switch.cases).getD [] =
      arms := List.nil_append arms
  rw [hcases] at hterminator
  have hown : List.Forall₂ (Arm t p final g.number) b.ownCases arms := by
    refine harms.imp fun c arm hc => ?_
    obtain ⟨n, hn, harm⟩ := hc
    cases hn
    exact harm
  have hempty : arms.isEmpty = b.ownCases.isEmpty := by
    rw [Bool.eq_iff_iff, List.isEmpty_iff_length_eq_zero, List.isEmpty_iff_length_eq_zero,
      hown.length_eq]
  rw [Terminator.dispatch, hempty] at hterminator
  refine ⟨⟨[], (Switch.map_extend_nil _).symm, .nil⟩, g.number :: numbers, ?_, .cons ?_ hswitches⟩
  · have hlo : q.draft.nextGroup ≤ g.number :=
      hnumber ▸ (Draft.Lasts.carried.emission hcode).numbers
    have hhi : g.number < d.nextGroup :=
      Nat.lt_of_lt_of_le (hnext ▸ Nat.lt_succ_self _) hlasts.numbers
    exact .cons hlo (hnumbers.widen (Nat.le_of_eq hnext.symm) hsettle.numbers) hhi
  · have hnames := hlasts.trans hfinal
    exact ⟨q, word, g, arms, rfl, hr, ⟨d₁, d₂, hv, hs⟩, hnames.name hcmp, hnames.name hend,
      hterminator, hcases ▸ hdistinct, hown⟩

end Compiles

/-- Every part is compiled as its text says. -/
theorem compiles (t : Statement size f₀) (p : Point) (final : Draft) {f : Shape}
    (x : Statement size f) : Compiles t p final x := by
  induction x with
  | null | done | nothing | noElse =>
      intro q e d _ _ hx _
      obtain ⟨rfl, rfl⟩ := pure_eq_ok_iff.mp hx
      exact .none _ _ _
  | expression | goto | auto | extrn =>
      intro q e d _ _ hx _
      obtain ⟨_, _, _, hx⟩ := bind_eq_ok_iff.mp hx
      obtain ⟨rfl, rfl⟩ := pure_eq_ok_iff.mp hx
      exact .none _ _ _
  | ret value =>
      intro q e d _ _ hx _
      have hsame : e = q.enclosing := by
        cases value with
        | none =>
            obtain ⟨_, _, _, hx⟩ := bind_eq_ok_iff.mp hx
            exact (pure_eq_ok_iff.mp hx).1
        | some t =>
            obtain ⟨_, _, _, hx⟩ := bind_eq_ok_iff.mp hx
            obtain ⟨_, _, _, hx⟩ := bind_eq_ok_iff.mp hx
            exact (pure_eq_ok_iff.mp hx).1
      rw [hsame]
      exact .none _ _ _
  | compound b ih => exact fun hr hq hx hfinal => ih (hr.part .compound) hq hx hfinal
  | stated b ih => exact fun hr hq hx hfinal => ih (hr.part .stated) hq hx hfinal
  | otherwise b ih => exact fun hr hq hx hfinal => ih (hr.part .otherwise) hq hx hfinal
  | cons _ _ ihs ihb => exact Compiles.cons ihs ihb
  | ifElse _ _ _ ihs iho => exact Compiles.ifElse ihs iho
  | whileLoop _ _ ih => exact Compiles.whileLoop ih
  | label _ _ _ ih => exact Compiles.label ih
  | case _ _ ih => exact Compiles.case ih
  | switch _ _ ih => exact Compiles.switch ih

/-- The values of the cases that a switch has so far. -/
def values? (e : Option Switch) : Option (List Word) := e.map fun s => s.cases.map Prod.fst

/-- The cases of a part are added to the switch around it in the order of the text. -/
theorem values?_emit {f : Shape} (x : Statement size f) {e e' : Option Switch} {d d' : Draft}
    (hd : d.Reserves []) (h : x.emit e d = .ok e' d') :
    values? e' = (values? e).map (· ++ x.labels) :=
  (compiles x ⟨none, e, d⟩ d' x .here hd h (.refl _)).values

/-- The enclosing switch has the cases that stand before. -/
def Point.Agrees (p : Point) : Prop := values? p.enclosing = p.seen

theorem Point.Agrees.after {p : Point} (h : p.Agrees) {labels : List Word} {e : Option Switch}
    (he : values? e = (values? p.enclosing).map (· ++ labels)) (d : Draft) :
    (p.after labels e d).Agrees := he.trans (congrArg _ h)

theorem Part.agrees {f g : Shape} {x : Statement size f} {y : Statement size g} {p q : Point}
    (h : Part x p y q) (hd : p.draft.Reserves []) (hp : p.Agrees) : q.Agrees := by
  cases h with
  | compound | stated | otherwise | first | thenArm | loopBody | labelBody => exact hp
  | rest hs => exact hp.after (values?_emit _ hd hs) _
  | @elseArm c s o p _ _ _ _ _ _ _ _ hc hf hs _ =>
      have hthen : Part (.ifElse c s o) p s _ := .thenArm hc hf
      exact hp.after (values?_emit _ (hthen.reserves hd) hs) _
  | switchBody => rfl
  | caseBody he _ _ => exact hp.after (by simp [values?, he]) _

theorem Reaches.agrees {f g : Shape} {t : Statement size f} {y : Statement size g} {p q : Point}
    (h : t.Reaches p y q) (hd : p.draft.Reserves []) (hp : p.Agrees) : q.Agrees := by
  induction h with
  | here => exact hp
  | part hr hpart ih => exact hpart.agrees (hr.reserves hd) ih

/-- A case that no switch is around. -/
theorem emit_case_outside {q : Point} (hq : q.Agrees) (h : q.seen = none) (value : Literal size)
    (b : Statement size .labelled) :
    (case value b).emit q.enclosing q.draft = .error .caseOutsideSwitch q.draft := by
  rw [Option.map_eq_none_iff.mp (hq.trans h)]
  rfl

/-- A case with the value of one before. -/
theorem emit_case_repeated {q : Point} (hq : q.Agrees) {front : List Word} (h : q.seen = some front)
    {value : Literal size} (hm : value.word ∈ front) (b : Statement size .labelled) :
    (case value b).emit q.enclosing q.draft = .error (.duplicateCase value.word) q.draft := by
  obtain ⟨s, hs, rfl⟩ := Option.map_eq_some_iff.mp (hq.trans h)
  obtain ⟨arm, harm, hv⟩ := List.mem_map.mp hm
  have hany : (s.cases.any fun arm => arm.1 == value.word) = true :=
    List.any_eq_true.mpr ⟨arm, harm, beq_iff_eq.mpr hv⟩
  rw [hs]
  unfold emit
  rw [if_pos hany]
  rfl

/-- In front of a statement that no switch is around. -/
def Point.outside (d : Draft) : Point := ⟨none, none, d⟩

/-- The text of a statement is compiled as the statement. -/
theorem faces_text (t : Statement size .single) :
    (Cursor.ofText t.text size).Faces size (fenced t.endsBare t.tokens) := by
  obtain ⟨token, tail, _, h, _⟩ := (t.starts_fenced t.endsBare []).begins
  rw [List.append_nil] at h
  unfold text
  rw [h]
  exact ⟨.inr (spaced_intercalate ..), rfl⟩

theorem statement_of_error (t : Statement size .single) {d d' : Draft} {e : Error}
    (h : t.emit none d = .error e d') :
    ∃ s, Pass.statement ⟨.ofText t.text size, d⟩ = .error e s := by
  obtain ⟨c, hc⟩ := t.alone_mirrors.error t.faces_text (bind_of_error h)
  exact ⟨_, hc⟩

/-- An accepted text leaves the draft that the statement leaves. -/
theorem emit_of_statement (t : Statement size .single) {d : Draft} {s : Site Draft}
    (h : Pass.statement ⟨.ofText t.text size, d⟩ = .ok () s) :
    ∃ e, t.emit none d = .ok e s.target := by
  cases hemit : t.emit none d with
  | error e d' =>
      obtain ⟨s', hs'⟩ := t.statement_of_error hemit
      cases h.symm.trans hs'
  | ok e d' =>
      obtain ⟨c, hc, _⟩ := t.alone_mirrors.ok t.faces_text
        (bind_eq_ok_iff.mpr ⟨e, d', hemit, rfl⟩)
      cases h.symm.trans hc
      exact ⟨e, rfl⟩

/-- If the text of a statement is accepted, each switch in it has a number of its own and dispatches
to exactly the cases that it is the innermost switch around, and no other cases are left. A case
that the compiler gets to is refused if no switch is around it, or if a case of the same switch
before it has the same value. -/
theorem statement_dispatches (t : Statement size .single) {d : Draft} (hd : d.Reserves []) :
    (∀ s, Pass.statement ⟨.ofText t.text size, d⟩ = .ok () s →
      t.ownCases = [] ∧ ∃ numbers : List Nat, numbers.Pairwise (· < ·) ∧
        List.Forall₂ (Dispatched t (.outside d) s.target) t.switches numbers) ∧
    ∀ (value : Literal size) (b : Statement size .labelled) (q : Point),
      t.Reaches (.outside d) (.case value b) q →
      (q.seen = none →
        ∃ s, Pass.statement ⟨.ofText t.text size, d⟩ = .error .caseOutsideSwitch s) ∧
      ∀ front, q.seen = some front → value.word ∈ front →
        ∃ s, Pass.statement ⟨.ofText t.text size, d⟩ = .error (.duplicateCase value.word) s := by
  refine ⟨fun s h => ?_, fun value b q hr => ?_⟩
  · obtain ⟨e, hemit⟩ := t.emit_of_statement h
    obtain ⟨⟨arms, _, harms⟩, numbers, hnumbers, hswitches⟩ :=
      compiles t (.outside d) s.target t .here hd hemit (.refl _)
    refine ⟨?_, numbers, hnumbers.increasing, hswitches⟩
    cases hcases : t.ownCases with
    | nil => rfl
    | cons c cases =>
        rw [hcases] at harms
        obtain ⟨_, _, ⟨n, hn, _⟩, _⟩ := List.forall₂_cons_left_iff.mp harms
        cases hn
  · have hq : q.Agrees := hr.agrees hd rfl
    exact ⟨fun h => t.statement_of_error (hr.error (emit_case_outside hq h value b)),
      fun front h hm => t.statement_of_error (hr.error (emit_case_repeated hq h hm b))⟩

/-- A loop around a case, behind which a switch has a case with the same value, and another case. -/
def nested : Statement 8 .single :=
  let k : Term 8 (.level fullLevel) := .name (by decide) ⟨"k", by decide⟩
  let one : Literal 8 := .number ⟨"1", by decide⟩
  let two : Literal 8 := .number ⟨"2", by decide⟩
  .switch k (.compound (.cons
    (.whileLoop k (.case one (.stated (.switch k (.case one .nothing)))))
    (.cons (.case two .nothing) .done)))

example : nested.text =
    "switch k \x7b \x7b while ( k ) case 1 : switch k case 1 : \x7d case 2 : \x7d" := by
  decide +kernel

/-- Two cases with one value, in two spellings. -/
def repeated : Statement 8 .single :=
  .switch (.literal (.number ⟨"0", by decide⟩)) (.case (.number ⟨"1", by decide⟩)
    (.stated (.case (.number ⟨"01", by decide⟩) .nothing)))

theorem reaches_repeated {d : Draft} (hd : d.Reserves []) :
    ∃ q, repeated.Reaches (.outside d) (.case (.number ⟨"01", by decide⟩) .nothing) q ∧
      q.seen = some [1] := by
  have hbody : Part repeated (.outside d) _ _ := .switchBody rfl
    (Build.select_eq_ok_iff.mpr ⟨(hd.addGroup ..).valid, rfl, rfl⟩)
  have hr := (Reaches.here.part hbody).part (.caseBody (s := ⟨d.group.number, []⟩) rfl
    (List.forall_mem_nil _)
    (Build.caseBlock_eq_ok_iff.mpr ⟨((hbody.reserves hd).addBlock _).valid, rfl, rfl⟩))
  exact ⟨_, hr.part .stated, rfl⟩

theorem statement_dispatches_nested :
    (∃ d s, Draft.start "f" ["k"] (.empty "b" 8) = .ok d ∧ d.Reserves [] ∧
      Pass.statement ⟨.ofText nested.text 8, d⟩ = .ok () s ∧ nested.ownCases = [] ∧
      ∃ numbers : List Nat, numbers.Pairwise (· < ·) ∧
        List.Forall₂ (Dispatched nested (.outside d) s.target) nested.switches numbers) ∧
    ∃ d s, Draft.start "f" ["k"] (.empty "b" 8) = .ok d ∧ d.Reserves [] ∧
      Pass.statement ⟨.ofText repeated.text 8, d⟩ = .error (.duplicateCase 1) s := by
  have haccepted : (match Draft.start "f" ["k"] (.empty "b" 8) with
    | .ok d => match Pass.statement ⟨.ofText nested.text 8, d⟩ with
      | .ok () _ => true
      | _ => false
    | _ => false) = true := by decide +kernel
  split at haccepted
  · next d hstart =>
      have hd : d.Reserves [] := .start hstart
      obtain ⟨q, hr, hseen⟩ := reaches_repeated hd
      obtain ⟨s', hs'⟩ := ((statement_dispatches repeated hd).2 _ _ _ hr).2 [1] hseen (by decide)
      split at haccepted
      · next s hs =>
          exact ⟨⟨d, s, hstart, hd, hs, (statement_dispatches nested hd).1 s hs⟩,
            d, s', hstart, hd, hs'⟩
      · cases haccepted
  · cases haccepted

end Statement
end BCompiler
