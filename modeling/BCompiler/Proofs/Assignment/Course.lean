import BCompiler.Proofs.Assignment.Emission
import BCompiler.Proofs.Definition

/-!
Single assignment in compiled functions.

Statements hand no values to each other: whatever block they go on in relies on the stack slots
only. The one exception is the block that dispatches to the cases of a switch, which reads the word
computed before the body of the switch.
-/
namespace BCompiler
namespace Draft

variable {rely rely' : Reliance} {d d' : Draft}

theorem Reliable.of_rely {m : ValueId} (ho : d.isOpen) (h : rely d.current m) :
    d.Reliable rely m := .inr ⟨ho, .inr (.inl h)⟩

namespace Sound

/-- Go on in an open block that may rely on the given values. If it is a new one, nothing leads to
it. -/
theorem openedRelying (h : d.Sound rely) (P : ValueId → Prop)
    (hP : d.isOpen → ∀ m, P m → d.Reliable rely m) :
    ∃ rely', d.Grows rely rely' d.opened ∧ d.opened.Sound rely' ∧
      ∀ m, P m → d.opened.Reliable rely' m := by
  by_cases ho : d.isOpen
  · rw [opened_of_isOpen ho]
    exact ⟨rely, .refl _ _ _, h, hP ho⟩
  · obtain ⟨hg, hnew, _⟩ := h.opened
    have hopen := isOpen_opened d
    have hcurrent : d.opened.current = d.function.blocks.length := by
      unfold Draft.opened
      rw [if_neg ho]
      rfl
    have hcode := hnew.code.extend [d.function.blocks.length] P (by
        intro k hk
        rw [List.mem_singleton.mp hk, ← hcurrent]
        exact hnew.valid) (by
        intro h0
        exact Nat.ne_of_lt (Nat.lt_of_le_of_lt (Nat.zero_le _) h.valid) (List.mem_singleton.mp h0))
      (by
        intro i k hk hs
        rw [Function.successors_congr (terminator?_opened d i)] at hs
        exact Nat.lt_irrefl _ (List.mem_singleton.mp hk ▸ h.code.bounded i k hs))
    have hg' : d.Grows rely (fun i m => rely i m ∨ i ∈ [d.function.blocks.length] ∧ P m)
        d.opened := by
      refine { hg with rely := fun i hi m => ⟨fun hm => ?_, .inl⟩ }
      exact hm.resolve_right fun hb => Nat.ne_of_lt hi (List.mem_singleton.mp hb.1)
    refine ⟨_, hg', ⟨hcode, hnew.valid, hnew.locals, ?_⟩, fun m hm => .of_rely hopen ?_⟩
    · intro label hl
      have hlabels : d.opened.labels = d.labels := by
        unfold Draft.opened
        rw [if_neg ho]
        rfl
      have hplain := h.labels label (hlabels ▸ hl)
      exact hplain.mono hg' hplain.lt
    · exact .inr ⟨List.mem_singleton.mpr hcurrent, hm⟩

/-- End the current block, if it is open, by a branch. -/
theorem endedIfOpen {target : BlockId} (h : d.Sound rely)
    (hlt : target < d.function.blocks.length) (hfree : d.function.PhiFree target)
    (hrely : d.isOpen → ∀ m, rely target m → d.Reliable rely m) :
    d.Grows rely rely (d.endedIfOpen (.branch target)) ∧
      (d.endedIfOpen (.branch target)).Sound rely := by
  unfold Draft.endedIfOpen
  split
  · next ho =>
      refine h.endedBy ho nofun fun k hk => ?_
      cases List.mem_singleton.mp hk
      exact ⟨hlt, hfree, hrely ho⟩
  · exact ⟨.refl _ _ _, h⟩

theorem fallenInto {target next : BlockId} (h : d.Sound rely)
    (ht : d.function.Plain rely target) (hnext : next < d.function.blocks.length) :
    d.Grows rely rely (d.fallenInto target next) ∧ (d.fallenInto target next).Sound rely := by
  obtain ⟨hg, hended⟩ := h.endedIfOpen ht.lt ht.phiFree fun _ m hm => absurd hm (ht.rely m)
  exact ⟨hg, hended.goTo (Nat.lt_of_lt_of_le hnext hg.length)⟩

theorem slot {name : String} {words : Option UInt64} {v : Operand} (h : d.Sound rely)
    (hs : Build.slot name words d = .ok v d') : d.Grows rely rely d' ∧ d'.Sound rely := by
  obtain ⟨_, _, rfl, rfl⟩ := Build.slot_eq_ok_iff.mp hs
  have hg : d.Grows rely rely (d.withSlot name words) := h.code.grows_withSlot words _
  refine ⟨hg, h.code.withSlot words, Nat.lt_of_lt_of_le h.valid hg.length, ?_, ?_⟩
  · intro x hx
    rcases List.mem_cons.mp hx with rfl | hx
    · refine ⟨d.function.nextValue, ?_, rfl⟩
      change _ ∈ (d.function.withSlot words).slotIds
      rw [h.code.slotIds_withSlot]
      exact List.mem_append_right _ (.head _)
    · obtain ⟨m, hm, he⟩ := h.locals x hx
      exact ⟨m, hg.slots hm, he⟩
  · intro label hl
    have hplain := h.labels label hl
    exact hplain.mono hg hplain.lt

theorem mentioning (h : d.Sound rely) (name : String) :
    d.Grows rely rely (d.mentioning name) ∧ (d.mentioning name).Sound rely := by
  unfold Draft.mentioning
  split
  · exact ⟨.refl _ _ _, h⟩
  · obtain ⟨hg, hadd⟩ := h.addBlock ("label." ++ name)
    refine ⟨hg, hadd.code, hadd.valid, hadd.locals, fun label hl => ?_⟩
    rcases List.mem_append.mp hl with hl | hl
    · exact hadd.labels label hl
    · cases List.mem_singleton.mp hl
      exact h.code.plain_addBlock _

/-- The block of a label may be entered from anywhere. -/
theorem plain_labelTarget {name : String} (h : (d.mentioning name).Sound rely) :
    (d.mentioning name).function.Plain rely (d.labelTarget name) := by
  obtain ⟨label, hm, _, hblock⟩ := labelTarget_mentioning d name
  exact hblock ▸ h.labels label hm

theorem labelDefined (h : d.Sound rely) (name : String) : (d.labelDefined name).Sound rely := by
  refine ⟨h.code, h.valid, h.locals, fun label hl => ?_⟩
  obtain ⟨label', hl', rfl⟩ := List.mem_map.mp hl
  have hblock : (label'.define name).block = label'.block := by
    unfold Label.define
    split <;> rfl
  exact hblock ▸ h.labels label' hl'

theorem goto {name : String} {u : Unit} (h : d.Sound rely) (hs : Build.goto name d = .ok u d') :
    d.Grows rely rely d' ∧ d'.Sound rely := by
  obtain ⟨_, rfl⟩ := Build.goto_eq_ok_iff.mp hs
  obtain ⟨hg₁, h₁⟩ := h.mentioning name
  have ht := plain_labelTarget h₁
  obtain ⟨hg₂, h₂⟩ := h₁.endedIfOpen ht.lt ht.phiFree fun _ m hm => absurd hm (ht.rely m)
  obtain ⟨hg₃, h₃⟩ := h₂.nextNumber.addBlock _
  exact ⟨hg₁.trans' (hg₂.trans' hg₃), h₃.goTo (by simp [Draft.addBlock, Draft.nextNumber])⟩

theorem placeLabel {name : String} {u : Unit} (h : d.Sound rely)
    (hs : Build.placeLabel name d = .ok u d') : d.Grows rely rely d' ∧ d'.Sound rely := by
  obtain ⟨_, _, rfl⟩ := Build.placeLabel_eq_ok_iff.mp hs
  obtain ⟨hg₁, h₁⟩ := h.mentioning name
  have ht := plain_labelTarget h₁
  obtain ⟨hg₂, h₂⟩ := (h₁.labelDefined name).fallenInto ht ht.lt
  exact ⟨hg₁.trans' hg₂, h₂⟩

theorem caseBlock {number : Nat} {value : Word} {block : BlockId} (h : d.Sound rely)
    (hs : Build.caseBlock number value d = .ok block d') :
    d.Grows rely rely d' ∧ d'.Sound rely ∧ d'.function.Plain rely block := by
  obtain ⟨_, rfl, rfl⟩ := Build.caseBlock_eq_ok_iff.mp hs
  obtain ⟨hg₁, h₁⟩ := h.addBlock _
  have ht := h.code.plain_addBlock ("case." ++ toString number ++ "." ++ value.decimal)
  obtain ⟨hg₂, h₂⟩ := h₁.fallenInto ht ht.lt
  exact ⟨hg₁.trans' hg₂, h₂, ht.mono hg₂ ht.lt⟩

/-- The new blocks of a construct that hands no values to them. -/
theorem plain_group {k : BlockId} {P : ValueId → Prop} (h : d.Sound rely) (hP : ∀ m, ¬P m)
    {blocks : List BlockId} {f : Function} {name : String} (hk : d.function.blocks.length ≤ k)
    (hb : f.blocks[k]? = some (.empty name)) :
    f.Plain (fun i m => rely i m ∨ i ∈ blocks ∧ P m) k := by
  refine ⟨(List.getElem?_eq_some_iff.mp hb).1, ?_, Function.phiFree_of_empty hb⟩
  rintro m (hm | ⟨_, hm⟩)
  · exact Nat.not_lt.mpr hk (h.code.fresh k m hm)
  · exact hP m hm

theorem forkPlain {construct : String} {word : Operand} {g : BlockGroup} (h : d.Sound rely)
    (hword : ∀ m ∈ word.uses, d.Reliable rely m) (hs : Build.fork construct word d = .ok g d') :
    ∃ rely', d.Grows rely rely' d' ∧ d'.Sound rely' ∧ d'.function.Plain rely' g.second ∧
      d'.function.Plain rely' g.last := by
  obtain ⟨hg, h', _, hempty⟩ := h.fork (fun _ => False) nofun hword hs
  obtain ⟨_, rfl, _⟩ := Build.fork_eq_ok_iff.mp hs
  obtain ⟨_, hsecond⟩ := hempty d.group.second (.tail _ (.head _))
  obtain ⟨_, hlast⟩ := hempty d.group.last (.tail _ (.tail _ (.head _)))
  exact ⟨_, hg, h', h.plain_group (fun _ hm => hm) (Nat.le_succ _) hsecond,
    h.plain_group (fun _ hm => hm) (Nat.le_succ_of_le (Nat.le_succ _)) hlast⟩

theorem loop {g : BlockGroup} (h : d.Sound rely) (hs : Build.loop d = .ok g d') :
    ∃ rely', d.Grows rely rely' d' ∧ d'.Sound rely' ∧
      ∀ k ∈ [g.first, g.second, g.last], d'.function.Plain rely' k := by
  obtain ⟨_, rfl, rfl⟩ := Build.loop_eq_ok_iff.mp hs
  obtain ⟨hg₁, h₁, _⟩ := h.addGroup "while" "cond" "body" "end" [] (fun _ => False) nofun
  have hplain : ∀ k ∈ [d.group.first, d.group.second, d.group.last],
      (d.addGroup "while" "cond" "body" "end").function.Plain
        (fun i m => rely i m ∨ i ∈ [] ∧ False) k := by
    intro k hk
    have hrange : d.function.blocks.length ≤ k ∧ k ≤ d.function.blocks.length + 2 := by
      simp only [List.mem_cons, List.not_mem_nil, or_false] at hk
      rcases hk with rfl | rfl | rfl <;> simp [group]
    obtain ⟨_, hb⟩ := getElem?_addGroup (d := d) "while" "cond" "body" "end" hrange.1 hrange.2
    exact h.plain_group (fun _ hm => hm) hrange.1 hb
  have hfirst := hplain d.group.first (.head _)
  obtain ⟨hg₂, h₂⟩ := h₁.fallenInto hfirst hfirst.lt
  exact ⟨_, hg₁.trans' hg₂, h₂, fun k hk => (hplain k hk).mono hg₂ (hplain k hk).lt⟩

theorem test {word : Operand} {g : BlockGroup} {u : Unit} (h : d.Sound rely)
    (hword : ∀ m ∈ word.uses, d.Reliable rely m) (hsecond : d.function.Plain rely g.second)
    (hlast : d.function.Plain rely g.last) (hs : Build.test word g d = .ok u d') :
    d.Grows rely rely d' ∧ d'.Sound rely := by
  obtain ⟨_, rfl⟩ := Build.test_eq_ok_iff.mp hs
  obtain ⟨hg, h'⟩ := h.branched (t := g.second) (e := g.last) hword (by
    intro k hk
    have hplain : d.function.Plain rely k := by
      rcases List.mem_cons.mp hk with rfl | hk
      · exact hsecond
      · exact List.mem_singleton.mp hk ▸ hlast
    exact ⟨hplain.lt, hplain.phiFree, fun m hm => absurd hm (hplain.rely m)⟩)
  exact ⟨hg, h'.goTo (Nat.lt_of_lt_of_le hsecond.lt hg.length)⟩

/-- The block that dispatches to the cases of a switch relies on the word it reads. -/
theorem select {word : Operand} {g : BlockGroup} (h : d.Sound rely)
    (hword : ∀ m ∈ word.uses, d.Reliable rely m) (hs : Build.select d = .ok g d') :
    ∃ rely', d.Grows rely rely' d' ∧ d'.Sound rely' ∧ g.second < d'.function.blocks.length ∧
      (∀ m ∈ word.uses, rely' g.second m) ∧ d'.function.Plain rely' g.last := by
  obtain ⟨_, rfl, rfl⟩ := Build.select_eq_ok_iff.mp hs
  have hlast_le : d.function.blocks.length ≤ d.group.last := Nat.le_add_right _ 2
  obtain ⟨_, hfirst⟩ := getElem?_addGroup (d := d) (k := d.group.first) "switch" "stmts" "cmp"
    "end" (Nat.le_refl _) (Nat.le_add_right _ 2)
  obtain ⟨_, hsecond⟩ := getElem?_addGroup (d := d) (k := d.group.second) "switch" "stmts" "cmp"
    "end" (Nat.le_succ _) (Nat.le_succ _)
  obtain ⟨_, hlast⟩ := getElem?_addGroup (d := d) (k := d.group.last) "switch" "stmts" "cmp"
    "end" hlast_le (Nat.le_refl _)
  obtain ⟨hg₁, h₁, hreliable⟩ := h.addGroup "switch" "stmts" "cmp" "end" [d.group.second]
    (· ∈ word.uses) (by
      intro k hk
      cases List.mem_singleton.mp hk
      exact ⟨Nat.le_succ _, Nat.le_succ _⟩)
  have hlt := (List.getElem?_eq_some_iff.mp hsecond).1
  obtain ⟨hg₂, h₂⟩ := h₁.endedIfOpen hlt
    (Function.phiFree_of_empty hsecond) (by
      rintro _ m (hm | ⟨_, hm⟩)
      · exact absurd (h.code.fresh _ m hm) (Nat.not_lt.mpr (Nat.le_succ _))
      · exact hreliable m (hword m hm))
  have hplain : (d.addGroup "switch" "stmts" "cmp" "end").function.Plain
      (fun i m => rely i m ∨ i ∈ [d.group.second] ∧ m ∈ word.uses) d.group.last := by
    refine ⟨(List.getElem?_eq_some_iff.mp hlast).1, ?_, Function.phiFree_of_empty hlast⟩
    rintro m (hm | ⟨hk, _⟩)
    · exact Nat.not_lt.mpr hlast_le (h.code.fresh _ m hm)
    · exact absurd (List.mem_singleton.mp hk) (Nat.succ_ne_self _)
  refine ⟨_, hg₁.trans' hg₂, h₂.goTo ?_, Nat.lt_of_lt_of_le hlt hg₂.length,
    fun m hm => .inr ⟨.head _, hm⟩, hplain.mono hg₂ hplain.lt⟩
  exact Nat.lt_of_lt_of_le (List.getElem?_eq_some_iff.mp hfirst).1 hg₂.length

theorem settle {value : Operand} {cases : List (Word × BlockId)} {g : BlockGroup} {u : Unit}
    (h : d.Sound rely) (hlt : g.second < d.function.blocks.length)
    (hvalue : ∀ m ∈ value.uses, rely g.second m) (hlast : d.function.Plain rely g.last)
    (hcases : ∀ arm ∈ cases, d.function.Plain rely arm.2)
    (hs : Build.settle value cases g d = .ok u d') :
    ∃ rely', d.Grows rely rely' d' ∧ d'.Sound rely' := by
  obtain ⟨_, _, rfl⟩ := Build.settle_eq_ok_iff.mp hs
  obtain ⟨hg₁, h₁⟩ := h.fallenInto hlast hlt
  obtain ⟨rely', hg₂, h₂, hreliable⟩ := h₁.openedRelying (· ∈ value.uses)
    fun ho m hm => .of_rely ho (hvalue m hm)
  have hg := hg₁.trans' hg₂
  obtain ⟨hg₃, h₃⟩ := h₂.endedBy (t := .dispatch value cases g.last) (isOpen_opened _) (by
      intro m hm
      unfold Terminator.dispatch at hm
      split at hm
      · cases hm
      · exact hreliable m hm) (by
      intro k hk
      have hplain : d.function.Plain rely k := by
        unfold Terminator.dispatch at hk
        split at hk
        · exact List.mem_singleton.mp hk ▸ hlast
        · rcases List.mem_cons.mp hk with rfl | hk
          · exact hlast
          · obtain ⟨arm, harm, rfl⟩ := List.mem_map.mp hk
            exact hcases arm harm
      have hplain := hplain.mono hg hplain.lt
      exact ⟨hplain.lt, hplain.phiFree, fun m hm => absurd hm (hplain.rely m)⟩)
  have hg := hg.trans' hg₃
  exact ⟨rely', hg, h₃.goTo (Nat.lt_of_lt_of_le hlast.lt hg.length)⟩

theorem ret {v : Operand} {u : Unit} {known : List Typed} (h : d.Sound rely)
    (hk : d.Knows rely known) (hv : (.word, v) ∈ known) (hs : Build.ret v d = .ok u d') :
    d.Grows rely rely d' ∧ d'.Sound rely := by
  obtain ⟨_, rfl⟩ := Build.terminate_eq_ok_iff.mp hs
  obtain ⟨hg₁, h₁, hreliable⟩ := h.opened
  obtain ⟨hg₂, h₂⟩ := h₁.endedBy (t := .ret v) (isOpen_opened d)
    (fun m hm => hreliable m (hk _ hv m hm)) nofun
  exact ⟨hg₁.trans' hg₂, h₂⟩

theorem finish {id : FunctionId} (h : d.Sound rely) (hs : Build.finish d = .ok id d') :
    d'.Sound rely := by
  obtain ⟨_, _, _, rfl⟩ := Build.finish_eq_ok_iff.mp hs
  unfold Draft.endedIfOpen
  split
  · next ho => exact (h.endedBy (t := .ret (.const 0)) ho nofun nofun).2
  · exact h

end Sound

/-- The cases of a switch may be entered from anywhere. -/
def PlainCases (rely : Reliance) (d : Draft) (e : Option Switch) : Prop :=
  ∀ arm ∈ (e.map Switch.cases).getD [], d.function.Plain rely arm.2

theorem PlainCases.mono {e : Option Switch} (h : d.PlainCases rely e)
    (hg : d.Grows rely rely' d') : d'.PlainCases rely' e :=
  fun arm harm => (h arm harm).mono hg (h arm harm).lt

/-- Statements keep certificates. -/
theorem Sound.course {e e' : Option Switch} (hc : Course d e d' e') :
    ∀ {rely}, d.Sound rely → d.PlainCases rely e →
      ∃ rely', d.Grows rely rely' d' ∧ d'.Sound rely' ∧ d'.PlainCases rely' e' := by
  -- The induction carries the cases of the innermost switch along, for its dispatch is the last
  -- step of all.
  induction hc with
  | refl => exact fun h he => ⟨_, .refl _ _ _, h, he⟩
  | trans _ _ ih₁ ih₂ =>
      intro rely h he
      obtain ⟨_, hg₁, h₁, he₁⟩ := ih₁ h he
      obtain ⟨_, hg₂, h₂, he₂⟩ := ih₂ h₁ he₁
      exact ⟨_, hg₁.trans' hg₂, h₂, he₂⟩
  | code hc =>
      intro rely h he
      obtain ⟨_, hg, h', _⟩ := Certifies.emission hc rely h nofun
      exact ⟨_, hg, h', he.mono hg⟩
  | slot hs =>
      intro rely h he
      obtain ⟨hg, h'⟩ := h.slot hs
      exact ⟨_, hg, h', he.mono hg⟩
  | external hs =>
      intro rely h he
      obtain ⟨p, _, rfl⟩ := Build.onProgram_eq_ok_iff.mp hs
      exact ⟨_, .refl _ _ _, h.withProgram p, he⟩
  | ret hc hv hs =>
      intro rely h he
      obtain ⟨_, hg₁, h₁, hk⟩ := Certifies.emission hc rely h nofun
      obtain ⟨hg₂, h₂⟩ := h₁.ret hk hv hs
      have hg := hg₁.trans' hg₂
      exact ⟨_, hg, h₂, he.mono hg⟩
  | goto hs =>
      intro rely h he
      obtain ⟨hg, h'⟩ := h.goto hs
      exact ⟨_, hg, h', he.mono hg⟩
  | label hs =>
      intro rely h he
      obtain ⟨hg, h'⟩ := h.placeLabel hs
      exact ⟨_, hg, h', he.mono hg⟩
  | case _ hs =>
      intro rely h he
      obtain ⟨hg, h', hblock⟩ := h.caseBlock hs
      refine ⟨_, hg, h', fun arm harm => ?_⟩
      rcases List.mem_append.mp harm with harm | harm
      · exact (he arm harm).mono hg (he arm harm).lt
      · exact List.mem_singleton.mp harm ▸ hblock
  | ifElse hc hv hf _ hfall _ henter ih₁ ih₂ =>
      intro rely h he
      obtain ⟨_, hg₁, h₁, hk⟩ := Certifies.emission hc rely h nofun
      obtain ⟨_, hg₂, h₂, hsecond, hlast⟩ := h₁.forkPlain (hk _ hv) hf
      obtain ⟨_, hg₃, h₃, he₃⟩ := ih₁ h₂ (he.mono (hg₁.trans' hg₂))
      obtain ⟨_, rfl⟩ := Build.fallInto_eq_ok_iff.mp hfall
      have hlast₃ := hlast.mono hg₃ hlast.lt
      obtain ⟨hg₄, h₄⟩ := h₃.fallenInto hlast₃ (Nat.lt_of_lt_of_le hsecond.lt hg₃.length)
      obtain ⟨_, hg₅, h₅, he₅⟩ := ih₂ h₄ (he₃.mono hg₄)
      obtain ⟨_, rfl⟩ := Build.enter_eq_ok_iff.mp henter
      have hg₄₅ := hg₄.trans' hg₅
      have hlast₅ := hlast₃.mono hg₄₅ hlast₃.lt
      obtain ⟨hg₆, h₆⟩ := h₅.fallenInto hlast₅ hlast₅.lt
      exact ⟨_, hg₁.trans' (hg₂.trans' (hg₃.trans' (hg₄₅.trans' hg₆))), h₆, he₅.mono hg₆⟩
  | @whileLoop d d₁ d₂ d₃ d₄ d' e e' known word g u u' hl hc hv ht _ hfall ih =>
      intro rely h he
      obtain ⟨_, hg₁, h₁, hplain⟩ := h.loop hl
      obtain ⟨_, hg₂, h₂, hk⟩ := Certifies.emission hc _ h₁ nofun
      have hfirst := (hplain g.first (.head _)).mono hg₂ (hplain _ (.head _)).lt
      have hsecond := (hplain g.second (.tail _ (.head _))).mono hg₂
        (hplain _ (.tail _ (.head _))).lt
      have hlast := (hplain g.last (.tail _ (.tail _ (.head _)))).mono hg₂
        (hplain _ (.tail _ (.tail _ (.head _)))).lt
      obtain ⟨hg₃, h₃⟩ := h₂.test (hk _ hv) hsecond hlast ht
      have hg₁₃ := hg₁.trans' (hg₂.trans' hg₃)
      obtain ⟨_, hg₄, h₄, he₄⟩ := ih h₃ (he.mono hg₁₃)
      have hg₃₄ := hg₃.trans' hg₄
      obtain ⟨_, rfl⟩ := Build.fallInto_eq_ok_iff.mp hfall
      obtain ⟨hg₅, h₅⟩ := h₄.fallenInto (hfirst.mono hg₃₄ hfirst.lt)
        (Nat.lt_of_lt_of_le hlast.lt hg₃₄.length)
      exact ⟨_, hg₁₃.trans' (hg₄.trans' hg₅), h₅, he₄.mono hg₅⟩
  | switch hc hv hs _ hd ih =>
      intro rely h he
      obtain ⟨_, hg₁, h₁, hk⟩ := Certifies.emission hc rely h nofun
      obtain ⟨_, hg₂, h₂, hlt, hword, hlast⟩ := h₁.select (hk _ hv) hs
      obtain ⟨_, hg₃, h₃, he₃⟩ := ih h₂ nofun
      obtain ⟨_, hg₄, h₄⟩ := h₃.settle (Nat.lt_of_lt_of_le hlt hg₃.length)
        (fun m hm => (hg₃.rely _ hlt m).mpr (hword m hm)) (hlast.mono hg₃ hlast.lt) he₃ hd
      have hg := hg₁.trans' (hg₂.trans' (hg₃.trans' hg₄))
      exact ⟨_, hg, h₄, he.mono hg⟩

/-- Storing a parameter reads no value but its stack slot. -/
theorem Sound.spill {params : List String} {u : Unit} (h : d.Sound rely)
    (hs : Build.spill params d = .ok u d') : d'.Sound rely := by
  refine Build.spill_induction ?_ h hs
  intro d d₁ d₂ param v u h hslot hstore
  have h₁ := (h.slot hslot).2
  have hknows : d₁.Knows rely [(.word, .param param), (.pointer, v)] := by
    obtain ⟨_, _, rfl, rfl⟩ := Build.slot_eq_ok_iff.mp hslot
    intro x hx m hm
    simp only [List.mem_cons, List.not_mem_nil, or_false] at hx
    rcases hx with rfl | rfl
    · cases hm
    · obtain ⟨n, hn, he⟩ := h₁.locals _ (.head _)
      cases he
      cases List.mem_singleton.mp hm
      exact .inl hn
  exact (h₁.store hknows (.head _) (.tail _ (.head _)) hstore).2.1

end Draft

section Entered

variable (name : String) (params : List String)

theorem Function.getElem?_entered {i : BlockId} {b : Block}
    (h : (Function.entered name params).blocks[i]? = some b) : b = .empty "entry" :=
  List.mem_singleton.mp (List.mem_of_getElem? h)

theorem Function.successors_entered (i : BlockId) :
    (Function.entered name params).successors i = [] := by
  cases i <;> rfl

/-- A function begins with one block, which is empty. -/
theorem Function.Sound.entered : (Function.entered name params).Sound fun _ _ => False where
  entry _ h := h
  covers i b hb := by
    cases Function.getElem?_entered name params hb
    trivial
  edges _ _ _ _ h := h.elim
  arms k b hb id arms hm := by
    cases Function.getElem?_entered name params hb
    cases hm
  bounded i k hk := by
    rw [Function.successors_entered] at hk
    cases hk
  fresh _ _ h := h.elim
  once := .refl _
  top := ⟨_, rfl, Nat.le_refl _⟩
  phiFree := Function.phiFree_of_empty rfl
  phisFirst b hb := by
    cases List.mem_singleton.mp hb
    exact .nil
  incoming k b hb id arms hm := by
    cases Function.getElem?_entered name params hb
    cases hm

theorem Draft.Sound.ofFunction (p : Program) (id : FunctionId) :
    (Draft.ofFunction p id (.entered name params)).Sound fun _ _ => False where
  code := .entered name params
  valid := Nat.zero_lt_one
  locals _ h := by cases h
  labels _ h := by cases h

end Entered

/-- A certificate makes for single assignment. -/
theorem Function.Sound.singleAssignment {rely : Reliance} {f : Function} (h : f.Sound rely) :
    f.SingleAssignment where
  once := h.once
  assigned := fun _ hpath => h.toCertified.assignedFirst hpath
  phisFirst := h.phisFirst
  incoming := by
    intro k b hb id arms hm
    obtain ⟨hnodup, hmem⟩ := h.incoming k b hb id arms hm
    refine (List.perm_ext_iff_of_nodup hnodup (List.nodup_range.filter _)).mpr fun p => ?_
    rw [hmem, List.mem_filter, List.contains_iff_mem, List.mem_range]
    exact ⟨fun hp => ⟨lt_of_mem_successors hp, hp⟩, And.right⟩

theorem Function.singleAssignment_of_body : OfBodies Function.SingleAssignment := by
  intro name params p d c t u hstart hbody
  obtain ⟨id, m, _, _, hspill⟩ := Draft.start_eq_ok hstart
  obtain ⟨_, r, hs, hb⟩ := bind_eq_ok_iff.mp hbody
  obtain ⟨_, r', hf, hb⟩ := bind_eq_ok_iff.mp hb
  obtain ⟨_, rfl⟩ := pure_eq_ok_iff.mp hb
  obtain ⟨e, hcourse⟩ := Pass.statement_course hs
  have hfirst := (Draft.Sound.ofFunction name params _ id).spill hspill
  obtain ⟨rely, _, hlast, _⟩ := Draft.Sound.course hcourse hfirst nofun
  exact (hlast.finish (Pass.build_eq_ok_iff.mp hf).1).code.singleAssignment

/-- Every function that a compiled source defines is in static single assignment form. -/
theorem Session.singleAssignment_of_compile {path text : String} {s s' : Session} {u : Unit}
    (h : compile path text s = .ok u s') :
    ∀ name ∈ s.definedFunctions text, ∃ f, s'.module.function? name = some f ∧
      f.SingleAssignment :=
  fun _ hn => function?_of_definedFunctions Function.singleAssignment_of_body h hn

theorem Session.singleAssignment_conditional_in_switch :
    ∃ s', compile "f.b" "f(x) \x7b switch x \x7b case 1: return(x ? 2 : x); \x7d \x7d"
        (.new "b" 8) = .ok () s' ∧
      ∃ f, s'.module.function? "f" = some f ∧ f.SingleAssignment := by
  have haccepts : (new "b" 8).accepts "f.b"
      "f(x) \x7b switch x \x7b case 1: return(x ? 2 : x); \x7d \x7d" := by
    decide +kernel
  obtain ⟨s', hs⟩ := exists_of_accepts haccepts
  exact ⟨s', hs, singleAssignment_of_compile hs "f" (by decide +kernel)⟩

end BCompiler
