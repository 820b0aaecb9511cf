import BCompiler.Proofs.Slot

/-!
What a statement leaves behind.

A statement ends the blocks that it leaves, so no block of its own is open behind it but the one in
which it goes on and those of labels that are not defined yet. A block that has ended stays as it
is, but for the slots at the top of the first block. A conditional, a loop and a switch go on in
their own last block, which is still empty.
-/
namespace BCompiler

/-- A draft that is reached while a function is compiled: at its beginning, at a mark of a statement
or behind a statement. -/
inductive Draft.Reached : Draft → Prop
  | start {name : String} {params : List String} {p : Program} {d : Draft} :
      Draft.start name params p = .ok d → Reached d
  | mark {depth : Nat} {e : Option Switch} {s : Site Draft} {v : Visit} : Reached s.target →
      v ∈ (Logged.statementAt depth e).log s → Reached v.site.target
  | after {depth : Nat} {e e' : Option Switch} {s t : Site Draft} : Reached s.target →
      Pass.statementAt depth e s = .ok e' t → Reached t.target

/-- The block without its slots. -/
def Block.withoutSlots (b : Block) : Block :=
  { b with instrs := b.instrs.filter fun instr => !instr.isSlot }

/-- A block of the first function that has ended is the same in the second one, but for slots. -/
def Function.Settles (f g : Function) : Prop :=
  ∀ (i : BlockId) (b : Block), f.blocks[i]? = some b → b.terminator ≠ none →
    ∃ b', g.blocks[i]? = some b' ∧ b'.withoutSlots = b.withoutSlots

/-- The second block is the first one with more slots behind those at its top. -/
def Block.Hoists (b b' : Block) : Prop :=
  ∃ top new rest, b.instrs = top ++ rest ∧ b' = { b with instrs := top ++ new ++ rest } ∧
    (∀ instr ∈ top ++ new, instr.isSlot) ∧ ∀ instr ∈ rest, instr.isSlot = false

theorem filter_insertIdx {α : Type} {p : α → Bool} {a : α} (h : p a = false) (n : Nat)
    (l : List α) : (l.insertIdx n a).filter p = l.filter p := by
  induction l generalizing n with
  | nil =>
      cases n with
      | zero => simp [h]
      | succ n => rfl
  | cons x l ih =>
      cases n with
      | zero => simp [h]
      | succ n => rw [List.insertIdx_succ_cons, List.filter_cons, List.filter_cons, ih]

namespace Function.Settles

variable {f g h : Function}

theorem refl (f : Function) : f.Settles f := fun _ b hb _ => ⟨b, hb, rfl⟩

theorem trans (hfg : f.Settles g) (hgh : g.Settles h) : f.Settles h := by
  intro i b hb hended
  obtain ⟨b', hb', hcode'⟩ := hfg i b hb hended
  have hends : b'.withoutSlots.terminator = b.withoutSlots.terminator := by rw [hcode']
  have hended' : b'.terminator ≠ none := fun hnone => hended (hends.symm.trans hnone)
  obtain ⟨b'', hb'', hcode''⟩ := hgh i b' hb' hended'
  exact ⟨b'', hb'', hcode''.trans hcode'⟩

theorem of_extends (he : f.Extends g) : f.Settles g := by
  intro i b hb hended
  obtain ⟨b', hb', rfl | ⟨hopen, _⟩⟩ := he i b hb
  · exact ⟨_, hb', rfl⟩
  · exact absurd hopen hended

theorem withSlot (f : Function) (words : Option UInt64) : f.Settles (f.withSlot words) := by
  intro i b hb _
  have hblock := getElem?_onBlock f 0 i
    (.insert f.slots (.define f.nextValue (.alloca words)))
  rw [hb] at hblock
  split at hblock
  · refine ⟨_, hblock, ?_⟩
    unfold Block.withoutSlots Block.insert
    rw [filter_insertIdx rfl]
  · exact ⟨b, hblock, rfl⟩

end Function.Settles

namespace Block

theorem eq_of_withoutSlots {b b' : Block} (h : b'.withoutSlots = b.withoutSlots) :
    b' = { b with instrs := b'.instrs } := by
  obtain ⟨name, instrs, t⟩ := b
  obtain ⟨name', instrs', t'⟩ := b'
  obtain ⟨rfl, _, rfl⟩ := Block.mk.inj h
  rfl

theorem withoutSlots_of_none {b : Block} (h : ∀ instr ∈ b.instrs, instr.isSlot = false) :
    b.withoutSlots = b := by
  have hall : ∀ instr ∈ b.instrs, (!instr.isSlot) = true := fun instr hm => by rw [h instr hm]; rfl
  rw [withoutSlots, List.filter_eq_self.mpr hall]

theorem instrs_withoutSlots {b : Block} {top rest : List Instr} (h : b.instrs = top ++ rest)
    (htop : ∀ instr ∈ top, instr.isSlot) (hrest : ∀ instr ∈ rest, instr.isSlot = false) :
    b.withoutSlots.instrs = rest := by
  have hkept : ∀ instr ∈ rest, (!instr.isSlot) = true := fun instr hm => by
    rw [hrest instr hm]
    rfl
  have hgone : ∀ instr ∈ top, ¬(!instr.isSlot) = true := fun instr hm => by
    rw [htop instr hm]
    exact Bool.false_ne_true
  rw [withoutSlots, h, List.filter_append, List.filter_eq_nil_iff.mpr hgone,
    List.filter_eq_self.mpr hkept, List.nil_append]

end Block

theorem Slot.isSlot_of_mem {slots : List Slot} : ∀ instr ∈ slots.map Slot.instr, instr.isSlot := by
  intro instr hm
  obtain ⟨_, _, rfl⟩ := List.mem_map.mp hm
  rfl

/-- Behind more slots, a block that has ended is the same, or the first block with those slots. -/
theorem Draft.Slotted.keeps {slots more : List Slot} {d d' : Draft} (hd : d.Slotted slots)
    (hd' : d'.Slotted (slots ++ more)) (h : d.function.Settles d'.function) {i : BlockId}
    {b : Block} (hb : d.function.blocks[i]? = some b) (hended : b.terminator ≠ none) :
    ∃ b', d'.function.blocks[i]? = some b' ∧ if i = 0 then b.Hoists b' else b' = b := by
  obtain ⟨b', hb', hcode⟩ := h i b hb hended
  refine ⟨b', hb', ?_⟩
  split
  · next hi =>
      subst hi
      obtain ⟨c, rest, hc, hinstrs, hrest⟩ := hd.entry
      obtain ⟨c', rest', hc', hinstrs', hrest'⟩ := hd'.entry
      cases hb.symm.trans hc
      cases hb'.symm.trans hc'
      -- The slots are all in front in both drafts, so without them the rest is left.
      have hsame : rest' = rest := by
        rw [← Block.instrs_withoutSlots hinstrs' Slot.isSlot_of_mem hrest', hcode,
          Block.instrs_withoutSlots hinstrs Slot.isSlot_of_mem hrest]
      refine ⟨slots.map Slot.instr, more.map Slot.instr, rest, hinstrs, ?_, ?_, hrest⟩
      · have heq := Block.eq_of_withoutSlots hcode
        rwa [hinstrs', List.map_append, hsame] at heq
      · rw [← List.map_append]
        exact Slot.isSlot_of_mem
  · next hi =>
      rw [← Block.withoutSlots_of_none (hd.others i b hi hb), ← hcode,
        Block.withoutSlots_of_none (hd'.others i b' hi hb')]

theorem Quiet.extends {d d' : Draft} (h : Quiet d d') : d.function.Extends d'.function := by
  induction h with
  | trans _ _ ih₁ ih₂ => exact ih₁.trans ih₂
  | define ho _ => exact Draft.extends_define ho _
  | store ho => exact Draft.extends_onBlock ho rfl fun _ => List.prefix_append _ _
  | ended ho => exact Draft.extends_endedBy ho _
  | addBlock _ => exact Function.extends_addBlock _ _
  | refl | nextNumber | goTo | program => exact .refl _

theorem Mark.settles_change (mark : Mark) (d : Draft) :
    d.function.Settles (mark.change d).function := by
  have hmention (name : String) : d.function.Settles (d.mentioning name).function := by
    unfold Draft.mentioning
    split
    · exact .refl _
    · exact .of_extends (Function.extends_addBlock _ _)
  cases mark with
  | statement => exact .refl _
  | goto name => exact hmention name
  | label name => exact hmention name
  | auto name size => exact .withSlot _ _

/-- On a walk, what has ended is changed by slots only. -/
theorem Walk.settles {s t : Site Draft} {vs : List Visit} (h : Walk s vs t) :
    s.target.function.Settles t.target.function := by
  induction h with
  | rest _ hq => exact .of_extends hq.extends
  | @visit _ _ v _ d _ hq ha _ ih =>
      obtain ⟨_, hact⟩ := Mark.act_eq_ok ha
      exact (Function.Settles.of_extends hq.extends).trans
        ((v.mark.settles_change _).trans ((Function.Settles.of_extends hact.extends).trans ih))

namespace Logged

variable {depth : Nat} {e e' : Option Switch} {s t : Site Draft} {v : Visit} {ks : List BlockId}

theorem step_statementAt (depth : Nat) (e : Option Switch) :
    (statementAt depth e).step = Pass.statementAt depth e :=
  congrFun (step_grammar depth).1 e

theorem statementAt_walk (h : Pass.statementAt depth e s = .ok e' t) :
    Walk s ((statementAt depth e).log s) t := by
  have hwalks := (grammar_tracks depth).1 e s
  rw [step_statementAt, h] at hwalks
  exact hwalks

theorem mark_walk (h : s.target.Awaits ks) (hv : v ∈ (statementAt depth e).log s) :
    ∃ front, Walk s front v.site := by
  have hattends := ((grammar_attends depth).1 ks e s h).1
  have hwalks := (grammar_tracks depth).1 e s
  obtain ⟨front, back, hlog⟩ := List.append_of_mem hv
  rw [hlog] at hwalks hattends
  exact ⟨front, (hwalks.split fun u hu => (hattends u hu).elim fun _ ha => ha.valid).1⟩

end Logged

theorem Draft.Reached.awaits {d : Draft} (h : d.Reached) : ∃ ks, d.Awaits ks := by
  induction h with
  | start hs => exact ⟨[], .start hs⟩
  | @mark depth e s v _ hv ih =>
      obtain ⟨ks, ha⟩ := ih
      exact ((Logged.grammar_attends depth).1 ks e s ha).1 v hv
  | after _ hs ih =>
      obtain ⟨ks, ha⟩ := ih
      exact ⟨ks, .course ((Pass.grammar_coursing _).1 _ _ _ _ hs) ha⟩

theorem Draft.Reached.slotted {d : Draft} (h : d.Reached) : ∃ slots, d.Slotted slots := by
  induction h with
  | start hs =>
      obtain ⟨i, m, _, _, hspill⟩ := Draft.start_eq_ok hs
      obtain ⟨slots, hslots, _⟩ := (Slotted.ofFunction _ _ _ _).spill_ok Nat.zero_lt_one hspill
      exact ⟨_, hslots⟩
  | mark hr hv ih =>
      obtain ⟨slots, hs⟩ := ih
      obtain ⟨ks, ha⟩ := hr.awaits
      obtain ⟨front, hw⟩ := Logged.mark_walk ha hv
      obtain ⟨more, hmore, _⟩ := hw.slotted hs
      exact ⟨_, hmore⟩
  | after _ h ih =>
      obtain ⟨slots, hs⟩ := ih
      obtain ⟨more, hmore, _⟩ := (Logged.statementAt_walk h).slotted hs
      exact ⟨_, hmore⟩

/-- The draft goes on in the last block of a construct that was begun in `base`, and the block is
empty. -/
def Draft.Ends (construct : String) (d base : Draft) : Prop :=
  d.current = base.group.last ∧ d.function.blocks[base.group.last]? =
    some (.empty (construct ++ "." ++ toString base.nextGroup ++ ".end"))

/-- The last block of a construct has waited until it is entered. -/
theorem Draft.Awaits.ends {ks : List BlockId} {construct first second : String} {base d : Draft}
    (h : d.Awaits ks) (hk : base.group.last ∈ ks)
    (hl : (base.addGroup construct first second "end").Lasts d) :
    (d.goTo base.group.last).Ends construct base := by
  refine ⟨rfl, ?_⟩
  obtain ⟨_, _, name, hb⟩ := h.empty _ (.inl hk)
  have hname : d.function.blockNames[base.group.last]? = _ :=
    hl.name (base.getElem?_blockNames_addGroup construct first second "end" 2)
  rw [Function.blockNames, List.getElem?_map, hb] at hname
  have hend : name = construct ++ "." ++ toString base.nextGroup ++ ("." ++ "end") :=
    (Option.some.inj hname).trans String.append_assoc
  change d.function.blocks[_]? = _
  rw [hb, hend]
  rfl

/-- Where a statement that has blocks of its own begins them, and the name of its construct: a loop
does so at once, a conditional and a switch when their word is compiled. -/
def Pass.base? (value : Pass Draft Operand) (s : Site Draft) :
    StatementHead → Option (String × Draft)
  | .whileLoop => some ("while", s.target)
  | .ifElse => (accepted? ((scan (Scan.expect '(' "after 'if'") >>= fun _ => value) s)).map fun r =>
    ("if", r.2.target)
  | .switch => (accepted? (value s)).map fun r => ("switch", r.2.target)
  | _ => none

namespace Pass

section Construct

variable {value : Pass Draft Operand} {body : Body} {e e' : Option Switch} {s t : Site Draft}
  {ks : List BlockId} (hv : Valued value) (hb : Coursing body) (ha : s.target.Awaits ks)

include hv hb ha

theorem ifElse_ends (h : ifElse value body e s = .ok e' t) :
    ∃ base, base? value s .ifElse = some ("if", base) ∧ t.target.Ends "if" base := by
  obtain ⟨word, r, g, s₂, e₁, s₃, s₄, s₅, hw, hfork, hthen, hfall, helse, henter⟩ := ifElse_eq_ok h
  refine ⟨r.target, by rw [base?, hw]; rfl, ?_⟩
  obtain ⟨_, s₁, hs₁, hw⟩ := bind_eq_ok_iff.mp hw
  obtain ⟨known, hcode, _⟩ := hv s₁ word r hw
  rw [(scan_eq_ok_iff.mp hs₁).2] at hcode
  obtain ⟨h₂, hsecond, hlast⟩ := (Draft.Awaits.emission hcode ha).fork hfork
  have hcthen := hb _ _ _ _ hthen
  have hcelse := elsePart_coursing hb _ _ _ _ helse
  -- The last block waits from the fork on, until both arms are compiled.
  have h₅ : s₅.target.Awaits (g.last :: ks) :=
    .course hcelse ((Draft.Awaits.course hcthen h₂).fallInto hsecond hfall)
  have hlasts : s₂.target.Lasts s₅.target := (Draft.Lasts.carried.course hcthen).trans
    ((Draft.Lasts.carried.fallInto hfall).trans (Draft.Lasts.carried.course hcelse))
  obtain ⟨_, rfl, hs₂⟩ := Build.fork_eq_ok_iff.mp hfork
  obtain ⟨_, ht⟩ := Build.enter_eq_ok_iff.mp henter
  have hbegun : (r.target.addGroup "if" "then" "else" "end").Lasts s₂.target := by
    rw [hs₂]
    exact (Draft.Lasts.carried.branched _ _ _ _).trans (Draft.Lasts.carried.goTo _ _)
  rw [ht]
  exact (h₅.endedIfOpen _).ends (.head _) (hbegun.trans (hlasts.trans
    (Draft.Lasts.carried.endedIfOpen _ (t := .branch _) List.nodup_nil)))

theorem whileLoop_ends (h : whileLoop value body e s = .ok e' t) :
    t.target.Ends "while" s.target := by
  obtain ⟨word, g, s₁, r, s₂, s₃, hloop, hw, htest, hbody, hfall⟩ := whileLoop_eq_ok h
  obtain ⟨h₁, hsecond, hlast⟩ := ha.loop hloop
  obtain ⟨_, s₁', hs₁, hw⟩ := bind_eq_ok_iff.mp hw
  obtain ⟨known, hcode, _⟩ := hv s₁' word r hw
  rw [(scan_eq_ok_iff.mp hs₁).2] at hcode
  have hcbody := hb _ _ _ _ hbody
  have h₃ : s₃.target.Awaits (g.last :: ks) :=
    .course hcbody ((Draft.Awaits.emission hcode h₁).test hsecond htest)
  have hlasts : s₁.target.Lasts s₃.target := (Draft.Lasts.carried.emission hcode).trans
    ((Draft.Lasts.carried.test htest).trans (Draft.Lasts.carried.course hcbody))
  obtain ⟨_, rfl, hs₁⟩ := Build.loop_eq_ok_iff.mp hloop
  obtain ⟨_, ht⟩ := Build.fallInto_eq_ok_iff.mp hfall
  have hbegun : (s.target.addGroup "while" "cond" "body" "end").Lasts s₁.target := by
    rw [hs₁]
    exact Draft.Lasts.carried.fallenInto _ _ _
  rw [ht]
  exact (h₃.endedIfOpen _).ends (.head _) (hbegun.trans (hlasts.trans
    (Draft.Lasts.carried.endedIfOpen _ (t := .branch _) List.nodup_nil)))

theorem switch_ends {u : Unit} (h : switch value body s = .ok u t) :
    ∃ base, base? value s .switch = some ("switch", base) ∧ t.target.Ends "switch" base := by
  obtain ⟨word, r, g, s₂, inner, s₃, hw, hselect, hbody, hsettle⟩ := switch_eq_ok h
  refine ⟨r.target, by rw [base?, hw]; rfl, ?_⟩
  obtain ⟨known, hcode, _⟩ := hv s word r hw
  obtain ⟨h₂, hsecond, hlast⟩ := (Draft.Awaits.emission hcode ha).select hselect
  have hcbody := hb _ _ _ _ hbody
  have h₃ := (Draft.Awaits.course hcbody h₂).fallenInto hsecond g.last
  have hlasts := (Draft.Lasts.carried.course hcbody).trans
    ((Draft.Lasts.carried.fallenInto _ g.last g.second).trans (Draft.Lasts.carried.opened _))
  obtain ⟨_, rfl, hs₂⟩ := Build.select_eq_ok_iff.mp hselect
  obtain ⟨_, _, ht⟩ := Build.settle_eq_ok_iff.mp hsettle
  have hbegun : (r.target.addGroup "switch" "stmts" "cmp" "end").Lasts s₂.target := by
    rw [hs₂]
    exact Draft.Lasts.carried.fallenInto _ _ _
  rw [ht]
  exact (h₃.opened.endedBy _).ends (.head _) (hbegun.trans (hlasts.trans
    (.endedBy (Draft.isOpen_opened _) _)))

end Construct

/-- Behind a statement, a block without an end is the current one, that of a label which is not
defined yet, or one that was open before and not the current one. What had ended is as it was, but
for slots that were put at the top of the first block. A conditional, a loop and a switch go on in
the last of their own blocks, which is empty. -/
theorem statementAt_closes {depth : Nat} {enclosing enclosing' : Option Switch} {s t : Site Draft}
    (hs : s.target.Reached) (h : statementAt (depth + 1) enclosing s = .ok enclosing' t) :
    (∀ i, t.target.Open i →
      i = t.target.current ∨ t.target.Pending i ∨ s.target.Open i ∧ i ≠ s.target.current) ∧
    (∀ i b, s.target.function.blocks[i]? = some b → b.terminator ≠ none →
      ∃ b', t.target.function.blocks[i]? = some b' ∧ if i = 0 then b.Hoists b' else b' = b) ∧
    ∀ head c, Scan.statementHead s.cursor = .ok head c →
      head = .ifElse ∨ head = .whileLoop ∨ head = .switch →
      ∃ construct base,
        base? (expressionAt depth fullLevel) ⟨c, s.target⟩ head = some (construct, base) ∧
          t.target.Ends construct base := by
  obtain ⟨ks, ha⟩ := hs.awaits
  obtain ⟨slots, hslots⟩ := hs.slotted
  obtain ⟨hstatement, _⟩ := grammar_coursing depth
  have hvalue : Valued (expressionAt depth fullLevel) := expressionAt_emitting depth _ []
  refine ⟨fun i hi => ?_, fun i b => ?_, fun head c hc hhead => ?_⟩
  -- The blocks that wait are the same before and behind the statement, and none is the current one.
  · have ha' : t.target.Awaits ks := .course ((grammar_coursing _).1 _ _ _ _ h) ha
    rcases ha'.settled i hi with hcurrent | hk | hpending
    · exact .inl hcurrent
    · exact .inr (.inr ⟨ha.waiting i hk, fun he => ha.current (he ▸ hk)⟩)
    · exact .inr (.inl hpending)
  · have hwalk := Logged.statementAt_walk h
    obtain ⟨more, hmore, _⟩ := hwalk.slotted hslots
    exact hslots.keeps hmore hwalk.settles
  · have hscan : scan Scan.statementHead s = .ok head ⟨c, s.target⟩ := scan_of_ok hc
    have h := (bind_of_ok hscan).symm.trans h
    have ha : (⟨c, s.target⟩ : Site Draft).target.Awaits ks := ha
    rcases hhead with rfl | rfl | rfl
    · obtain ⟨base, hbase, hends⟩ := ifElse_ends hvalue hstatement ha h
      exact ⟨_, base, hbase, hends⟩
    · exact ⟨_, _, rfl, whileLoop_ends hvalue hstatement ha h⟩
    · obtain ⟨_, r, hswitch, hp⟩ := bind_eq_ok_iff.mp h
      obtain ⟨_, rfl⟩ := pure_eq_ok_iff.mp hp
      obtain ⟨base, hbase, hends⟩ := switch_ends hvalue hstatement ha hswitch
      exact ⟨_, base, hbase, hends⟩

/-- A loop with a local in it behind a conditional: the slot of the local goes to the first block,
which has ended by then, and the loop ends in its own last block. -/
theorem statementAt_closes_loop :
    ∃ (d : Draft) (r t : Site Draft) (e e' : Option Switch),
      Draft.start "f" ["x"] (.empty "b" 8) = .ok d ∧
      statementAt 20 none ⟨.ofText "if (x) ;" 8, d⟩ = .ok e r ∧
      statementAt 20 e ⟨.ofText "while (x) \x7b auto y; goto out; \x7d" 8, r.target⟩ = .ok e' t ∧
      (∃ b b', r.target.function.blocks[0]? = some b ∧ t.target.function.blocks[0]? = some b' ∧
        b' ≠ b ∧ b.Hoists b') ∧
      t.target.Ends "while" r.target := by
  have haccepted : ((Draft.start "f" ["x"] (.empty "b" 8)).toOption.any fun d =>
      (accepted? (statementAt 20 none ⟨.ofText "if (x) ;" 8, d⟩)).any fun r =>
        (accepted? (statementAt 20 r.1
            ⟨.ofText "while (x) \x7b auto y; goto out; \x7d" 8, r.2.target⟩)).any fun t =>
          r.2.target.function.blocks[0]?.any fun b =>
            t.2.target.function.blocks[0]?.any fun b' => b.terminator.isSome && b' != b) =
      true := by
    decide +kernel
  cases hd : Draft.start "f" ["x"] (.empty "b" 8) with
  | error r =>
      rw [hd] at haccepted
      cases haccepted
  | ok d =>
      rw [hd] at haccepted
      obtain ⟨_, ⟨⟩, haccepted⟩ := (Option.any_eq_true _ _).mp haccepted
      obtain ⟨⟨e, r⟩, hr, haccepted⟩ := (Option.any_eq_true _ _).mp haccepted
      obtain ⟨⟨e', t⟩, ht, haccepted⟩ := (Option.any_eq_true _ _).mp haccepted
      obtain ⟨b, hb, haccepted⟩ := (Option.any_eq_true _ _).mp haccepted
      obtain ⟨b', hb', haccepted⟩ := (Option.any_eq_true _ _).mp haccepted
      obtain ⟨hended, hne⟩ := Bool.and_eq_true_iff.mp haccepted
      have hr := accepted?_eq_some.mp hr
      have ht := accepted?_eq_some.mp ht
      have hreached : r.target.Reached := .after (s := ⟨_, d⟩) (.start hd) hr
      obtain ⟨_, hkept, hends⟩ := @statementAt_closes 19 e e'
        ⟨.ofText "while (x) \x7b auto y; goto out; \x7d" 8, r.target⟩ t hreached ht
      obtain ⟨_, hb'', hhoists⟩ := hkept 0 b hb (Option.isSome_iff_ne_none.mp hended)
      cases hb'.symm.trans hb''
      obtain ⟨c, hhead⟩ :
          ∃ c, Scan.statementHead (.ofText "while (x) \x7b auto y; goto out; \x7d" 8) =
            .ok .whileLoop c := ⟨_, rfl⟩
      obtain ⟨_, _, hbase, hends⟩ := hends _ _ hhead (.inr (.inl rfl))
      cases hbase
      exact ⟨d, r, t, e, e', rfl, hr, ht, ⟨b, b', hb, hb', by simpa using hne, hhoists⟩, hends⟩

end Pass
end BCompiler
