import BCompiler.Proofs.Await
import BCompiler.Proofs.Frame
import BCompiler.Proofs.Source.Zone

/-!
How the labels of a function resolve.

A label has its block from the first goto or definition that mentions it, whichever comes first. The
block is named after the label, no other block has that name, and the draft knows which labels were
mentioned and which were defined in the text read so far. So every goto leads to the block in which
the labelled statement starts, and what is left undefined at the end is reported.
-/
namespace BCompiler

section Order

theorem lex_iff_map_lt {α : Type} {f : α → Nat} (hf : ∀ a b, f a = f b → a = b) {l l' : List α} :
    List.Lex (fun a b => f a < f b) l l' ↔ l.map f < l'.map f := by
  induction l generalizing l' with
  | nil => cases l' <;> simp
  | cons a l ih =>
      cases l' with
      | nil => simp
      | cons b l' =>
          have heq : f a = f b ↔ a = b := ⟨hf a b, congrArg f⟩
          simp only [List.cons_lex_cons_iff, List.map_cons, List.cons_lt_cons_iff, ih, heq]

/-- The code points of a name, by which names are ordered. -/
def codePoints (name : String) : List Nat := name.toList.map Char.toNat

theorem codePoints_inj {x y : String} (h : codePoints x = codePoints y) : x = y :=
  String.toList_inj.mp (List.map_inj_right (fun _ _ h => Char.toNat_inj.mp h) |>.mp h)

theorem nameBefore_iff {x y : String} : nameBefore x y ↔ codePoints x < codePoints y := by
  unfold nameBefore codePoints
  rw [List.lex_eq_true_iff_lex, ← lex_iff_map_lt fun _ _ h => Char.toNat_inj.mp h]
  simp only [Nat.blt_eq]

theorem codePoints_lt_or {x y : String} (h : x ≠ y) :
    codePoints x < codePoints y ∨ codePoints y < codePoints x := by
  by_cases hlt : codePoints x < codePoints y
  · exact .inl hlt
  · refine .inr (Classical.byContradiction fun hlt' => h ?_)
    exact codePoints_inj (List.le_antisymm (List.not_lt.mp hlt') (List.not_lt.mp hlt))

/-- The least name comes before all others. -/
theorem leastName_eq_some {names : List String} {x : String} (h : leastName names = some x) :
    x ∈ names ∧ ∀ y ∈ names, y ≠ x → codePoints x < codePoints y := by
  induction names generalizing x with
  | nil => cases h
  | cons name names ih =>
      unfold leastName at h
      cases hl : leastName names with
      | none =>
          rw [hl] at h
          cases h
          rw [leastName_eq_none_iff.mp hl]
          exact ⟨.head _, fun y hy hne => absurd (List.mem_singleton.mp hy) hne⟩
      | some least =>
          obtain ⟨hmem, hbefore⟩ := ih hl
          simp only [hl, nameBefore_iff, Option.some.injEq] at h
          split at h
          · next hlt =>
              subst h
              refine ⟨.head _, fun y hy hne => ?_⟩
              have hy := (List.mem_cons.mp hy).resolve_left hne
              by_cases he : y = least
              · exact he ▸ hlt
              · exact List.lt_trans hlt (hbefore y hy he)
          · next hlt =>
              subst h
              refine ⟨.tail _ hmem, fun y hy hne => ?_⟩
              rcases List.mem_cons.mp hy with rfl | hy
              · exact (codePoints_lt_or hne).resolve_left hlt
              · exact hbefore y hy hne

theorem utf8Bytes_eq (x : String) : utf8Bytes x = x.toList.flatMap String.utf8EncodeChar := by
  have hbytes : x.toByteArray = x.toList.utf8Encode := by
    rw [← String.toByteArray_ofList, String.ofList_toList]
  unfold utf8Bytes
  rw [String.toUTF8_eq_toByteArray, hbytes, List.utf8Encode, List.toList_data_toByteArray]

theorem toNat_lt_of_isNameChar {c : Char} (h : isNameChar c) : c.toNat < 128 := by
  simp only [isNameChar, isNameStart, isDigit, Bool.or_eq_true, Bool.and_eq_true, Nat.ble_eq,
    beq_iff_eq] at h
  rcases h with ((⟨_, h⟩ | ⟨_, h⟩) | rfl) | ⟨_, h⟩
  · omega
  · omega
  · decide
  · omega

/-- A name has one byte for each character. -/
theorem toNat_utf8Bytes {x : String} (h : isName x) :
    (utf8Bytes x).map UInt8.toNat = codePoints x := by
  have hchars : ∀ c ∈ x.toList, c.toNat < 128 :=
    fun c hc => toNat_lt_of_isNameChar (isNameChar_of_isName h hc)
  rw [utf8Bytes_eq]
  unfold codePoints
  generalize x.toList = chars at hchars
  induction chars with
  | nil => rfl
  | cons c chars ih =>
      have hc : c.toNat < 128 := hchars c (.head _)
      have hencode : String.utf8EncodeChar c = [UInt8.ofNat c.toNat] :=
        if_pos (Nat.le_of_lt_succ hc)
      have hbyte : (UInt8.ofNat c.toNat).toNat = c.toNat := by
        rw [UInt8.toNat_ofNat']
        omega
      rw [List.flatMap_cons, hencode, List.map_append, ih fun c hc => hchars c (.tail _ hc)]
      rw [List.map_singleton, hbyte]
      rfl

/-- The order of names is that of their bytes. -/
theorem lex_utf8Bytes {x y : String} (hx : isName x) (hy : isName y)
    (h : codePoints x < codePoints y) : List.Lex (· < ·) (utf8Bytes x) (utf8Bytes y) := by
  rw [← toNat_utf8Bytes hx, ← toNat_utf8Bytes hy,
    ← lex_iff_map_lt fun _ _ h => UInt8.toNat_inj.mp h] at h
  exact h

end Order

namespace Function

/-- The block is the only one of its name. -/
def OnlyBlock (f : Function) (name : String) (k : BlockId) : Prop :=
  ∀ i, f.blockNames[i]? = some name ↔ i = k

theorem OnlyBlock.name {f : Function} {name : String} {k : BlockId} (h : f.OnlyBlock name k) :
    f.blockNames[k]? = some name := (h k).mpr rfl

end Function

namespace Draft

/-- The blocks with names of labels are those of the labels, one for each. -/
structure Labelled (d : Draft) : Prop where
  names : (d.labels.map Label.name).Nodup
  block : ∀ label ∈ d.labels, d.function.blockNames[label.block]? = some ("label." ++ label.name)
  label : ∀ i x, d.function.blockNames[i]? = some ("label." ++ x) →
    ∃ label ∈ d.labels, label.name = x ∧ label.block = i

namespace Labelled

variable {d d' : Draft}

theorem quiet (h : d.Labelled) (hq : Quiet d d') : d'.Labelled := by
  obtain ⟨more, hmore, hplain⟩ := hq.blockNames
  refine ⟨hq.labels ▸ h.names, fun label hm => ?_, fun i x hx => ?_⟩
  · have hb := h.block label (hq.labels ▸ hm)
    rw [hmore, List.getElem?_append_left (List.getElem?_eq_some_iff.mp hb).1, hb]
  · rw [hq.labels]
    rw [hmore, List.getElem?_append] at hx
    split at hx
    · exact h.label i x hx
    · exact absurd rfl ((hplain _ (List.mem_of_getElem? hx)).ne x)

theorem withSlot (h : d.Labelled) (name : String) (words : Option UInt64) :
    (d.withSlot name words).Labelled where
  names := h.names
  block label hm := d.blockNames_withSlot name words ▸ h.block label hm
  label i x hx := h.label i x (d.blockNames_withSlot name words ▸ hx)

theorem mentioning (h : d.Labelled) (name : String) : (d.mentioning name).Labelled := by
  by_cases hm : d.Mentions name
  · rwa [mentioning_of_mentions hm]
  -- The label and the block that are added are the last of the labels and of the blocks.
  · have hnone : d.labels.find? (fun label => label.name == name) = none :=
      List.find?_eq_none.mpr fun label hl he => hm ⟨label, hl, eq_of_beq he⟩
    have hnames : (d.withLabel name).function.blockNames =
        d.function.blockNames ++ ["label." ++ name] := d.blockNames_addBlock _
    have hlabels : (d.withLabel name).labels =
        d.labels ++ [⟨name, d.function.blocks.length, false⟩] := rfl
    unfold Draft.mentioning
    rw [hnone]
    refine ⟨?_, fun label hl => ?_, fun i x hx => ?_⟩
    · rw [hlabels, List.map_append, List.map_singleton, List.nodup_append]
      refine ⟨h.names, List.pairwise_singleton _ _, fun x hx y hy => ?_⟩
      obtain ⟨label, hl, rfl⟩ := List.mem_map.mp hx
      rw [List.mem_singleton.mp hy]
      exact fun he => hm ⟨label, hl, he⟩
    · rw [hnames]
      rcases List.mem_append.mp hl with hl | hl
      · have hb := h.block label hl
        rw [List.getElem?_append_left (List.getElem?_eq_some_iff.mp hb).1, hb]
      · rw [List.mem_singleton.mp hl, ← Function.length_blockNames, List.getElem?_concat_length]
    · rw [hnames, List.getElem?_append] at hx
      rw [hlabels]
      split at hx
      · obtain ⟨label, hl, hlabel⟩ := h.label i x hx
        exact ⟨label, List.mem_append_left _ hl, hlabel⟩
      · next hge =>
          have hlast : i - d.function.blockNames.length = 0 := by
            have := (List.getElem?_eq_some_iff.mp hx).1
            simpa using this
          rw [hlast] at hx
          have hname : name = x := by
            simpa only [List.getElem?_cons_zero, Option.some.injEq, String.append_right_inj]
              using hx
          refine ⟨_, List.mem_append_right _ (.head _), hname, ?_⟩
          rw [Function.length_blockNames] at hge hlast
          exact Nat.le_antisymm (Nat.not_lt.mp hge) (Nat.le_of_sub_eq_zero hlast)

theorem labelDefined (h : d.Labelled) (name : String) : (d.labelDefined name).Labelled where
  names := d.names_labelDefined name ▸ h.names
  block label hm := by
    obtain ⟨old, hold, rfl⟩ := List.mem_map.mp hm
    rw [Label.name_define, Label.block_define]
    exact h.block old hold
  label i x hx := by
    obtain ⟨label, hm, rfl, rfl⟩ := h.label i x hx
    exact ⟨_, List.mem_map.mpr ⟨label, hm, rfl⟩, label.name_define name, label.block_define name⟩

theorem change (h : d.Labelled) (mark : Mark) : (mark.change d).Labelled := by
  cases mark with
  | statement => exact h
  | goto name => exact h.mentioning name
  | label name => exact (h.mentioning name).labelDefined name
  | auto name size => exact h.withSlot name _

theorem onlyBlock (h : d.Labelled) {label : Label} (hm : label ∈ d.labels) :
    d.function.OnlyBlock ("label." ++ label.name) label.block := by
  intro i
  constructor
  · intro hi
    obtain ⟨other, hother, hname, rfl⟩ := h.label i _ hi
    rw [eq_of_nodup_map h.names hother hm hname]
  · rintro rfl
    exact h.block label hm

/-- A name waits to be defined if it is mentioned only. -/
theorem mem_undefined (h : d.Labelled) {x : String} :
    x ∈ (d.labels.filter fun label => !label.defined).map Label.name ↔
      d.Mentions x ∧ ¬d.Defines x := by
  simp only [List.mem_map, List.mem_filter]
  constructor
  · rintro ⟨label, ⟨hm, hd⟩, rfl⟩
    refine ⟨⟨label, hm, rfl⟩, ?_⟩
    rintro ⟨other, hother, hname, hdef⟩
    cases eq_of_nodup_map h.names hother hm hname
    simp [hdef] at hd
  · rintro ⟨⟨label, hm, rfl⟩, hundefined⟩
    refine ⟨label, ⟨hm, ?_⟩, rfl⟩
    simpa using fun hd => hundefined ⟨label, hm, rfl, hd⟩

/-- A function begins with its entry block and without labels. -/
theorem start {name : String} {params : List String} {p : Program}
    (h : Draft.start name params p = .ok d) : d.Labelled ∧ d.labels = [] := by
  obtain ⟨id, m, _, _, hspill⟩ := Draft.start_eq_ok h
  refine Build.spill_invariant (P := fun d => d.Labelled ∧ d.labels = []) ?_ ?_ ?_ hspill
  · exact fun d x hd => ⟨hd.1.withSlot x none, hd.2⟩
  · exact fun d d' hq hd => ⟨hd.1.quiet hq, hq.labels.trans hd.2⟩
  · refine ⟨⟨.nil, nofun, fun i x hx => ?_⟩, rfl⟩
    have hentry : Unlabelled "entry" := ⟨'e', _, rfl, by decide⟩
    have hm : "label." ++ x ∈ ["entry"] := List.mem_of_getElem? hx
    exact absurd (List.mem_singleton.mp hm).symm (hentry.ne x)

end Labelled

theorem Lasts.quiet {d d' : Draft} (h : Quiet d d') : d.Lasts d' := by
  induction h with
  | refl d => exact .refl d
  | trans _ _ ih₁ ih₂ => exact ih₁.trans ih₂
  | define _ _ => exact .code (blockNames_define ..) (terminator?_define _ _) rfl
  | store _ => exact .code (blockNames_append ..) (terminator?_append _ _) rfl
  | ended hopen => exact .endedBy hopen _
  | addBlock _ => exact .addBlock _ _
  | nextNumber d => exact carried.nextNumber d
  | goTo d block => exact carried.goTo d block
  | program d p => exact .code rfl (fun _ => rfl) rfl

theorem Lasts.change (d : Draft) (mark : Mark) : d.Lasts (mark.change d) := by
  cases mark with
  | statement => exact .refl d
  | goto name => exact carried.mentioning d name
  | label name => exact (carried.mentioning d name).trans (carried.withLabels _ _)
  | auto name size => exact carried.withSlot d name _

theorem mentions_change {mark : Mark} {d : Draft} {x : String} :
    (mark.change d).Mentions x ↔ d.Mentions x ∨ mark = .goto x ∨ mark = .label x := by
  cases mark with
  | statement | auto => simp [Mark.change, Mentions, withSlot]
  | goto name => simp [Mark.change, mentions_mentioning, eq_comm]
  | label name => simp [Mark.change, mentions_labelDefined, mentions_mentioning, eq_comm]

theorem defines_change {mark : Mark} {d : Draft} {x : String} :
    (mark.change d).Defines x ↔ d.Defines x ∨ mark = .label x := by
  cases mark with
  | statement | auto => simp [Mark.change, Defines, withSlot]
  | goto name => simp [Mark.change, defines_mentioning]
  | label name =>
      have hm : (d.mentioning name).Mentions name := mentions_mentioning.mpr (.inr rfl)
      simp [Mark.change, defines_labelDefined hm, defines_mentioning, eq_comm]

end Draft

theorem Quiet.mentions_iff {d d' : Draft} (h : Quiet d d') {x : String} :
    d'.Mentions x ↔ d.Mentions x := by rw [Draft.Mentions, Draft.Mentions, h.labels]

theorem Quiet.defines_iff {d d' : Draft} (h : Quiet d d') {x : String} :
    d'.Defines x ↔ d.Defines x := by rw [Draft.Defines, Draft.Defines, h.labels]

namespace Walk

variable {s t : Site Draft} {vs : List Visit}

theorem lasts (h : Walk s vs t) : s.target.Lasts t.target := by
  induction h with
  | rest _ hq => exact .quiet hq
  | visit _ hq ha _ ih =>
      have hact := (Draft.Lasts.change _ _).trans (.quiet (Mark.act_eq_ok ha).2)
      exact (Draft.Lasts.quiet hq).trans (hact.trans ih)

theorem labelled (h : Walk s vs t) (hs : s.target.Labelled) : t.target.Labelled := by
  induction h with
  | rest _ hq => exact hs.quiet hq
  | visit _ hq ha _ ih => exact ih (((hs.quiet hq).change _).quiet (Mark.act_eq_ok ha).2)

/-- The labels that are mentioned at the end are those that the marks on the way mention. -/
theorem mentions_iff (h : Walk s vs t) {x : String} :
    t.target.Mentions x ↔
      s.target.Mentions x ∨ ∃ v ∈ vs, v.mark = .goto x ∨ v.mark = .label x := by
  induction h with
  | rest _ hq => simp [hq.mentions_iff]
  | visit _ hq ha _ ih =>
      rw [ih, (Mark.act_eq_ok ha).2.mentions_iff, Draft.mentions_change, hq.mentions_iff, or_assoc]
      simp

theorem defines_iff (h : Walk s vs t) {x : String} :
    t.target.Defines x ↔ s.target.Defines x ∨ ∃ v ∈ vs, v.mark = .label x := by
  induction h with
  | rest _ hq => simp [hq.defines_iff]
  | visit _ hq ha _ ih =>
      rw [ih, (Mark.act_eq_ok ha).2.defines_iff, Draft.defines_change, hq.defines_iff, or_assoc]
      simp

end Walk

theorem Trail.isName_labels {d d' : Draft} (h : Trail d d') :
    (∀ x, d.Mentions x → isName x) → ∀ x, d'.Mentions x → isName x := by
  induction h with
  | trans _ _ ih₁ ih₂ => exact fun hd => ih₂ (ih₁ hd)
  | @label d name hname =>
      rintro hd x ⟨label, hm, rfl⟩
      rcases List.mem_append.mp hm with hm | hm
      · exact hd _ ⟨label, hm, rfl⟩
      · rwa [List.mem_singleton.mp hm]
  | labelDefined d name => exact fun hd x hx => hd x (Draft.mentions_labelDefined.mp hx)
  | refl | define | store | ended | addBlock | nextNumber | goTo | slot | string | declare
  | external => exact fun hd => hd

namespace Build

variable {name : String} {d d' : Draft} {u : Unit}

theorem blockName_labelTarget (hd : d.Labelled) (name : String) :
    (d.mentioning name).function.blockNames[d.labelTarget name]? = some ("label." ++ name) := by
  obtain ⟨label, hm, rfl, hb⟩ := d.labelTarget_mentioning name
  rw [← hb]
  exact (hd.mentioning _).block label hm

/-- A goto ends an open block with a branch to the block of its label. -/
theorem goto_branches (hd : d.Labelled) (hopen : d.isOpen) (h : goto name d = .ok u d') :
    d'.function.terminator? d.current = some (.branch (d.labelTarget name)) ∧
      d'.function.blockNames[d.labelTarget name]? = some ("label." ++ name) := by
  have hact : (Mark.goto name).act d = .ok u d' := h
  obtain ⟨_, hquiet⟩ := Mark.act_eq_ok hact
  refine ⟨?_, (Draft.Lasts.quiet hquiet).name (blockName_labelTarget hd name)⟩
  obtain ⟨hv, rfl⟩ := goto_eq_ok_iff.mp h
  have hcurrent : (d.mentioning name).current = d.current ∧ (d.mentioning name).isOpen := by
    unfold Draft.mentioning
    split
    · exact ⟨rfl, hopen⟩
    · exact ⟨rfl, Draft.isOpen_addBlock hopen _⟩
  rw [Draft.endedIfOpen_of_isOpen hcurrent.2]
  refine (Draft.Lasts.quiet (Draft.quiet_unreachable _)).ends _ _ ?_
  rw [Draft.terminator?_endedBy _ _ _ hv, if_pos hcurrent.1.symm]

/-- The statement behind a label starts in the block of the label, which is still empty. -/
theorem placeLabel_enters {ks : List BlockId} (ha : d.Awaits ks) (hd : d.Labelled)
    (h : placeLabel name d = .ok u d') :
    d'.current = d.labelTarget name ∧
      d'.function.blocks[d.labelTarget name]? = some (.empty ("label." ++ name)) := by
  obtain ⟨hnew, _, rfl⟩ := placeLabel_eq_ok_iff.mp h
  refine ⟨rfl, ?_⟩
  obtain ⟨label, hm, hname, hb⟩ := d.labelTarget_mentioning name
  have hpending : (d.mentioning name).Pending (d.labelTarget name) := by
    refine ⟨label, hm, ?_, hb⟩
    have := List.any_eq_false.mp hnew label hm
    simpa [hname] using this
  obtain ⟨_, hne, found, hblock⟩ := (ha.mentioning name).empty _ (.inr hpending)
  have hfound : found = "label." ++ name := by
    have hlabel := blockName_labelTarget hd name
    rw [Function.blockNames, List.getElem?_map, hblock] at hlabel
    exact Option.some.inj hlabel
  change (((d.mentioning name).labelDefined name).endedIfOpen _).function.blocks[_]? = _
  rw [← hfound, ← hblock]
  unfold Draft.endedIfOpen
  split
  · exact Draft.getElem?_endedBy (d := (d.mentioning name).labelDefined name) hne
  · rfl

theorem finish_undefined {x : String}
    (h : leastName ((d.labels.filter fun label => !label.defined).map Label.name) = some x) :
    finish d = .error (.undefinedLabel x) d := by
  unfold finish
  rw [get_bind, h]
  rfl

end Build

namespace Visit

/-- Some goto among the marks leads to the label. -/
def Jumps (visits : List Visit) (x : String) : Prop := ∃ v ∈ visits, v.mark = .goto x

/-- Some mark defines the label. -/
def Places (visits : List Visit) (x : String) : Prop := ∃ v ∈ visits, v.mark = .label x

end Visit

namespace Pass

section Body

variable {s : Site Draft} {front back : List Visit} {v : Visit} {x : String} {k : BlockId}

theorem statement_split (ha : s.target.Awaits []) (hvisits : visits s = front ++ v :: back) :
    Walk s front v.site ∧
      ((∃ d rest t, v.mark.act v.site.target = .ok () d ∧ Walk ⟨v.site.cursor, d⟩ rest t ∧
          t.target = outcome (statement s)) ∨
        ∃ e, statement s = .error e v.site ∧
          v.mark.act v.site.target = .error e v.site.target) := by
  have hvalid := visits_valid ha
  have hwalks := statement_walks s
  rw [hvisits] at hvalid hwalks
  exact hwalks.split hvalid

theorem fits_iff (ha : s.target.Awaits []) (hv : v ∈ visits s) :
    v.mark.Fits v.site.target ↔ ∃ d, v.mark.act v.site.target = .ok () d :=
  ⟨Mark.act_of_fits (visits_valid ha v hv), fun ⟨_, h⟩ => (Mark.act_eq_ok h).1⟩

theorem outcome_labelled (ha : s.target.Awaits []) (hl : s.target.Labelled) :
    (outcome (statement s)).Labelled := by
  obtain ⟨done, t, hw, htarget, _⟩ := (statement_walks s).walk (visits_valid ha)
  exact htarget ▸ hw.labelled hl

/-- The draft that a statement leaves knows every label that was read. -/
theorem mentions_outcome (ha : s.target.Awaits []) (hv : v ∈ visits s)
    (hmark : v.mark = .goto x ∨ v.mark = .label x) : (outcome (statement s)).Mentions x := by
  obtain ⟨front, back, hvisits⟩ := List.append_of_mem hv
  obtain ⟨_, ⟨d, rest, t, hact, hgo, htarget⟩ | ⟨e, hr, hact⟩⟩ := statement_split ha hvisits
  · rw [← htarget, hgo.mentions_iff, (Mark.act_eq_ok hact).2.mentions_iff, Draft.mentions_change]
    exact .inl (.inr hmark)
  · have hfits : ¬v.mark.Fits v.site.target := by
      rw [fits_iff ha hv, hact]
      nofun
    rw [hr]
    rcases hmark with hmark | hmark
    · rw [hmark] at hfits
      exact absurd trivial hfits
    · rw [hmark] at hfits
      obtain ⟨label, hm, hname, _⟩ := Classical.not_not.mp hfits
      exact ⟨label, hm, hname⟩

theorem goto_resolves (ha : s.target.Awaits []) (hl : s.target.Labelled) (hv : v ∈ visits s)
    (hmark : v.mark = .goto x) (hopen : v.site.target.isOpen)
    (hk : (outcome (statement s)).function.OnlyBlock ("label." ++ x) k) :
    (outcome (statement s)).function.terminator? v.site.target.current = some (.branch k) := by
  obtain ⟨front, back, hvisits⟩ := List.append_of_mem hv
  obtain ⟨hfront, hend⟩ := statement_split ha hvisits
  obtain ⟨d, hok⟩ := (fits_iff ha hv).mp (by rw [hmark]; trivial)
  rcases hend with ⟨d, rest, t, hact, hgo, htarget⟩ | ⟨e, _, hact⟩
  · rw [hmark] at hact
    obtain ⟨hends, hname⟩ := Build.goto_branches (hfront.labelled hl) hopen hact
    rw [← htarget] at hk ⊢
    rw [hgo.lasts.ends _ _ hends, (hk _).mp (hgo.lasts.name hname)]
  · cases hok.symm.trans hact

theorem label_resolves (ha : s.target.Awaits []) (hl : s.target.Labelled)
    (hs : s.target.labels = []) (hvisits : visits s = front ++ v :: back)
    (hmark : v.mark = .label x) (hnew : ¬Visit.Places front x)
    (hk : (outcome (statement s)).function.OnlyBlock ("label." ++ x) k) :
    ∃ d, Build.placeLabel x v.site.target = .ok () d ∧ d.current = k ∧
      d.function.blocks[k]? = some (.empty ("label." ++ x)) := by
  have hv : v ∈ visits s := hvisits ▸ List.mem_append_right _ (.head _)
  obtain ⟨hfront, hend⟩ := statement_split ha hvisits
  have hfits : v.mark.Fits v.site.target := by
    rw [hmark]
    intro hd
    rcases hfront.defines_iff.mp hd with ⟨label, hm, _⟩ | hplaced
    · rw [hs] at hm
      cases hm
    · exact hnew hplaced
  obtain ⟨d, hok⟩ := (fits_iff ha hv).mp hfits
  rcases hend with ⟨d, rest, t, hact, hgo, htarget⟩ | ⟨e, _, hact⟩
  · rw [hmark] at hact
    obtain ⟨ks, hks⟩ := visits_awaits ha hv
    obtain ⟨hcurrent, hblock⟩ := Build.placeLabel_enters hks (hfront.labelled hl) hact
    have hname : d.function.blockNames[d.current]? = some ("label." ++ x) := by
      rw [Function.blockNames, List.getElem?_map, hcurrent, hblock]
      rfl
    rw [← htarget] at hk
    have hd := (hk _).mp (hgo.lasts.name hname)
    exact ⟨d, hact, hd, hd ▸ hcurrent ▸ hblock⟩
  · cases hok.symm.trans hact

theorem label_duplicate (ha : s.target.Awaits []) (hvisits : visits s = front ++ v :: back)
    (hmark : v.mark = .label x) (hplaced : Visit.Places front x) :
    statement s = .error (.duplicateLabel x) v.site := by
  obtain ⟨hfront, hend⟩ := statement_split ha hvisits
  have hdefined := hfront.defines_iff.mpr (.inr hplaced)
  have hact := Build.placeLabel_duplicate hdefined
  rw [hmark] at hend
  rcases hend with ⟨d, rest, t, hok, _⟩ | ⟨e, hr, herror⟩
  · cases hok.symm.trans hact
  · cases herror.symm.trans hact
    exact hr

/-- The labels that are left to define are those of a goto that no definition comes with. -/
theorem mem_undefined_iff {t : Site Draft} (hl : s.target.Labelled)
    (hs : s.target.labels = []) (h : statement s = .ok () t) :
    x ∈ (t.target.labels.filter fun label => !label.defined).map Label.name ↔
      Visit.Jumps (visits s) x ∧ ¬Visit.Places (visits s) x := by
  have hw : Walk s (visits s) t := by
    have := statement_walks s
    rwa [h] at this
  have hmentions : ¬s.target.Mentions x := by simp [Draft.Mentions, hs]
  have hdefines : ¬s.target.Defines x := by simp [Draft.Defines, hs]
  rw [(hw.labelled hl).mem_undefined, hw.mentions_iff, hw.defines_iff, or_iff_right hmentions,
    or_iff_right hdefines]
  refine and_congr_left fun hplaced => ⟨?_, ?_⟩
  · rintro ⟨v, hv, hmark | hmark⟩
    · exact ⟨v, hv, hmark⟩
    · exact absurd ⟨v, hv, hmark⟩ hplaced
  · rintro ⟨v, hv, hmark⟩
    exact ⟨v, hv, .inl hmark⟩

theorem isName_of_jumps {t : Site Draft} (ha : s.target.Awaits []) (hs : s.target.labels = [])
    (h : statement s = .ok () t) (hx : Visit.Jumps (visits s) x) : isName x := by
  obtain ⟨v, hv, hmark⟩ := hx
  have ht := statement_trails s.target s (.refl _)
  have hm := mentions_outcome ha hv (.inl hmark)
  rw [h] at ht hm
  refine Trail.isName_labels ht.1 ?_ x hm
  simp [Draft.Mentions, hs]

/-- What the labels make of a body that is compiled without an error. -/
theorem functionBody_resolves {t : Site Draft} (ha : s.target.Awaits [])
    (hl : s.target.Labelled) (hs : s.target.labels = []) (h : statement s = .ok () t) :
    ((∃ r, functionBody s = .ok () r) ↔
        ∀ x, Visit.Jumps (visits s) x → Visit.Places (visits s) x) ∧
      ((∃ x, Visit.Jumps (visits s) x ∧ ¬Visit.Places (visits s) x) →
        ∃ x, functionBody s = .error (.undefinedLabel x) t ∧
          Visit.Jumps (visits s) x ∧ ¬Visit.Places (visits s) x ∧
          ∀ y, Visit.Jumps (visits s) y → ¬Visit.Places (visits s) y → y ≠ x →
            List.Lex (· < ·) (utf8Bytes x) (utf8Bytes y)) := by
  have hundefined (x : String) := mem_undefined_iff (x := x) hl hs h
  have hbody : functionBody s = (do let _ ← build Build.finish) t := bind_of_ok h
  -- Only the labels that are not defined count, and they are those of the gotos without a place.
  cases hleast : leastName
      ((t.target.labels.filter fun label => !label.defined).map Label.name) with
  | none =>
      have hall : ∀ x, Visit.Jumps (visits s) x → Visit.Places (visits s) x := by
        intro x hx
        refine Classical.byContradiction fun hplaced => ?_
        have hm := (hundefined x).mpr ⟨hx, hplaced⟩
        rw [leastName_eq_none_iff.mp hleast] at hm
        cases hm
      have hdefined : ∀ label ∈ t.target.labels, label.defined := by
        intro label hm
        have hnil := List.map_eq_nil_iff.mp (leastName_eq_none_iff.mp hleast)
        simpa using List.filter_eq_nil_iff.mp hnil label hm
      have hfinish : build Build.finish t = .ok t.target.id ⟨t.cursor, _⟩ :=
        build_eq_ok_iff.mpr ⟨Build.finish_eq_ok_iff.mpr
          ⟨hdefined, (statement_awaits ha h).valid, rfl, rfl⟩, rfl⟩
      refine ⟨iff_of_true ⟨_, hbody.trans (bind_of_ok hfinish)⟩ hall, ?_⟩
      rintro ⟨x, hx, hplaced⟩
      exact absurd (hall x hx) hplaced
  | some x =>
      obtain ⟨hmem, hbefore⟩ := leastName_eq_some hleast
      obtain ⟨hx, hplaced⟩ := (hundefined x).mp hmem
      have herror : functionBody s = .error (.undefinedLabel x) t := by
        refine hbody.trans (bind_of_error ?_)
        unfold build
        rw [Build.finish_undefined hleast]
      refine ⟨iff_of_false ?_ fun hall => hplaced (hall x hx),
        fun _ => ⟨x, herror, hx, hplaced, ?_⟩⟩
      · rintro ⟨r, hr⟩
        cases herror.symm.trans hr
      · intro y hy hy' hne
        have hlt := hbefore y ((hundefined y).mpr ⟨hy, hy'⟩) hne
        exact lex_utf8Bytes (isName_of_jumps ha hs h hx) (isName_of_jumps ha hs h hy) hlt

end Body

/-- Whatever the order and the nesting of its gotos and labels, a function resolves them all alike.
A label has one block from its first mention on, into which every goto to it branches and in which
the statement behind it starts. Two labels have two blocks, and no label is defined twice. A body
that is compiled without an error makes a function if it defines all labels that it goes to;
otherwise the first of the others, by the order of bytes, is undefined. -/
theorem labels_resolve {name : String} {params : List String} {p : Program} {d : Draft}
    (hd : Draft.start name params p = .ok d) (c : Cursor) :
    (∀ x, Visit.Jumps (visits ⟨c, d⟩) x ∨ Visit.Places (visits ⟨c, d⟩) x →
      ∃ k, (outcome (functionBody ⟨c, d⟩)).function.OnlyBlock ("label." ++ x) k ∧
        (∀ v ∈ visits ⟨c, d⟩, v.mark = .goto x → v.site.target.isOpen →
          (outcome (functionBody ⟨c, d⟩)).function.terminator? v.site.target.current =
            some (.branch k)) ∧
        ∀ front v back, visits ⟨c, d⟩ = front ++ v :: back → v.mark = .label x →
          ¬Visit.Places front x →
          ∃ d', Build.placeLabel x v.site.target = .ok () d' ∧ d'.current = k ∧
            d'.function.blocks[k]? = some (.empty ("label." ++ x)) ∧
            ∀ (body : Body) e, label x body e v.site = labelled body e ⟨v.site.cursor, d'⟩) ∧
    (∀ x y k, (outcome (functionBody ⟨c, d⟩)).function.OnlyBlock ("label." ++ x) k →
      (outcome (functionBody ⟨c, d⟩)).function.OnlyBlock ("label." ++ y) k → x = y) ∧
    (∀ x front v back, visits ⟨c, d⟩ = front ++ v :: back → v.mark = .label x →
      Visit.Places front x → statement ⟨c, d⟩ = .error (.duplicateLabel x) v.site) ∧
    ∀ t, statement ⟨c, d⟩ = .ok () t →
      ((∃ r, functionBody ⟨c, d⟩ = .ok () r) ↔
        ∀ x, Visit.Jumps (visits ⟨c, d⟩) x → Visit.Places (visits ⟨c, d⟩) x) ∧
      ((∃ x, Visit.Jumps (visits ⟨c, d⟩) x ∧ ¬Visit.Places (visits ⟨c, d⟩) x) →
        ∃ x, functionBody ⟨c, d⟩ = .error (.undefinedLabel x) t ∧
          Visit.Jumps (visits ⟨c, d⟩) x ∧ ¬Visit.Places (visits ⟨c, d⟩) x ∧
          ∀ y, Visit.Jumps (visits ⟨c, d⟩) y → ¬Visit.Places (visits ⟨c, d⟩) y → y ≠ x →
            List.Lex (· < ·) (utf8Bytes x) (utf8Bytes y)) := by
  have ha : d.Awaits [] := .start hd
  obtain ⟨hl, hnone⟩ := Draft.Labelled.start hd
  refine ⟨fun x hx => ?_, fun x y k hx hy => ?_, fun x front v back hvisits hmark hplaced => ?_,
    fun t ht => functionBody_resolves ha hl hnone ht⟩
  · have hquiet := quiet_functionBody ⟨c, d⟩
    have hm : (outcome (statement ⟨c, d⟩)).Mentions x := by
      rcases hx with ⟨v, hv, hmark⟩ | ⟨v, hv, hmark⟩
      · exact mentions_outcome ha hv (.inl hmark)
      · exact mentions_outcome ha hv (.inr hmark)
    obtain ⟨label, hlabel, rfl⟩ := hm
    have hlabelled := outcome_labelled (s := ⟨c, d⟩) ha hl
    have hk := hlabelled.onlyBlock hlabel
    refine ⟨label.block, (hlabelled.quiet hquiet).onlyBlock (hquiet.labels ▸ hlabel),
      fun v hv hmark hopen => ?_, fun front v back hvisits hmark hnew => ?_⟩
    · exact (Draft.Lasts.quiet hquiet).ends _ _ (goto_resolves ha hl hv hmark hopen hk)
    · obtain ⟨d', hplace, hcurrent, hblock⟩ := label_resolves ha hl hnone hvisits hmark hnew hk
      exact ⟨d', hplace, hcurrent, hblock, fun body e =>
        bind_of_ok (build_eq_ok_iff.mpr ⟨hplace, rfl⟩)⟩
  · have hnames := hx.name.symm.trans hy.name
    simpa only [Option.some.injEq, String.append_right_inj] using hnames
  · exact label_duplicate ha hvisits hmark hplaced

/-- Of two labels that are used and never defined, the first by its bytes is reported, although it
is the second in the text. -/
theorem labels_resolve_undefined :
    ∃ d t, Draft.start "f" [] (.empty "m" 8) = .ok d ∧
      functionBody ⟨.ofText "\x7b goto c; a: goto b; goto a; \x7d" 8, d⟩ =
        .error (.undefinedLabel "b") t := by
  have hmarks : ((Draft.start "f" [] (.empty "m" 8)).toOption.any fun d =>
      (visits ⟨.ofText "\x7b goto c; a: goto b; goto a; \x7d" 8, d⟩).map Visit.mark ==
        [.statement, .statement, .goto "c", .statement, .label "a", .statement, .goto "b",
          .statement, .goto "a"] &&
      (accepted? (statement ⟨.ofText "\x7b goto c; a: goto b; goto a; \x7d" 8, d⟩)).isSome) =
        true := by
    decide +kernel
  cases hd : Draft.start "f" [] (.empty "m" 8) with
  | error r =>
      rw [hd] at hmarks
      cases hmarks
  | ok d =>
      rw [hd] at hmarks
      simp only [Except.toOption, Option.any_some, Bool.and_eq_true, beq_iff_eq] at hmarks
      obtain ⟨hmarks, hok⟩ := hmarks
      have hmem (mark : Mark) : (∃ v ∈ visits _, v.mark = mark) ↔ mark ∈ _ :=
        List.mem_map.symm.trans (iff_of_eq (congrArg (mark ∈ ·) hmarks))
      have hjumps (x : String) : Visit.Jumps (visits _) x ↔ _ := hmem (.goto x)
      have hplaces (x : String) : Visit.Places (visits _) x ↔ _ := hmem (.label x)
      obtain ⟨⟨_, t⟩, ht⟩ := Option.isSome_iff_exists.mp hok
      have ht := accepted?_eq_some.mp ht
      have hb := And.intro ((hjumps "b").mpr (by decide)) (mt (hplaces "b").mp (by decide))
      obtain ⟨x, hx, hjump, hplace, hleast⟩ := ((labels_resolve hd _).2.2.2 t ht).2 ⟨"b", hb⟩
      have hcases : x = "c" ∨ x = "b" ∨ x = "a" := by simpa using (hjumps x).mp hjump
      rcases hcases with rfl | rfl | rfl
      · exact absurd (hleast "b" hb.1 hb.2 (by decide)) (by decide +kernel)
      · exact ⟨d, t, rfl, hx⟩
      · exact absurd ((hplaces "a").mpr (by decide)) hplace

end Pass

end BCompiler
