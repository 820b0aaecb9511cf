import BCompiler.Proofs.Await
import BCompiler.Proofs.Frame

/-!
The stack slots of a function.

Parameters and locals have their slots at the top of the first block, wherever in the body they are
declared, one behind the other as they are declared. Nothing else makes a slot, and no two names
share one.
-/
namespace BCompiler

/-- Whether an instruction makes a stack slot. -/
def Instr.isSlot : Instr → Bool
  | .define _ operation => operation.isSlot
  | .store _ _ => false

/-- The slot of a parameter or a local: its name, the number of its value, and its words. -/
structure Slot where
  name : String
  id : ValueId
  words : Option UInt64
  deriving DecidableEq, Repr

namespace Slot

def instr (s : Slot) : Instr := .define s.id (.alloca s.words)

/-- What the slot is for. -/
def purpose (s : Slot) : String × Option UInt64 := (s.name, s.words)

/-- How the name stands for the slot. -/
def binding (s : Slot) : String × Operand := (s.name, .value s.id)

end Slot

namespace Visit

/-- The local that is declared at a mark, with its words. -/
def local? (v : Visit) : Option (String × Option UInt64) :=
  match v.mark with
  | .auto name size =>
    if (v.site.target.locals.lookup name).isNone then
      some (name, size.map fun n => Build.localArrayLength n.count)
    else
      none
  | _ => none

/-- The locals that are declared at the marks, in order. -/
def locals (visits : List Visit) : List (String × Option UInt64) := visits.filterMap local?

end Visit

/-- The names up to the first that stands there twice or among the given ones. -/
def firstDistinct (seen : List String) : List String → List String
  | [] => []
  | name :: names => if name ∈ seen then [] else name :: firstDistinct (seen ++ [name]) names

/-- The first block begins with the slots, in order, and there is no other slot. -/
structure Function.Hoisted (slots : List Slot) (f : Function) : Prop where
  entry : ∃ b rest, f.blocks[0]? = some b ∧ b.instrs = slots.map Slot.instr ++ rest ∧
    ∀ instr ∈ rest, instr.isSlot = false
  others : ∀ i b, i ≠ 0 → f.blocks[i]? = some b → ∀ instr ∈ b.instrs, instr.isSlot = false
  increasing : (slots.map Slot.id).Pairwise (· < ·)

/-- The instruction is put behind the slots of the first block, in front of all other code. -/
def Function.Inserts (instr : Instr) (f g : Function) : Prop :=
  ∃ b top rest, f.blocks[0]? = some b ∧ b.instrs = top ++ rest ∧
    (∀ x ∈ top, x.isSlot) ∧ (∀ x ∈ rest, x.isSlot = false) ∧
    g.blocks = f.blocks.set 0 { b with instrs := top ++ instr :: rest }

/-- The function has the slots, and the local names stand for them. -/
structure Draft.Slotted (slots : List Slot) (d : Draft) : Prop
    extends d.function.Hoisted slots where
  below : ∀ s ∈ slots, s.id < d.function.nextValue
  count : d.function.slots = slots.length
  locals : d.locals = (slots.map Slot.binding).reverse
  names : (slots.map Slot.name).Nodup

theorem lookup_of_mem {α β : Type} [BEq α] [LawfulBEq α] {l : List (α × β)} {a : α} {b : β}
    (h : (l.map Prod.fst).Nodup) (hm : (a, b) ∈ l) : l.lookup a = some b := by
  induction l with
  | nil => cases hm
  | cons x l ih =>
      obtain ⟨hx, hl⟩ := List.nodup_cons.mp h
      rcases List.mem_cons.mp hm with rfl | hm
      · exact List.lookup_cons_self
      · have hne : (a == x.1) = false := by
          refine beq_false_of_ne ?_
          rintro rfl
          exact hx (List.mem_map.mpr ⟨_, hm, rfl⟩)
        rw [List.lookup_cons, hne]
        exact ih hl hm

theorem insertIdx_length_append {α : Type} (top rest : List α) (a : α) :
    (top ++ rest).insertIdx top.length a = top ++ a :: rest := by
  induction top with
  | nil => rfl
  | cons x top ih => rw [List.cons_append, List.length_cons, List.insertIdx_succ_cons, ih]; rfl

namespace Function.Hoisted

variable {slots : List Slot} {f g : Function}

/-- More code at the end of a block, without a slot in it. -/
theorem onBlock {id : BlockId} {change : Block → Block} (h : f.Hoisted slots)
    (hblocks : g.blocks = (f.onBlock id change).blocks)
    (hchange : ∀ b, ∃ more, (change b).instrs = b.instrs ++ more ∧
      ∀ instr ∈ more, instr.isSlot = false) : g.Hoisted slots where
  entry := by
    obtain ⟨b, rest, hb, hinstrs, hrest⟩ := h.entry
    rw [hblocks, getElem?_onBlock, hb]
    split
    · obtain ⟨more, hmore, hslots⟩ := hchange b
      refine ⟨change b, rest ++ more, rfl, by rw [hmore, hinstrs, List.append_assoc], ?_⟩
      exact fun instr hm => (List.mem_append.mp hm).elim (hrest instr) (hslots instr)
    · exact ⟨b, rest, rfl, hinstrs, hrest⟩
  others i b hi hb := by
    rw [hblocks, getElem?_onBlock] at hb
    split at hb
    · obtain ⟨old, hold, rfl⟩ := Option.map_eq_some_iff.mp hb
      obtain ⟨more, hmore, hslots⟩ := hchange old
      intro instr hm
      rw [hmore] at hm
      exact (List.mem_append.mp hm).elim (h.others i old hi hold instr) (hslots instr)
    · exact h.others i b hi hb
  increasing := h.increasing

theorem addBlock (h : f.Hoisted slots) (name : String) : (f.addBlock name).2.Hoisted slots where
  entry := by
    obtain ⟨b, rest, hb, hrest⟩ := h.entry
    refine ⟨b, rest, ?_, hrest⟩
    rw [blocks_addBlock, List.getElem?_append_left (List.getElem?_eq_some_iff.mp hb).1, hb]
  others i b hi hb := by
    rw [blocks_addBlock, List.getElem?_append] at hb
    split at hb
    · exact h.others i b hi hb
    · have hm := List.mem_of_getElem? hb
      rw [List.mem_singleton.mp hm]
      exact fun _ hinstr => absurd hinstr List.not_mem_nil
  increasing := h.increasing

end Function.Hoisted

namespace Draft.Slotted

variable {slots : List Slot} {d d' : Draft}

theorem quiet (h : d.Slotted slots) (hq : Quiet d d') : d'.Slotted slots := by
  induction hq with
  | refl => exact h
  | trans _ _ ih₁ ih₂ => exact ih₂ (ih₁ h)
  | define _ hs =>
      refine { h with
        toHoisted := h.toHoisted.onBlock rfl fun b => ⟨[_], rfl, ?_⟩
        below := fun s hm => Nat.lt_succ_of_lt (h.below s hm) }
      exact fun instr hm => List.mem_singleton.mp hm ▸ hs
  | store _ =>
      refine { h with toHoisted := h.toHoisted.onBlock rfl fun b => ⟨[_], rfl, ?_⟩ }
      exact fun instr hm => List.mem_singleton.mp hm ▸ rfl
  | ended _ =>
      exact { h with
        toHoisted := h.toHoisted.onBlock rfl fun b =>
          ⟨[], (List.append_nil b.instrs).symm, fun _ hm => absurd hm List.not_mem_nil⟩ }
  | addBlock _ => exact { h with toHoisted := h.toHoisted.addBlock _ }
  | nextNumber | goTo | program => exact { h with }

theorem lookup {s : Slot} (h : d.Slotted slots) (hm : s ∈ slots) :
    d.locals.lookup s.name = some (.value s.id) := by
  rw [h.locals]
  refine lookup_of_mem ?_ (List.mem_reverse.mpr (List.mem_map.mpr ⟨s, hm, rfl⟩))
  rw [List.map_reverse, List.map_map]
  exact List.pairwise_reverse.mpr (h.names.imp Ne.symm)

/-- A new slot comes behind the others, in front of all other code. -/
theorem withSlot {name : String} (h : d.Slotted slots) (hnew : d.locals.lookup name = none)
    (words : Option UInt64) :
    (d.withSlot name words).Slotted (slots ++ [⟨name, d.function.nextValue, words⟩]) where
  entry := by
    obtain ⟨b, rest, hb, hinstrs, hrest⟩ := h.entry
    refine ⟨b.insert d.function.slots (.define d.function.nextValue (.alloca words)), rest, ?_, ?_,
      hrest⟩
    · change (d.function.onBlock 0 _).blocks[0]? = _
      rw [Function.getElem?_onBlock, if_pos rfl, hb]
      rfl
    · change b.instrs.insertIdx d.function.slots _ = _
      rw [hinstrs, h.count, ← List.length_map Slot.instr, insertIdx_length_append]
      simp [Slot.instr]
  others i b hi hb := by
    change (d.function.onBlock 0 _).blocks[i]? = _ at hb
    rw [Function.getElem?_onBlock, if_neg hi] at hb
    exact h.others i b hi hb
  increasing := by
    rw [List.map_append, List.pairwise_append]
    refine ⟨h.increasing, List.pairwise_singleton _ _, fun i hi j hj => ?_⟩
    obtain ⟨s, hs, rfl⟩ := List.mem_map.mp hi
    rw [List.mem_singleton.mp hj]
    exact h.below s hs
  below s hs := by
    rcases List.mem_append.mp hs with hs | hs
    · exact Nat.lt_succ_of_lt (h.below s hs)
    · rw [List.mem_singleton.mp hs]
      exact Nat.lt_succ_self _
  count := by
    rw [List.length_append]
    exact congrArg (· + 1) h.count
  locals := by
    rw [List.map_append, List.reverse_append, ← h.locals]
    rfl
  names := by
    rw [List.map_append, List.nodup_append]
    refine ⟨h.names, List.pairwise_singleton _ _, fun x hx y hy => ?_⟩
    obtain ⟨s, hs, rfl⟩ := List.mem_map.mp hx
    rw [List.mem_singleton.mp hy]
    rintro rfl
    rw [h.lookup hs] at hnew
    cases hnew

theorem exists_of_lookup {x : String} {a : Operand} (h : d.Slotted slots)
    (hx : d.locals.lookup x = some a) : ∃ s ∈ slots, s.name = x ∧ .value s.id = a := by
  obtain ⟨front, back, hsplit, _⟩ := List.lookup_eq_some_iff.mp hx
  have hm : (x, a) ∈ (slots.map Slot.binding).reverse := by
    rw [← h.locals, hsplit]
    exact List.mem_append_right _ (.head _)
  obtain ⟨s, hs, hbinding⟩ := List.mem_map.mp (List.mem_reverse.mp hm)
  obtain ⟨hname, hvalue⟩ := Prod.mk.inj hbinding
  exact ⟨s, hs, hname, hvalue⟩

/-- No two names stand for the same slot. -/
theorem eq_of_lookup {x y : String} {a : Operand} (h : d.Slotted slots)
    (hx : d.locals.lookup x = some a) (hy : d.locals.lookup y = some a) : x = y := by
  obtain ⟨s, hs, rfl, hid⟩ := h.exists_of_lookup hx
  obtain ⟨s', hs', rfl, hid'⟩ := h.exists_of_lookup hy
  have hnodup : (slots.map Slot.id).Nodup := h.increasing.imp Nat.ne_of_lt
  have heq : s.id = s'.id := Operand.value.inj (hid.trans hid'.symm)
  rw [eq_of_nodup_map hnodup hs hs' heq]

theorem lookup_eq_none_iff {x : String} (h : d.Slotted slots) :
    d.locals.lookup x = none ↔ x ∉ slots.map Slot.name := by
  constructor
  · intro hx hm
    obtain ⟨s, hs, rfl⟩ := List.mem_map.mp hm
    rw [h.lookup hs] at hx
    cases hx
  · intro hx
    cases hl : d.locals.lookup x with
    | none => rfl
    | some a =>
        obtain ⟨s, hs, rfl, _⟩ := h.exists_of_lookup hl
        exact absurd (List.mem_map.mpr ⟨s, hs, rfl⟩) hx

/-- The rest of the function stays as it was when a slot is made. -/
theorem slot_inserts {name : String} {words : Option UInt64} {a : Operand} (h : d.Slotted slots)
    (hs : Build.slot name words d = .ok a d') :
    a = .value d.function.nextValue ∧
      d.function.Inserts (.define d.function.nextValue (.alloca words)) d'.function := by
  obtain ⟨_, _, rfl, rfl⟩ := Build.slot_eq_ok_iff.mp hs
  obtain ⟨b, rest, hb, hinstrs, hrest⟩ := h.entry
  refine ⟨rfl, b, slots.map Slot.instr, rest, hb, hinstrs, fun x hx => ?_, hrest, ?_⟩
  · obtain ⟨s, _, rfl⟩ := List.mem_map.mp hx
    rfl
  · change d.function.blocks.modify 0 _ = _
    rw [← Function.set_eq_modify hb, Block.insert, hinstrs, h.count, ← List.length_map Slot.instr,
      insertIdx_length_append]

theorem mentioning (h : d.Slotted slots) (name : String) : (d.mentioning name).Slotted slots := by
  unfold Draft.mentioning
  split
  · exact h
  · exact { h with toHoisted := h.toHoisted.addBlock _ }

theorem change {v : Visit} (h : v.site.target.Slotted slots) (hfits : v.mark.Fits v.site.target) :
    ∃ more, (v.mark.change v.site.target).Slotted (slots ++ more) ∧
      more.map Slot.purpose = v.local?.toList := by
  obtain ⟨mark, site⟩ := v
  cases mark with
  | statement => exact ⟨[], (List.append_nil slots).symm ▸ h, rfl⟩
  | goto name => exact ⟨[], (List.append_nil slots).symm ▸ h.mentioning name, rfl⟩
  | label name =>
      exact ⟨[], (List.append_nil slots).symm ▸ { h.mentioning name with }, rfl⟩
  | auto name size =>
      have hnew : site.target.locals.lookup name = none := hfits
      refine ⟨_, h.withSlot hnew _, ?_⟩
      simp [Visit.local?, hnew, Slot.purpose]

/-- The first parameter gets its slot. -/
theorem spill_cons {param : String} (h : d.Slotted slots) (hv : d.Valid)
    (hnew : param ∉ slots.map Slot.name) (params : List String) :
    ∃ d₁, d₁.Slotted (slots ++ [⟨param, d.function.nextValue, none⟩]) ∧ d₁.Valid ∧
      Build.spill (param :: params) d = Build.spill params d₁ := by
  have hl := h.lookup_eq_none_iff.mpr hnew
  have hslot : Build.slot param none d = .ok _ (d.withSlot param none) :=
    Build.slot_eq_ok_iff.mpr ⟨hl, Nat.zero_lt_of_lt hv, rfl, rfl⟩
  have hv₁ : (d.withSlot param none).Valid :=
    Nat.lt_of_lt_of_eq hv (Function.length_onBlock ..).symm
  have hstore : Build.store (.param param) (.value d.function.nextValue) (d.withSlot param none) =
      .ok () _ := Build.store_eq_ok_iff.mpr ⟨hv₁, rfl⟩
  refine ⟨_, (h.withSlot hl none).quiet ((Build.store_calm _ _).ok hstore), ?_,
    (bind_of_ok hslot).trans (bind_of_ok hstore)⟩
  exact .of_isOpen (Draft.isOpen_append (Draft.isOpen_opened _) _)

/-- If all parameters are stored, each has its slot. -/
theorem spill_ok {params : List String} {u : Unit} (h : d.Slotted slots) (hv : d.Valid)
    (hs : Build.spill params d = .ok u d') :
    ∃ more, d'.Slotted (slots ++ more) ∧ more.map Slot.purpose = params.map fun x => (x, none) := by
  induction params generalizing d slots with
  | nil =>
      obtain ⟨_, rfl⟩ := pure_eq_ok_iff.mp hs
      exact ⟨[], (List.append_nil slots).symm ▸ h, rfl⟩
  | cons param params ih =>
      have hnew : param ∉ slots.map Slot.name := by
        obtain ⟨_, _, hslot, _⟩ := bind_eq_ok_iff.mp hs
        exact h.lookup_eq_none_iff.mp (Build.slot_eq_ok_iff.mp hslot).1
      obtain ⟨d₁, h₁, hv₁, hspill⟩ := h.spill_cons hv hnew params
      obtain ⟨more, hmore, hpurpose⟩ := ih h₁ hv₁ (hspill ▸ hs)
      refine ⟨_ :: more, List.append_assoc .. ▸ hmore, ?_⟩
      rw [List.map_cons, hpurpose]
      rfl

/-- Otherwise a parameter stands there twice, and those before it have their slots. -/
theorem spill_error {params : List String} {e : Error} (h : d.Slotted slots) (hv : d.Valid)
    (hs : Build.spill params d = .error e d') :
    ∃ more, d'.Slotted (slots ++ more) ∧ more.map Slot.purpose =
      (firstDistinct (slots.map Slot.name) params).map fun x => (x, none) := by
  induction params generalizing d slots with
  | nil => cases hs
  | cons param params ih =>
      unfold firstDistinct
      split
      · next hold =>
          have hslot : Build.slot param none d = .error (.redeclared param) d :=
            Build.slot_redeclared (mt h.lookup_eq_none_iff.mp (not_not_intro hold)) none
          cases (bind_of_error hslot).symm.trans hs
          exact ⟨[], (List.append_nil slots).symm ▸ h, rfl⟩
      · next hnew =>
          obtain ⟨d₁, h₁, hv₁, hspill⟩ := h.spill_cons hv hnew params
          obtain ⟨more, hmore, hpurpose⟩ := ih h₁ hv₁ (hspill ▸ hs)
          refine ⟨_ :: more, List.append_assoc .. ▸ hmore, ?_⟩
          rw [List.map_cons, hpurpose, List.map_append]
          rfl

theorem ofFunction (p : Program) (id : FunctionId) (name : String) (params : List String) :
    (Draft.ofFunction p id (.entered name params)).Slotted [] where
  entry := ⟨.empty "entry", [], rfl, rfl, fun _ hm => absurd hm List.not_mem_nil⟩
  others i b hi hb := by
    cases i with
    | zero => exact absurd rfl hi
    | succ i => cases hb
  increasing := .nil
  below _ hm := absurd hm List.not_mem_nil
  count := rfl
  locals := rfl
  names := .nil

end Draft.Slotted

/-- Whatever a step does to a draft, the slots that are there stay first. -/
theorem Trail.slotted {slots : List Slot} {d d' : Draft} (h : Trail d d') (hd : d.Slotted slots) :
    ∃ more, d'.Slotted (slots ++ more) := by
  have hnone {slots : List Slot} {d : Draft} (hd : d.Slotted slots) :
      ∃ more, d.Slotted (slots ++ more) := ⟨[], (List.append_nil slots).symm ▸ hd⟩
  induction h generalizing slots with
  | refl => exact hnone hd
  | trans _ _ ih₁ ih₂ =>
      obtain ⟨more, h₁⟩ := ih₁ hd
      obtain ⟨more', h₂⟩ := ih₂ h₁
      exact ⟨more ++ more', List.append_assoc .. ▸ h₂⟩
  | define ho hs _ => exact hnone (hd.quiet (.define ho hs))
  | store ho _ _ => exact hnone (hd.quiet (.store ho))
  | ended ho _ => exact hnone (hd.quiet (.ended ho))
  | addBlock _ | label _ => exact hnone { hd with toHoisted := hd.toHoisted.addBlock _ }
  | slot hl _ => exact ⟨_, hd.withSlot hl _⟩
  | nextNumber | goTo | labelDefined | string | declare | external => exact hnone { hd with }

namespace Walk

variable {slots : List Slot} {s t : Site Draft} {vs : List Visit}

/-- A walk makes the slots of the locals that are declared on it, in that order. -/
theorem slotted (h : Walk s vs t) (hs : s.target.Slotted slots) :
    ∃ more, t.target.Slotted (slots ++ more) ∧ more.map Slot.purpose = Visit.locals vs := by
  induction h generalizing slots with
  | rest _ hq => exact ⟨[], (List.append_nil slots).symm ▸ hs.quiet hq, rfl⟩
  | @visit _ _ v vs d _ hq ha _ ih =>
      obtain ⟨hfits, hact⟩ := Mark.act_eq_ok ha
      obtain ⟨own, hown, hpurpose⟩ := (hs.quiet hq).change hfits
      obtain ⟨more, hmore, hlocals⟩ := ih (hown.quiet hact)
      refine ⟨own ++ more, List.append_assoc .. ▸ hmore, ?_⟩
      rw [List.map_append, hpurpose, hlocals, Visit.locals, Visit.locals, List.filterMap_cons]
      cases v.local? <;> rfl

end Walk
end BCompiler
