import BCompiler.Proofs.Declaration
import BCompiler.Proofs.Scope
import BCompiler.Proofs.Slot

/-!
The functions of a session and their stack slots.

A function that is defined in a module stands there as its declaration has left it, whether that
was accepted or not, unless it was defined anew. So its slots are those of the parameters and locals
that the declaration has declared.
-/
namespace BCompiler

/-- On a trail, functions are added to the module as declared ones only. -/
theorem Trail.functions {d d' : Draft} (h : Trail d d') :
    ∃ more, d'.program.module.functions = d.program.module.functions ++ more ∧
      ∀ f ∈ more, f = .declared f.name := by
  induction h with
  | trans _ _ ih₁ ih₂ =>
      obtain ⟨more, hmore, hall⟩ := ih₁
      obtain ⟨more', hmore', hall'⟩ := ih₂
      refine ⟨more ++ more', by rw [hmore', hmore, List.append_assoc], fun f hf => ?_⟩
      exact (List.mem_append.mp hf).elim (hall f) (hall' f)
  | @declare d name _ _ =>
      change ∃ more, (d.program.module.declareFunction name).2.functions = _ ∧ _
      unfold Module.declareFunction
      cases hid : d.program.module.functionId? name with
      | some id => exact ⟨[], (List.append_nil _).symm, nofun⟩
      | none =>
          have hnone : d.program.module.functionId? (Function.declared name).name = none := hid
          simp only [Module.insertFunction, hnone]
          exact ⟨[.declared name], rfl, fun f hf => List.mem_singleton.mp hf ▸ rfl⟩
  | external _ hb =>
      exact ⟨[], (Program.functions_bindExternal hb).trans (List.append_nil _).symm, nofun⟩
  | refl | define | store | ended | addBlock | nextNumber | goTo | slot | label | labelDefined
  | string => exact ⟨[], (List.append_nil _).symm, nofun⟩

/-- What is put in the place of a function that was inserted takes the place of no other. -/
theorem Module.mem_set_insertFunction {m m' : Module} {f g h : Function} {i : FunctionId}
    (hi : m.insertFunction f = (i, m')) (hh : h ∈ m'.functions.set i g) :
    h = g ∨ h ∈ m.functions := by
  unfold insertFunction at hi
  split at hi
  · cases hi
    rw [setFunction, List.set_set] at hh
    exact (List.mem_or_eq_of_mem_set hh).symm
  · cases hi
    rw [List.set_append_right _ _ (Nat.le_refl _), Nat.sub_self] at hh
    exact (List.mem_append.mp hh).symm.imp_left List.mem_singleton.mp

/-- The functions of a module behind a draft: that of the draft, those from before it, and others
that were declared meanwhile. -/
theorem Trail.mem_close {p : Program} {name : String} {params : List String} {i : FunctionId}
    {m : Module} {d : Draft} {f : Function} (hd : p.module.defineFunction name params = .ok (i, m))
    (h : Trail (.ofFunction { p with module := m } i (.entered name params)) d)
    (hf : f ∈ d.close.module.functions) :
    f = d.function ∨ f ∈ p.module.functions ∨ f = .declared f.name := by
  obtain ⟨_, hi⟩ := Module.defineFunction_eq_ok hd
  obtain ⟨g, hg, _⟩ := Module.name_of_insertFunction hi
  obtain ⟨more, hmore, hall⟩ := h.functions
  change f ∈ d.program.module.functions.set d.id d.function at hf
  rw [hmore, h.retains.id] at hf
  change f ∈ (m.functions ++ more).set i d.function at hf
  rw [List.set_append_left _ _ (List.getElem?_eq_some_iff.mp hg).1] at hf
  rcases List.mem_append.mp hf with hf | hf
  · exact (Module.mem_set_insertFunction hi hf).imp_right .inl
  · exact .inr (.inr (hall f hf))

/-- A function that begins: its parameters have been read, and it has its place in the module. -/
structure Beginning where
  params : List String
  site : Site Draft
  deriving DecidableEq, Repr

namespace Beginning

/-- The marks in the body. There are none if the parameters cannot be stored. -/
def marks (b : Beginning) : List Visit :=
  match Build.spill b.params b.site.target with
  | .ok _ d => Pass.visits ⟨b.site.cursor, d⟩
  | .error _ _ => []

/-- The parameters and the locals that are declared, with their words, in the order of the text. A
parameter that stands there twice is where the declaration ends. -/
def declares (b : Beginning) : List (String × Option UInt64) :=
  match Build.spill b.params b.site.target with
  | .ok _ _ => b.params.map (fun x => (x, none)) ++ Visit.locals b.marks
  | .error _ _ => (firstDistinct [] b.params).map fun x => (x, none)

/-- The draft as it is left, whether the body is accepted or not. -/
def draft (b : Beginning) : Draft :=
  match Build.spill b.params b.site.target with
  | .ok _ d => Pass.outcome (Pass.functionBody ⟨b.site.cursor, d⟩)
  | .error _ d => d

/-- The marks come one after the other in the text. -/
theorem follows_marks (b : Beginning) :
    b.marks.Pairwise fun u v => u.site.cursor.Follows v.site.cursor := by
  unfold marks
  split
  · exact (Pass.statement_walks _).follows
  · exact .nil

end Beginning

/-- The function that a declaration begins, if it gets so far. -/
def Heading.beginning? (o : Heading) : Option Beginning :=
  match Pass.scan Scan.peekMark o.site with
  | .ok (some '(') s =>
    match (Pass.scan Scan.read >>= fun _ => Pass.parameters) s with
    | .ok params t =>
      match t.target.module.defineFunction o.name params with
      | .ok (i, m) =>
        some ⟨params, t.cursor,
          .ofFunction { t.target with module := m } i (.entered o.name params)⟩
      | .error _ => none
    | .error _ _ => none
  | _ => none

theorem Pass.read_parameters_leads (s : Site Program) :
    Leads Eq Site.target s (fun params _ => ∀ x ∈ params, isName x)
      ((scan Scan.read >>= fun _ => parameters) s) :=
  scan_bind_trails (fun _ _ _ r _ => parameters_leads r) s rfl

/-- Where a function begins. -/
theorem Heading.beginning?_eq_some {o : Heading} {b : Beginning} (h : o.beginning? = some b) :
    ∃ i m, o.site.target.module.defineFunction o.name b.params = .ok (i, m) ∧
      b.site.target =
        .ofFunction { o.site.target with module := m } i (.entered o.name b.params) := by
  unfold beginning? at h
  split at h
  · next s hpeek =>
      obtain ⟨_, hs⟩ := Pass.scan_eq_ok_iff.mp hpeek
      split at h
      · next params t hparams =>
          have hleads := Pass.read_parameters_leads s
          rw [hparams] at hleads
          have ht : t.target = o.site.target := hleads.1.symm.trans hs
          split at h
          · next i m hd =>
              cases h
              rw [ht] at hd ⊢
              exact ⟨i, m, hd, rfl⟩
          · cases h
      · cases h
  · cases h

/-- Where a mark fails, no local is declared. -/
theorem Visit.local?_of_not_fits {v : Visit} (h : ¬v.mark.Fits v.site.target) :
    v.local? = none := by
  obtain ⟨mark, site⟩ := v
  cases mark with
  | statement | goto | label => rfl
  | auto name size =>
      have hold : (site.target.locals.lookup name).isNone = false := by
        simpa [Mark.Fits] using h
      unfold local?
      simp only [hold, Bool.false_eq_true, if_false]

/-- The parameters and locals that are declared have their slots, in that order. -/
theorem Beginning.slotted {b : Beginning} (h : b.site.target.Slotted [])
    (hv : b.site.target.Awaits []) :
    ∃ slots, b.draft.Slotted slots ∧ slots.map Slot.purpose = b.declares := by
  unfold draft declares marks
  cases hs : Build.spill b.params b.site.target with
  | error e d => exact h.spill_error hv.valid hs
  | ok u d =>
      obtain ⟨params, hparams, hpurpose⟩ := h.spill_ok hv.valid hs
      obtain ⟨done, t, hw, ht, hdone⟩ := (Pass.statement_walks ⟨b.site.cursor, d⟩).walk
        (Pass.visits_valid (hv.spill hs))
      obtain ⟨more, hmore, hlocals⟩ := hw.slotted hparams
      have hall : Visit.locals (Pass.visits ⟨b.site.cursor, d⟩) = Visit.locals done := by
        rcases hdone with hdone | ⟨v, _, hdone, rfl, _, _, hfits⟩
        · rw [hdone]
        · rw [hdone, Visit.locals, List.filterMap_append,
            List.filterMap_cons_none (Visit.local?_of_not_fits hfits), List.filterMap_nil,
            List.append_nil, Visit.locals]
      refine ⟨params ++ more, (ht ▸ hmore).quiet (Pass.quiet_functionBody _), ?_⟩
      dsimp only
      rw [List.map_append, hpurpose, hlocals, hall]

/-- However the body ends, a trail leads to the draft that is left. -/
theorem Beginning.trail {b : Beginning} (h : b.params ⊆ b.site.target.function.params) :
    Trail b.site.target b.draft := by
  have hspill : Leads Trail id b.site.target (fun _ _ => True)
      (Build.spill b.params b.site.target) := Build.spill_trails (fun _ hx => h hx) _ (.refl _)
  unfold draft
  cases hs : Build.spill b.params b.site.target with
  | error e d =>
      rw [hs] at hspill
      exact hspill
  | ok u d =>
      rw [hs] at hspill
      have hbody := Pass.functionBody_trails d ⟨b.site.cursor, d⟩ (.refl d)
      dsimp only
      cases hr : Pass.functionBody ⟨b.site.cursor, d⟩ with
      | error e t =>
          rw [hr] at hbody
          exact hspill.1.trans hbody
      | ok u t =>
          rw [hr] at hbody
          exact hspill.1.trans hbody.1

namespace Heading

variable {o : Heading}

theorem trail_of_beginning {b : Beginning} (h : o.beginning? = some b) :
    ∃ i m, o.site.target.module.defineFunction o.name b.params = .ok (i, m) ∧
      Trail (.ofFunction { o.site.target with module := m } i (.entered o.name b.params))
        b.draft := by
  obtain ⟨i, m, hd, hb⟩ := beginning?_eq_some h
  refine ⟨i, m, hd, hb ▸ Beginning.trail ?_⟩
  rw [hb]
  exact fun _ hx => hx

/-- A declaration without a function of its own adds functions as declared ones only. -/
theorem mem_functions_of_form {f : Function} (h : o.form? ≠ some .function)
    (hf : f ∈ (Pass.outcome (Pass.declaration o.name o.site)).module.functions) :
    f ∈ o.site.target.module.functions ∨ f = .declared f.name := by
  have hnone : Form.functions o.name o.form? = [] := by
    unfold Form.functions
    split
    · next heq => exact absurd heq h
    · rfl
  have hspares (p : Program)
      (hp : Strung o.site.target p ∨ Deed o.name o.form? o.site.target p)
      (hf : f ∈ p.module.functions) :
      f ∈ o.site.target.module.functions ∨ f = .declared f.name := by
    rcases hp with hs | hd
    · exact (Module.Spares.strung hs).functions.added f hf List.not_mem_nil
    · refine (Module.Spares.deed hd).functions.added f hf ?_
      rw [hnone]
      exact List.not_mem_nil
  have hattempt := Pass.declaration_attempts o.name o.site
  cases hd : Pass.declaration o.name o.site with
  | ok u t =>
      rw [hd] at hattempt hf
      exact hspares t.target (.inr hattempt) hf
  | error e t =>
      rw [hd] at hattempt hf
      exact hspares t.target hattempt hf

/-- A declaration that begins a function leaves the draft of that function in the program. -/
theorem outcome_declaration (h : o.form? = some .function) :
    Pass.outcome (Pass.declaration o.name o.site) = o.site.target ∨
      ∃ b, o.beginning? = some b ∧
        Pass.outcome (Pass.declaration o.name o.site) = b.draft.close := by
  obtain ⟨found, c, hpeek, hfound⟩ : ∃ found c, Scan.peekMark o.site.cursor = .ok found c ∧
      Form.ofMark found = .function := by
    unfold form? Cursor.form? at h
    split at h
    · next found c hpeek => exact ⟨found, c, hpeek, Option.some.inj h⟩
    · cases h
  obtain rfl : found = some '(' := by
    unfold Form.ofMark at hfound
    split at hfound <;> trivial
  have hmark : Pass.scan Scan.peekMark o.site = .ok (some '(') ⟨c, o.site.target⟩ :=
    Pass.scan_of_ok hpeek
  have hdeclaration : Pass.declaration o.name o.site =
      ((Pass.scan Scan.read >>= fun _ => Pass.parameters) >>= fun params =>
        Pass.drafted o.name params Pass.functionBody) ⟨c, o.site.target⟩ := by
    rw [bind_assoc]
    exact bind_of_ok hmark
  rw [hdeclaration]
  have hleads := Pass.read_parameters_leads ⟨c, o.site.target⟩
  cases hparams : (Pass.scan Scan.read >>= fun _ => Pass.parameters) ⟨c, o.site.target⟩ with
  | error e t =>
      rw [hparams] at hleads
      rw [bind_of_error hparams]
      exact .inl hleads.symm
  | ok params t =>
      rw [hparams] at hleads
      rw [bind_of_ok hparams]
      have ht : t.target = o.site.target := hleads.1.symm
      unfold Pass.drafted Draft.start
      cases hd : t.target.module.defineFunction o.name params with
      | error e => exact .inl ht
      | ok r =>
          have hbegins : o.beginning? = some ⟨params, t.cursor,
              .ofFunction { t.target with module := r.2 } r.1 (.entered o.name params)⟩ := by
            unfold beginning?
            simp only [hmark, hparams, hd]
          -- A draft is closed in the same way wherever it breaks off.
          refine .inr ⟨_, hbegins, ?_⟩
          unfold Beginning.draft
          dsimp only
          cases Build.spill params
            (.ofFunction { t.target with module := r.2 } r.1 (.entered o.name params)) with
          | error e d => rfl
          | ok u d =>
              dsimp only
              cases Pass.functionBody ⟨t.cursor, d⟩ <;> rfl

/-- The functions behind a declaration are those from before it, declared ones, and the one that the
declaration itself has begun. -/
theorem mem_functions {f : Function}
    (hf : f ∈ (Pass.outcome (Pass.declaration o.name o.site)).module.functions) :
    f ∈ o.site.target.module.functions ∨ f = .declared f.name ∨
      ∃ b, o.beginning? = some b ∧ b.draft.function = f := by
  by_cases hform : o.form? = some .function
  · rcases outcome_declaration hform with hkept | ⟨b, hb, hclose⟩
    · exact .inl (hkept ▸ hf)
    · rw [hclose] at hf
      obtain ⟨_, _, hd, ht⟩ := trail_of_beginning hb
      rcases ht.mem_close hd hf with rfl | hf | hf
      · exact .inr (.inr ⟨b, hb, rfl⟩)
      · exact .inl hf
      · exact .inr (.inl hf)
  · exact (mem_functions_of_form hform hf).imp_right .inl

end Heading

/-- The function is one that the declaration has begun, as it was left. -/
def Heading.Leaves (o : Heading) (f : Function) : Prop :=
  ∃ b, o.beginning? = some b ∧ b.draft.function = f

/-- By induction on the bound: each declaration adds its own function. -/
theorem Pass.mem_functions_declarationsAt (depth : Nat) {s : Site Program} {f : Function}
    (hf : f ∈ (outcome (declarationsAt depth s)).module.functions) :
    f ∈ s.target.module.functions ∨ f = .declared f.name ∨
      ∃ o ∈ headingsAt depth s, o.Leaves f := by
  induction depth generalizing s with
  | zero => exact .inl hf
  | succ depth ih =>
      obtain ⟨c, p⟩ := s
      cases hn : Scan.name c with
      | error e c₁ =>
          rw [declarationsAt, bind_of_error (scan_of_error hn)] at hf
          exact .inl hf
      | ok name c₁ =>
          rw [declarationsAt, bind_of_ok (scan_of_ok hn)] at hf
          rw [headingsAt, scan_of_ok hn]
          by_cases hempty : name = ""
          · simp only [hempty, if_true] at hf
            obtain ⟨next, hp⟩ : ∃ next, Scan.peek c₁ = .ok next c₁ := ⟨_, rfl⟩
            rw [bind_of_ok (scan_of_ok hp)] at hf
            cases next <;> exact .inl hf
          · simp only [hempty, if_false] at hf ⊢
            have hhere {f : Function}
                (hf : f ∈ (outcome (declaration name ⟨c₁, p⟩)).module.functions) :=
              Heading.mem_functions (o := ⟨name, c₁, p⟩) hf
            cases hd : declaration name ⟨c₁, p⟩ with
            | error e t =>
                rw [bind_of_error hd] at hf
                rw [hd] at hhere
                exact (hhere hf).imp_right (.imp_right fun h => ⟨_, .head _, h⟩)
            | ok u t =>
                rw [bind_of_ok hd] at hf
                rw [declared_of_ok hd]
                rw [hd] at hhere
                -- The scope ends with the declaration, and the functions stay.
                change f ∈ (outcome (declarationsAt depth
                  ⟨t.cursor, t.target.clearScope⟩)).module.functions at hf
                rcases ih hf with hf | hf | ⟨o, ho, hf⟩
                · exact (hhere hf).imp_right (.imp_right fun h => ⟨_, .head _, h⟩)
                · exact .inr (.inl hf)
                · exact .inr (.inr ⟨o, .tail _ ho, hf⟩)

namespace Session

theorem program_after (s : Session) (path text : String) :
    (s.after path text).program =
      Pass.outcome (Pass.declarations ⟨.ofText text s.wordSize, s.program⟩) := by
  unfold after compile
  cases Pass.declarations ⟨.ofText text s.wordSize, s.program⟩ <;> rfl

theorem mem_functions_after {s : Session} {path text : String} {f : Function}
    (hf : f ∈ (s.after path text).module.functions) :
    f ∈ s.module.functions ∨ f = .declared f.name ∨ ∃ o ∈ s.headings text, o.Leaves f := by
  change f ∈ (s.after path text).program.module.functions at hf
  rw [program_after] at hf
  exact Pass.mem_functions_declarationsAt _ hf

/-- Where the functions of a session come from. -/
theorem mem_functions_history {s : Session} {sources : List (String × String)} {f : Function}
    (hf : f ∈ (s.history sources).module.functions) :
    f ∈ s.module.functions ∨ f = .declared f.name ∨
      ∃ before path text after, sources = before ++ (path, text) :: after ∧
        ∃ o ∈ (s.history before).headings text, o.Leaves f := by
  induction sources generalizing s with
  | nil => exact .inl hf
  | cons source sources ih =>
      rcases ih (s := s.after source.1 source.2) hf with
        hf | hf | ⟨before, path, text, after, rfl, hleaves⟩
      · refine (mem_functions_after hf).imp_right (.imp_right fun hleaves => ?_)
        exact ⟨[], source.1, source.2, sources, rfl, hleaves⟩
      · exact .inr (.inl hf)
      · exact .inr (.inr ⟨source :: before, path, text, after, rfl, hleaves⟩)

/-- The function of a session, however its declaration has ended, begins with the slots of its
parameters and then of its locals in the order in which they are declared in the text. There is one
for each of them, with the words that are stated, no two names stand for the same one, and there is
no other slot anywhere. While the function is compiled, a slot is put between the slots and the
other code. -/
theorem slots_hoisted (moduleName : String) (wordSize : Nat) (sources : List (String × String))
    {f : Function} (hf : f ∈ ((new moduleName wordSize).history sources).module.functions) :
    f = .declared f.name ∨
      ∃ before path text after, sources = before ++ (path, text) :: after ∧
        ∃ o ∈ ((new moduleName wordSize).history before).headings text,
        ∃ b, o.beginning? = some b ∧ b.draft.function = f ∧ f.params = b.params ∧
          (∃ slots : List Slot, f.Hoisted slots ∧ slots.map Slot.purpose = b.declares ∧
            (∀ slot ∈ slots, b.draft.locals.lookup slot.name = some (.value slot.id)) ∧
            ∀ x a, b.draft.locals.lookup x = some a →
              ∃ slot ∈ slots, slot.name = x ∧ a = .value slot.id) ∧
          (∀ x y a, b.draft.locals.lookup x = some a → b.draft.locals.lookup y = some a → x = y) ∧
          (b.marks.Pairwise fun u v => u.site.cursor.Follows v.site.cursor) ∧
          ∀ d, o.Drafts d → ∀ name words a d', Build.slot name words d = .ok a d' →
            a = .value d.function.nextValue ∧
              d.function.Inserts (.define d.function.nextValue (.alloca words)) d'.function := by
  refine (mem_functions_history hf).elim (fun hnew => absurd hnew List.not_mem_nil) (.imp_right ?_)
  rintro ⟨before, path, text, after, hsources, o, ho, b, hb, hfunction⟩
  obtain ⟨_, _, _, hbegins⟩ := Heading.beginning?_eq_some hb
  obtain ⟨slots, hslots, hdeclares⟩ :=
    b.slotted (hbegins ▸ .ofFunction _ _ _ _) (hbegins ▸ .ofFunction _ _ _ _)
  obtain ⟨_, _, _, htrail⟩ := Heading.trail_of_beginning hb
  refine ⟨before, path, text, after, hsources, o, ho, b, hb, hfunction,
    hfunction ▸ htrail.retains.params,
    ⟨slots, hfunction ▸ hslots.toHoisted, hdeclares, fun _ => hslots.lookup, ?_⟩,
    fun _ _ _ => hslots.eq_of_lookup, b.follows_marks, ?_⟩
  · intro x a hx
    obtain ⟨slot, hm, hname, hvalue⟩ := hslots.exists_of_lookup hx
    exact ⟨slot, hm, hname, hvalue.symm⟩
  · rintro d ⟨params, i, m, _, ht⟩ name words a d' hslot
    obtain ⟨own, hown⟩ := ht.slotted (.ofFunction _ _ _ _)
    exact hown.slot_inserts hslot

/-- A function that breaks off where `x` is declared again: the local in the branch has its slot at
the top of the function, behind those of the parameter and of `x`. -/
theorem slots_hoisted_brokenOff :
    ∃ f ∈ ((new "b" 8).history [("a.b",
        "f(a) \x7b auto x; if (a) \x7b auto v[3]; \x7d auto x, y;")]).module.functions,
      f.blocks.length = 4 ∧ ∃ slots, f.Hoisted slots ∧
        slots.map Slot.purpose = [("a", none), ("x", none), ("v", some 4)] := by
  have hbuilt : ∃ f ∈ ((new "b" 8).history [("a.b",
      "f(a) \x7b auto x; if (a) \x7b auto v[3]; \x7d auto x, y;")]).module.functions,
      f.blocks.length = 4 := by decide +kernel
  have hdeclares : ((new "b" 8).headings
      "f(a) \x7b auto x; if (a) \x7b auto v[3]; \x7d auto x, y;").all (fun o =>
        o.beginning?.all fun b => b.declares == [("a", none), ("x", none), ("v", some 4)]) := by
    decide +kernel
  obtain ⟨f, hf, hblocks⟩ := hbuilt
  refine ⟨f, hf, hblocks, ?_⟩
  rcases slots_hoisted "b" 8 _ hf with
    hnone | ⟨before, path, text, after, hsources, o, ho, b, hb, _, _,
      ⟨slots, hslots, hpurpose, _⟩, _⟩
  · rw [hnone] at hblocks
    cases hblocks
  · cases before with
    | cons source before => simp at hsources
    | nil =>
        cases hsources
        have hall := List.all_eq_true.mp hdeclares o ho
        rw [hb] at hall
        exact ⟨slots, hslots, hpurpose.trans (eq_of_beq hall)⟩

end Session
end BCompiler
