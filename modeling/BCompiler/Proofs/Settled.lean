import BCompiler.Proofs.Assembly.Module
import BCompiler.Proofs.Naming.Function
import BCompiler.Proofs.Scope

/-!
What a session holds whose sources were all accepted.

Each function is a bare declaration or was compiled to the end, so whatever holds of all such
functions holds of it. In particular a call through a pointer takes one that an instruction has
computed. Each global has an initializer of the kind that its name tells. Nothing is held at all
unless something is declared: strings come with a function or a global.
-/
namespace BCompiler

def Instr.callsComputed : Instr → Bool
  | define _ operation => operation.callsComputed
  | store _ _ => true

/-- Every pointer that the function calls is the value of an instruction. -/
def Function.CallsComputed (f : Function) : Prop := ∀ instr ∈ f.instrs, instr.callsComputed

namespace Function

/-- A change of a block that adds nothing but instructions of one kind. -/
theorem mem_of_mem_instrs_onBlock {f : Function} {id : BlockId} {change : Block → Block}
    {P : Instr → Prop} (h : ∀ b, ∀ instr ∈ (change b).instrs, instr ∈ b.instrs ∨ P instr)
    {instr : Instr} (hi : instr ∈ (f.onBlock id change).instrs) : instr ∈ f.instrs ∨ P instr := by
  obtain ⟨k, b, hb, hi⟩ := mem_instrs.mp hi
  rw [getElem?_onBlock] at hb
  by_cases hk : k = id
  · rw [if_pos hk] at hb
    obtain ⟨b', hb', rfl⟩ := Option.map_eq_some_iff.mp hb
    exact (h b' instr hi).imp_left fun hi => mem_instrs.mpr ⟨k, b', hb', hi⟩
  · rw [if_neg hk] at hb
    exact .inl (mem_instrs.mpr ⟨k, b, hb, hi⟩)

theorem CallsComputed.onBlock {f : Function} {id : BlockId} {change : Block → Block}
    (h : ∀ b, ∀ instr ∈ (change b).instrs, instr ∈ b.instrs ∨ instr.callsComputed)
    (hf : f.CallsComputed) : (f.onBlock id change).CallsComputed :=
  fun instr hi => (mem_of_mem_instrs_onBlock h hi).elim (hf instr) fun hnew => hnew

end Function

namespace Block

theorem mem_append_instrs {instr new : Instr} {b : Block} (h : instr ∈ (b.append new).instrs) :
    instr ∈ b.instrs ∨ instr = new :=
  (List.mem_append.mp h).imp_right List.mem_singleton.mp

theorem mem_insert_instrs {instr new : Instr} {place : Nat} {b : Block}
    (h : instr ∈ (b.insert place new).instrs) : instr ∈ b.instrs ∨ instr = new := by
  unfold insert at h
  by_cases hp : place ≤ b.instrs.length
  · exact ((List.mem_insertIdx hp).mp h).symm
  · dsimp only at h
    rw [List.insertIdx_of_length_lt (Nat.not_le.mp hp)] at h
    exact .inl h

end Block

theorem Draft.callsComputed_carried :
    Carried fun d d' => d.function.CallsComputed → d'.function.CallsComputed where
  refl _ h := h
  trans h h' hd := h' (h hd)
  define _ _ hcalls := .onBlock fun _ _ hi =>
    (Block.mem_append_instrs hi).imp_right fun he => by rw [he]; exact hcalls
  append _ _ _ := .onBlock fun _ _ hi =>
    (Block.mem_append_instrs hi).imp_right fun he => by rw [he]; rfl
  endedBy _ _ _ _ := .onBlock fun _ _ hi => .inl hi
  addBlock d name h := by
    unfold Function.CallsComputed
    rw [Draft.addBlock, Function.instrs_addBlock]
    exact h
  goTo _ _ h := h
  nextNumber _ h := h
  withSlot _ _ _ := .onBlock fun _ _ hi =>
    (Block.mem_insert_instrs hi).imp_right fun he => by rw [he]; rfl
  withLabels _ _ h := h
  program _ _ _ h := h

/-- By the course of its body: each step that calls a pointer has computed it before. -/
theorem Function.callsComputed_of_body : OfBodies CallsComputed := by
  refine OfBodies.of_carried Draft.callsComputed_carried fun name params instr hi => ?_
  cases hi

/-- In an accepted source, a declaration that begins a function defines it. -/
theorem Pass.functions_headingsAt (depth : Nat) {s s' : Site Program} {u : Unit}
    (h : declarationsAt depth s = .ok u s') :
    (headingsAt depth s).flatMap Heading.functions = definedAt depth s := by
  induction depth generalizing s with
  | zero => cases throw_ne_ok h
  | succ depth ih =>
      obtain ⟨name, s₁, hn, h⟩ := bind_eq_ok_iff.mp h
      rw [headingsAt, definedAt, hn]
      by_cases hname : name = ""
      · simp only [hname, if_true, List.flatMap_nil]
      · rw [if_neg hname] at h
        obtain ⟨_, r, hd, h⟩ := bind_eq_ok_iff.mp h
        obtain ⟨_, s₂, hu, h⟩ := bind_eq_ok_iff.mp h
        have hone : declared name s₁ = .ok () s₂ := bind_eq_ok_iff.mpr ⟨_, r, hd, hu⟩
        simp only [hname, if_false, hone, List.flatMap_cons, ih h]
        obtain ⟨found, r₁, hp, _⟩ := bind_eq_ok_iff.mp hd
        have hpeek := (scan_eq_ok_iff.mp hp).1
        have hform : Heading.functions ⟨name, s₁⟩ = Form.functions name (some (.ofMark found)) := by
          simp only [Heading.functions, Heading.form?, Cursor.form?, hpeek]
        have hstarts : s₁.cursor.startsFunction = (found == some '(') := by
          simp only [Cursor.startsFunction, hpeek]
        rw [hform, hstarts]
        by_cases hopen : found = some '('
        · subst hopen
          rfl
        · have hother : Form.functions name (some (.ofMark found)) = [] := by
            unfold Form.ofMark
            split
            · exact absurd rfl hopen
            · rfl
            · rfl
          rw [hother, beq_false_of_ne hopen]
          rfl

/-- The module holds no function and no global. -/
def Module.IsBare (m : Module) : Prop := m.functions = [] ∧ m.globals = []

theorem Program.not_isBare_of_defineGlobal {p p' : Program} {name : String} {init : GlobalInit}
    (h : p.defineGlobal name init = .ok p') : ¬p'.module.IsBare := by
  rintro ⟨_, hnone⟩
  obtain ⟨i, m, hm, rfl⟩ := Program.defineGlobal_eq_ok h
  obtain ⟨_, _, _, hnames, _⟩ := Module.defineGlobal_eq_ok hm
  have hmem : name ∈ m.globalNames := hnames ▸ mem_including.mpr (.inr rfl)
  rw [Module.globalNames, hnone] at hmem
  cases hmem

/-- Whatever a declaration declares is there when it is done. -/
theorem Deed.not_isBare {name : String} {form? : Option Form} {p p' : Program}
    (h : Deed name form? p p') : ¬p'.module.IsBare := by
  cases h with
  | scalar _ _ hd =>
      unfold Program.declareScalar at hd
      split at hd <;> exact Program.not_isBare_of_defineGlobal hd
  | array _ _ hd =>
      obtain ⟨_, _, hword⟩ := Program.declareArray_eq_ok hd
      exact Program.not_isBare_of_defineGlobal hword
  | @function _ _ _ _ d _ hd ht =>
      rintro ⟨hnone, _⟩
      obtain ⟨_, hi⟩ := Module.defineFunction_eq_ok hd
      obtain ⟨g, hg, hgname⟩ := Module.name_of_insertFunction hi
      obtain ⟨g', hg', _⟩ := ht.place hg hgname
      have hset : d.program.module.functions.set d.id d.function = [] := hnone
      rw [(List.set_eq_nil_iff _ _).mp hset] at hg'
      cases hg'

/-- By induction on the bound: the first declaration would be there to the end. -/
theorem Pass.module_of_isBare (depth : Nat) {s s' : Site Program} {u : Unit}
    (h : declarationsAt depth s = .ok u s') (hbare : s'.target.module.IsBare) :
    s'.target.module = s.target.module := by
  induction depth generalizing s with
  | zero => cases throw_ne_ok h
  | succ depth ih =>
      obtain ⟨name, s₁, hn, h⟩ := bind_eq_ok_iff.mp h
      have hs₁ := (scan_eq_ok_iff.mp hn).2
      by_cases hname : name = ""
      · rw [if_pos hname] at h
        obtain ⟨next, s₂, hp, h⟩ := bind_eq_ok_iff.mp h
        have hs₂ := (scan_eq_ok_iff.mp hp).2
        cases next with
        | none =>
            cases h
            rw [hs₂, hs₁]
        | some mark => cases throw_ne_ok h
      · rw [if_neg hname] at h
        obtain ⟨_, r, hd, h⟩ := bind_eq_ok_iff.mp h
        obtain ⟨_, s₂, hu, h⟩ := bind_eq_ok_iff.mp h
        have hdeed := declaration_attempts name s₁
        rw [hd] at hdeed
        cases hu
        have hrest := ih h
        rw [hrest] at hbare
        exact absurd hbare hdeed.not_isBare

namespace Session

theorem functionsOf_of_compile {path text : String} {s s' : Session} {u : Unit}
    (h : compile path text s = .ok u s') : s.functionsOf text = s.definedFunctions text := by
  unfold compile at h
  split at h
  · next v site hd => exact Pass.functions_headingsAt _ hd
  · cases h

theorem after_of_compile {path text : String} {s s' : Session} {u : Unit}
    (h : compile path text s = .ok u s') : s.after path text = s' := by
  unfold after
  rw [h]

/-- Each function of the session is a bare declaration, or one of which `P` holds. -/
def Settled (P : Function → Prop) (s : Session) : Prop :=
  ∀ f ∈ s.module.functions, f = .declared f.name ∨ P f

theorem Settled.after {P : Function → Prop} (hP : OfDefinitions P) {path text : String}
    {s : Session} (hs : s.Settled P) (hclosed : s.program.Closed) (h : s.accepts path text) :
    (s.after path text).Settled P := by
  obtain ⟨s', hcompile⟩ := exists_of_accepts h
  have hspares := Module.Spares.deeds (s.deeds_after path text)
  change Module.Spares (s.functionsOf text) _ _ _ at hspares
  rw [functionsOf_of_compile hcompile] at hspares
  intro f hf
  by_cases hn : f.name ∈ s.definedFunctions text
  · obtain ⟨g, hg, hPg⟩ := function?_of_definitions hP hcompile hn
    rw [← after_of_compile hcompile] at hg
    have hname : g.name = f.name := by simpa using List.find?_some hg
    have hdistinct := ((growth_after path text s).closed hclosed).named.functions
    obtain rfl : g = f := eq_of_nodup_map hdistinct (Module.mem_of_function? hg) hf hname
    exact .inr hPg
  · exact (hspares.functions.added f hf hn).elim (hs f) .inl

theorem Settled.history {P : Function → Prop} (hP : OfDefinitions P)
    {sources : List (String × String)} {s : Session} (hs : s.Settled P)
    (hclosed : s.program.Closed) (h : s.acceptsAll sources) : (s.history sources).Settled P := by
  induction sources generalizing s with
  | nil => exact hs
  | cons source sources ih =>
      obtain ⟨hfirst, hrest⟩ := Bool.and_eq_true_iff.mp h
      exact ih (hs.after hP hclosed hfirst) ((growth_after _ _ s).closed hclosed) hrest

theorem settled_history {P : Function → Prop} (hP : OfDefinitions P) {moduleName : String}
    {wordSize : Nat} {sources : List (String × String)}
    (h : (new moduleName wordSize).acceptsAll sources) :
    ((new moduleName wordSize).history sources).Settled P := by
  have hnew : (new moduleName wordSize).Settled P := fun f hf => absurd hf List.not_mem_nil
  exact hnew.history hP (.empty moduleName wordSize) h

theorem module_after_of_isBare {s : Session} {path text : String} (h : s.accepts path text)
    (hbare : (s.after path text).module.IsBare) : (s.after path text).module = s.module := by
  obtain ⟨s', hcompile⟩ := exists_of_accepts h
  rw [after_of_compile hcompile] at hbare ⊢
  unfold compile at hcompile
  split at hcompile
  · next u site hd =>
      cases hcompile
      exact Pass.module_of_isBare _ hd hbare
  · cases hcompile

/-- Accepted sources that leave no function and no global leave nothing. -/
theorem module_history_of_isBare {s : Session} {sources : List (String × String)}
    (h : s.acceptsAll sources) (hbare : (s.history sources).module.IsBare) :
    (s.history sources).module = s.module := by
  induction sources generalizing s with
  | nil => rfl
  | cons source sources ih =>
      obtain ⟨hfirst, hrest⟩ := Bool.and_eq_true_iff.mp h
      have hlast := ih hrest hbare
      have hfirst := module_after_of_isBare hfirst (hlast ▸ hbare)
      exact hlast.trans hfirst

end Session

def GlobalInit.isBuffer : GlobalInit → Bool
  | buffer _ _ => true
  | word _ | words _ | placeholder => false

/-- A property that a global has as it is made, whether by a declaration or because a name is used
that is not declared yet. -/
structure Global.Innate (P : Global → Prop) : Prop where
  word {x : String} (hx : isName x) {init : GlobalInit} (h : init.isBuffer = false) : P ⟨x, init⟩
  buffer (x : String) (size : UInt64) (values : List Constant) :
    P ⟨x ++ ".data", .buffer (Program.arrayLength size values) values⟩

/-- Every global of the module has the property. -/
def Module.EachGlobal (P : Global → Prop) (m : Module) : Prop := ∀ g ∈ m.globals, P g

namespace Module.EachGlobal

variable {P : Global → Prop} {p p' : Program}

theorem defineGlobal {m m' : Module} {name : String} {init : GlobalInit} {id : GlobalId}
    (h : m.EachGlobal P) (hnew : P ⟨name, init⟩) (hd : m.defineGlobal name init = .ok (id, m')) :
    m'.EachGlobal P := by
  obtain ⟨_, _, _, _, hglobals⟩ := Module.defineGlobal_eq_ok hd
  intro g hg
  rcases hglobals g hg with hg | rfl
  · exact h g hg
  · exact hnew

theorem defineGlobalOf {name : String} {init : GlobalInit} (h : p.module.EachGlobal P)
    (hnew : P ⟨name, init⟩) (hd : p.defineGlobal name init = .ok p') :
    p'.module.EachGlobal P := by
  obtain ⟨i, m, hm, rfl⟩ := Program.defineGlobal_eq_ok hd
  exact h.defineGlobal hnew hm

theorem strung (hs : Strung p p') (h : p.module.EachGlobal P) : p'.module.EachGlobal P := by
  induction hs with
  | refl => exact h
  | string text _ ih => exact ih

theorem bindExternal (hP : Global.Innate P) {name : String} (hname : isName name)
    (h : p.module.EachGlobal P) (hb : p.bindExternal name = .ok p') :
    p'.module.EachGlobal P := by
  rcases Program.bindExternal_cases hb with ⟨_, rfl⟩ | ⟨_, rfl⟩ | ⟨id, m', _, hd, rfl⟩
  · exact h
  · exact h
  · exact h.defineGlobal (hP.word hname rfl) hd

theorem trail (hP : Global.Innate P) {d d' : Draft} (ht : Trail d d')
    (h : d.program.module.EachGlobal P) : d'.program.module.EachGlobal P := by
  induction ht with
  | trans _ _ ih₁ ih₂ => exact ih₂ (ih₁ h)
  | @declare d name _ _ =>
      intro g hg
      exact h g ((d.program.module.declareFunction_others name).1 ▸ hg)
  | external hname hb => exact h.bindExternal hP hname hb
  | refl | define | store | ended | addBlock | nextNumber | goTo | slot | label | labelDefined
  | string => exact h

theorem deed (hP : Global.Innate P) {name : String} (hname : isName name) {form? : Option Form}
    (hd : Deed name form? p p') (h : p.module.EachGlobal P) : p'.module.EachGlobal P := by
  cases hd with
  | scalar hs _ hd =>
      have hstrung := strung hs h
      unfold Program.declareScalar at hd
      split at hd <;> exact hstrung.defineGlobalOf (hP.word hname rfl) hd
  | array hs _ hd =>
      obtain ⟨p₁, hbuffer, hword⟩ := Program.declareArray_eq_ok hd
      have hdata := (strung hs h).defineGlobalOf (hP.buffer ..) hbuffer
      exact hdata.defineGlobalOf (hP.word hname rfl) hword
  | @function _ params i m d _ hd ht =>
      obtain ⟨_, hi⟩ := Module.defineFunction_eq_ok hd
      have hothers := (p.module.insertFunction_others (.entered name params)).1
      rw [hi] at hothers
      exact trail (d := .ofFunction { p with module := m } i (.entered name params)) hP ht
        fun g hg => h g (hothers ▸ hg)

theorem deeds (hP : Global.Innate P) {os : List Heading} (hd : Deeds os p p')
    (h : p.module.EachGlobal P) : p'.module.EachGlobal P := by
  induction hd with
  | nil p => exact h
  | broken hname hlast => exact hlast.elim (fun hs => strung hs h) fun hd => deed hP hname hd h
  | cons hname hd _ ih =>
      have hfirst := deed hP hname hd h
      exact ih hfirst

end Module.EachGlobal

/-- Whatever was compiled in a session, its globals are as they were made. -/
theorem Session.eachGlobal_history {P : Global → Prop} (hP : Global.Innate P) (moduleName : String)
    (wordSize : Nat) (sources : List (String × String)) :
    ((new moduleName wordSize).history sources).module.EachGlobal P := by
  have hrun : ∀ (s : Session), s.module.EachGlobal P → (s.history sources).module.EachGlobal P := by
    induction sources with
    | nil => exact fun _ h => h
    | cons source sources ih =>
        exact fun s h => ih _ (Module.EachGlobal.deeds hP (s.deeds_after source.1 source.2) h)
  exact hrun _ fun g hg => absurd hg List.not_mem_nil

/-- The name tells the kind: the buffer of an array has a dot in its name, and nothing else has. -/
def Global.Telling (g : Global) : Prop := g.init.isBuffer = g.name.toList.contains '.'

theorem dot_not_mem_of_isName {x : String} (h : isName x) : '.' ∉ x.toList := by
  intro hm
  have hsafe : ∀ c ∈ x.toList, isNameChar c := by
    unfold isName at h
    cases hx : x.toList with
    | nil => exact fun _ hc => absurd hc List.not_mem_nil
    | cons first rest =>
        rw [hx] at h
        obtain ⟨hfirst, hrest⟩ := Bool.and_eq_true_iff.mp h
        intro c hc
        rcases List.mem_cons.mp hc with rfl | hc
        · exact Bool.or_eq_true_iff.mpr (.inl hfirst)
        · exact List.all_eq_true.mp hrest c hc
  exact absurd (hsafe '.' hm) (by decide)

theorem Global.innate_telling : Innate Telling where
  word hx init h := by
    have hdot := dot_not_mem_of_isName hx
    simp [Telling, h, hdot]
  buffer x size values := by
    have hdot : '.' ∈ ".data".toList := by decide
    simp only [Telling, GlobalInit.isBuffer, String.toList_append, List.contains_eq_mem,
      List.mem_append, hdot, or_true, decide_true]

end BCompiler
