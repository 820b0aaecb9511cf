import BCompiler.Proofs.Trail.History

/-!
Programs whose symbols are distinct and whose references are met.

The functions and globals of a module never share a name, although only some of the steps check for
it: a function is declared by a call only where no global has its name. The symbols of strings begin
with a point and are numbered, so they meet no other.
-/
namespace BCompiler

theorem toString_injective {a b : Nat} (h : toString a = toString b) : a = b := by
  have hdigits : Nat.toDigits 10 a = Nat.toDigits 10 b := by
    rw [← Nat.toList_repr, ← Nat.toList_repr]
    exact congrArg String.toList h
  have hvalue := congrArg (Nat.ofDigitChars 10 · 0) hdigits
  simpa [Nat.ofDigitChars_toDigits] using hvalue

theorem string_append_left_cancel {a b c : String} (h : a ++ b = a ++ c) : b = c := by
  have := congrArg String.toList h
  rw [String.toList_append, String.toList_append] at this
  exact String.toList_injective (List.append_cancel_left this)

theorem isNameStart_of_isName {name : String} (h : isName name) :
    ∃ c rest, name.toList = c :: rest ∧ isNameStart c := by
  unfold isName at h
  cases hl : name.toList with
  | nil =>
      rw [hl] at h
      cases h
  | cons c rest =>
      rw [hl, Bool.and_eq_true] at h
      exact ⟨c, rest, rfl, h.1⟩

theorem GlobalName.isNameStart {name : String} (h : GlobalName name) :
    ∃ c rest, name.toList = c :: rest ∧ isNameStart c := by
  rcases h with h | ⟨x, hx, rfl⟩
  · exact isNameStart_of_isName h
  · obtain ⟨c, rest, hl, hc⟩ := isNameStart_of_isName hx
    exact ⟨c, rest ++ ".data".toList, by rw [String.toList_append, hl]; rfl, hc⟩

/-- The symbol of the string with the given number. -/
def stringSymbol (i : Nat) : String := ".str." ++ toString i

/-- Functions and globals have different names, and strings are numbered. -/
structure Module.WellNamed (m : Module) : Prop where
  functions : m.functionNames.Nodup
  globals : m.globalNames.Nodup
  disjoint : ∀ x ∈ m.functionNames, x ∉ m.globalNames
  functionNamed : ∀ x ∈ m.functionNames, isName x
  globalNamed : ∀ x ∈ m.globalNames, GlobalName x
  strings : m.stringNames = (List.range m.strings.length).map stringSymbol

namespace Module.WellNamed

variable {m m' : Module}

theorem empty (name : String) (wordBits : Nat) : (Module.empty name wordBits).WellNamed where
  functions := .nil
  globals := .nil
  disjoint := fun _ hx => absurd hx List.not_mem_nil
  functionNamed := fun _ hx => absurd hx List.not_mem_nil
  globalNamed := fun _ hx => absurd hx List.not_mem_nil
  strings := rfl

theorem addString (h : m.WellNamed) (text : String) : (m.addString text).2.WellNamed :=
  { h with
    strings := by
      have hnames : (m.addString text).2.stringNames =
          m.stringNames ++ [stringSymbol m.strings.length] := List.map_append
      have hlength : (m.addString text).2.strings.length = m.strings.length + 1 :=
        List.length_append
      rw [hnames, hlength, h.strings, List.range_succ, List.map_append]
      rfl }

/-- A step on the functions alone, which adds no name but one that no global has. -/
theorem of_functions (h : m.WellNamed) {name : String} (hname : isName name)
    (hnew : name ∉ m.globalNames) (hf : m'.functionNames = including name m.functionNames)
    (hrest : m'.globals = m.globals ∧ m'.strings = m.strings) : m'.WellNamed := by
  have hglobals : m'.globalNames = m.globalNames := by rw [globalNames, hrest.1]; rfl
  have hstrings : m'.stringNames = m.stringNames := by rw [stringNames, hrest.2]; rfl
  refine ⟨hf ▸ nodup_including h.functions, hglobals ▸ h.globals, ?_, ?_, hglobals ▸ h.globalNamed,
    by rw [hstrings, hrest.2, h.strings]⟩
  · rw [hf, hglobals]
    intro x hx
    rcases mem_including.mp hx with hx | rfl
    · exact h.disjoint x hx
    · exact hnew
  · rw [hf]
    intro x hx
    rcases mem_including.mp hx with hx | rfl
    · exact h.functionNamed x hx
    · exact hname

theorem defineGlobal (h : m.WellNamed) {name : String} {init : GlobalInit} {i : GlobalId}
    (hname : GlobalName name) (hd : m.defineGlobal name init = .ok (i, m')) : m'.WellNamed := by
  obtain ⟨hfree, hf, hs, hg, _⟩ := defineGlobal_eq_ok hd
  have hfunctions : m'.functionNames = m.functionNames := by rw [functionNames, hf]; rfl
  have hstrings : m'.stringNames = m.stringNames := by rw [stringNames, hs]; rfl
  refine ⟨hfunctions ▸ h.functions, hg ▸ nodup_including h.globals, ?_,
    hfunctions ▸ h.functionNamed, ?_, by rw [hstrings, hs, h.strings]⟩
  · rw [hfunctions, hg]
    intro x hx hx'
    rcases mem_including.mp hx' with hx' | rfl
    · exact h.disjoint x hx hx'
    · rw [hasFunction_iff_mem.mpr hx] at hfree
      cases hfree
  · rw [hg]
    intro x hx
    rcases mem_including.mp hx with hx | rfl
    · exact h.globalNamed x hx
    · exact hname

end Module.WellNamed

namespace Module

variable {m : Module}

theorem mem_insertFunction {f g : Function} (h : g ∈ (m.insertFunction f).2.functions) :
    g ∈ m.functions ∨ g = f := by
  unfold insertFunction at h
  cases hid : m.functionId? f.name with
  | some i =>
      rw [hid] at h
      exact List.mem_or_eq_of_mem_set h
  | none =>
      rw [hid] at h
      simpa using h

theorem mem_declareFunction {name : String} {g : Function}
    (h : g ∈ (m.declareFunction name).2.functions) : g ∈ m.functions ∨ g = .declared name := by
  unfold declareFunction at h
  cases hid : m.functionId? name with
  | some i =>
      rw [hid] at h
      exact .inl h
  | none =>
      rw [hid] at h
      exact mem_insertFunction h

end Module

/-- A function whose code refers to what the module has and nothing else. -/
structure Module.Admits (m : Module) (f : Function) : Prop where
  coherent : f.Coherent ⟨m, []⟩
  params : ∀ x ∈ f.params, isName x

theorem Module.Admits.mono {m m' : Module} (h : m.Retains m') {f : Function} (hf : m.Admits f) :
    m'.Admits f := by
  have hp : Program.Retains ⟨m, []⟩ ⟨m', []⟩ := ⟨h, fun _ => id⟩
  exact ⟨hf.coherent.mono hp, hf.params⟩

theorem Module.admits_declared (m : Module) (name : String) : m.Admits (.declared name) where
  coherent :=
    { once := List.Perm.refl _
      met := fun _ hn => absurd hn List.not_mem_nil
      named := fun _ hn => absurd hn List.not_mem_nil }
  params := fun _ hx => absurd hx List.not_mem_nil

/-- The symbols of a program are distinct, and its functions and globals refer to no others. -/
structure Program.Closed (p : Program) : Prop where
  named : p.module.WellNamed
  bound : p.bound ⊆ p.module.globalNames
  addresses : ∀ g ∈ p.module.globals, ∀ x ∈ g.init.addresses, x ∈ p.module.symbols
  functions : ∀ f ∈ p.module.functions, p.module.Admits f

namespace Program.Closed

variable {p p' : Program}

theorem empty (name : String) (wordSize : Nat) : (Program.empty name wordSize).Closed where
  named := .empty name _
  bound := fun _ hx => hx
  addresses := fun _ hg => absurd hg List.not_mem_nil
  functions := fun _ hf => absurd hf List.not_mem_nil

theorem addString (h : p.Closed) (text : String) : (p.addString text).2.Closed where
  named := h.named.addString text
  bound := h.bound
  addresses := fun g hg x hx =>
    (Module.Retains.addString p.module text).symbols (h.addresses g hg x hx)
  functions := fun f hf => (h.functions f hf).mono (.addString p.module text)

/-- A step on the functions alone. -/
theorem of_functions (h : p.Closed) {m : Module} (hm : m.WellNamed) (hr : p.module.Retains m)
    (hrest : m.globals = p.module.globals)
    (hf : ∀ f ∈ m.functions, f ∈ p.module.functions ∨ m.Admits f) :
    ({ p with module := m }).Closed where
  named := hm
  bound := List.Subset.trans h.bound hr.globals
  addresses := fun g hg x hx => hr.symbols (h.addresses g (hrest ▸ hg) x hx)
  functions := fun f hm => (hf f hm).elim (fun hold => (h.functions f hold).mono hr) id

theorem declareFunction (h : p.Closed) {name : String} (hname : isName name)
    (hnew : name ∉ p.module.globalNames) : (p.declareFunction name).Closed := by
  have hrest := p.module.declareFunction_others name
  refine h.of_functions (h.named.of_functions hname hnew
    (p.module.functionNames_declareFunction name) hrest) (.declareFunction p.module name) hrest.1 ?_
  intro f hf
  rcases Module.mem_declareFunction hf with hf | rfl
  · exact .inl hf
  · exact .inr (Module.admits_declared _ name)

/-- A new global, with the bindings that there may be in it. -/
theorem defineGlobal (h : p.Closed) {name : String} {init : GlobalInit} {i : GlobalId}
    {m : Module} {bound : List String} (hname : GlobalName name)
    (hinit : ∀ x ∈ init.addresses, x ∈ p.module.symbols)
    (hd : p.module.defineGlobal name init = .ok (i, m)) (hb : bound ⊆ m.globalNames) :
    Program.Closed ⟨m, bound⟩ := by
  have hr := Module.Retains.defineGlobal hd
  obtain ⟨_, hf, _, _, hg⟩ := Module.defineGlobal_eq_ok hd
  refine ⟨h.named.defineGlobal hname hd, hb, fun g hgm x hx => ?_, fun f hm => ?_⟩
  · rcases hg g hgm with hgm | rfl
    · exact hr.symbols (h.addresses g hgm x hx)
    · exact hr.symbols (hinit x hx)
  · exact (h.functions f (hf ▸ hm)).mono hr

theorem bindExternal (h : p.Closed) {name : String} (hname : isName name)
    (hb : p.bindExternal name = .ok p') : p'.Closed := by
  rcases bindExternal_cases hb with ⟨_, rfl⟩ | ⟨hg, rfl⟩ | ⟨i, m, _, hd, rfl⟩
  · exact h
  · refine { h with bound := fun x hx => ?_ }
    rcases List.mem_cons.mp hx with rfl | hx
    · exact Module.hasGlobal_iff_mem.mp hg
    · exact h.bound hx
  · refine h.defineGlobal (.inl hname) (fun _ hx => absurd hx List.not_mem_nil) hd fun x hx => ?_
    obtain ⟨_, _, _, hg, _⟩ := Module.defineGlobal_eq_ok hd
    rw [hg]
    rcases List.mem_cons.mp hx with rfl | hx
    · exact mem_including.mpr (.inr rfl)
    · exact mem_including.mpr (.inl (h.bound hx))

/-- What is bound is a global, so no reference depends on a binding. -/
theorem admits (h : p.Closed) {f : Function} (hf : f.Coherent p)
    (hparams : ∀ x ∈ f.params, isName x) : p.module.Admits f := by
  refine ⟨⟨hf.once, fun need hn => ?_, hf.named⟩, hparams⟩
  cases hf.met need hn with
  | const w => exact .const w
  | param hx => exact .param hx
  | symbol hs =>
      refine .symbol ⟨hs.1, .inl (hs.2.elim id fun hb => ?_)⟩
      simp [Module.symbols, h.bound hb]
  | value hi => exact .value hi
  | callee hs hm => exact .callee hs hm
  | block hk => exact .block hk

end Program.Closed

theorem Trail.closed {d d' : Draft} (ht : Trail d d') (h : d.program.Closed) :
    d'.program.Closed := by
  induction ht with
  | refl d => exact h
  | trans _ _ ih₁ ih₂ => exact ih₂ (ih₁ h)
  | define | store | ended | addBlock | nextNumber | goTo | slot | label | labelDefined => exact h
  | string d text => exact h.addString text
  | declare hname hnew => exact h.declareFunction hname hnew
  | external hname hb => exact h.bindExternal hname hb

theorem Growth.closed {p p' : Program} (hg : Growth p p') (h : p.Closed) : p'.Closed := by
  induction hg with
  | refl p => exact h
  | trans _ _ ih₁ ih₂ => exact ih₂ (ih₁ h)
  | string p text => exact h.addString text
  | global hname hinit hd =>
      obtain ⟨i, m, hm, rfl⟩ := Program.defineGlobal_eq_ok hd
      exact h.defineGlobal hname hinit hm
        (List.Subset.trans h.bound (Module.Retains.defineGlobal hm).globals)
  | clearScope p => exact { h with bound := fun _ hx => absurd hx List.not_mem_nil }
  | @function p name params i m d hname hparams hd ht =>
      obtain ⟨hnew, hi⟩ := Module.defineFunction_eq_ok hd
      obtain ⟨g, hg, hgname⟩ := Module.name_of_insertFunction hi
      obtain ⟨g', hg', hgname'⟩ := ht.place hg hgname
      -- the program in which the draft begins, with an empty function in its place
      have hm : m = (p.module.insertFunction (.entered name params)).2 := by rw [hi]
      have hstart : ({ p with module := m }).Closed := by
        subst hm
        have hrest := p.module.insertFunction_others (.entered name params)
        refine h.of_functions (h.named.of_functions hname hnew
          (p.module.functionNames_insertFunction _) hrest) (.insertFunction _ _) hrest.1 ?_
        intro f hf
        rcases Module.mem_insertFunction hf with hf | rfl
        · exact .inl hf
        · have hc := (Draft.Coherent.ofFunction
            ⟨(p.module.insertFunction (.entered name params)).2, []⟩ i name params).toCoherent
          exact .inr ⟨hc, hparams⟩
      have hd := ht.closed hstart
      have hadmits : d.program.module.Admits d.function := by
        refine hd.admits (ht.coherent (.ofFunction _ _ _ _)).toCoherent fun x hx => ?_
        rw [ht.retains.params] at hx
        exact hparams x hx
      have hnames := Module.functionNames_setFunction hg' hgname'.symm
      have hretains : d.program.module.Retains d.close.module :=
        .of_functions (hnames.symm ▸ fun _ => id) ⟨rfl, rfl⟩
      refine hd.of_functions (m := d.program.module.setFunction d.id d.function) ?_ hretains rfl ?_
      · exact { hd.named with
          functions := hnames.symm ▸ hd.named.functions
          disjoint := hnames.symm ▸ hd.named.disjoint
          functionNamed := hnames.symm ▸ hd.named.functionNamed }
      · intro f hf
        rcases List.mem_or_eq_of_mem_set hf with hf | rfl
        · exact .inl hf
        · exact .inr (hadmits.mono hretains)

/-- Whatever was compiled in a session, its symbols are distinct and its references are met. -/
theorem Session.closed_history (moduleName : String) (wordSize : Nat)
    (sources : List (String × String)) :
    ((Session.new moduleName wordSize).history sources).program.Closed :=
  (Session.growth_history sources (.new moduleName wordSize)).closed (.empty moduleName wordSize)

end BCompiler
