import BCompiler.Proofs.Definition

/-!
The symbols of a module: the names of its functions, globals and strings.

A symbol stays once it is there. Each step on a module adds one symbol of one kind, or none if the
symbol is there already.
-/
namespace BCompiler

/-- The list, with the item behind it unless it holds the item. -/
def including (item : String) (items : List String) : List String :=
  if item ∈ items then items else items ++ [item]

theorem mem_including {item other : String} {items : List String} :
    other ∈ including item items ↔ other ∈ items ∨ other = item := by
  unfold including
  split
  · next h => exact ⟨.inl, fun ho => ho.elim id fun he => he ▸ h⟩
  · simp

theorem subset_including (item : String) (items : List String) : items ⊆ including item items :=
  fun _ h => mem_including.mpr (.inl h)

theorem nodup_including {item : String} {items : List String} (h : items.Nodup) :
    (including item items).Nodup := by
  unfold including
  split
  · exact h
  · next hn =>
      refine List.nodup_append.mpr ⟨h, by simp, ?_⟩
      rintro a ha b hb rfl
      exact hn (List.mem_singleton.mp hb ▸ ha)

/-- An entry that takes the place of its namesake changes no name. -/
theorem map_set_of_eq {α β : Type} {f : α → β} {l : List α} {i : Nat} {a b : α}
    (h : l[i]? = some b) (hf : f a = f b) : (l.set i a).map f = l.map f := by
  obtain ⟨hlt, rfl⟩ := List.getElem?_eq_some_iff.mp h
  have hlt' : i < (l.map f).length := by rwa [List.length_map]
  have hsame : f a = (l.map f)[i] := by rw [hf, List.getElem_map]
  rw [List.map_set, hsame, List.set_getElem_self]

theorem eq_of_nodup_map {α β : Type} {g : α → β} {items : List α} (h : (items.map g).Nodup)
    {a b : α} (ha : a ∈ items) (hb : b ∈ items) (he : g a = g b) : a = b := by
  induction items with
  | nil => cases ha
  | cons c items ih =>
      obtain ⟨hnew, h⟩ := List.nodup_cons.mp h
      cases ha with
      | head =>
          cases hb with
          | head => rfl
          | tail _ hb => exact absurd (List.mem_map.mpr ⟨b, hb, he.symm⟩) hnew
      | tail _ ha =>
          cases hb with
          | head => exact absurd (List.mem_map.mpr ⟨a, ha, he⟩) hnew
          | tail _ hb => exact ih h ha hb

namespace Module

def functionNames (m : Module) : List String := m.functions.map Function.name

def globalNames (m : Module) : List String := m.globals.map Global.name

def stringNames (m : Module) : List String := m.strings.map StringConstant.name

/-- The names of everything that the module introduces. -/
def symbols (m : Module) : List String := m.functionNames ++ m.globalNames ++ m.stringNames

variable {m m' : Module} {name : String}

theorem hasFunction_iff_mem : m.hasFunction name ↔ name ∈ m.functionNames := by
  simp [hasFunction_iff, functionNames]

theorem hasGlobal_iff_mem : m.hasGlobal name ↔ name ∈ m.globalNames := by
  simp [hasGlobal_iff, globalNames]

theorem mem_of_function? {f : Function} (h : m.function? name = some f) : f ∈ m.functions :=
  List.mem_of_find?_eq_some h

theorem functionNames_setFunction {id : FunctionId} {f g : Function}
    (hid : m.functions[id]? = some g) (hname : f.name = g.name) :
    (m.setFunction id f).functionNames = m.functionNames := map_set_of_eq hid hname

theorem functionNames_insertFunction (m : Module) (f : Function) :
    (m.insertFunction f).2.functionNames = including f.name m.functionNames := by
  unfold insertFunction including
  cases hid : m.functionId? f.name with
  | some id =>
      obtain ⟨g, hg, hname⟩ := name_of_functionId? hid
      have hmem : f.name ∈ m.functionNames :=
        hasFunction_iff_mem.mp (by rw [hasFunction, hid]; rfl)
      rw [if_pos hmem, functionNames_setFunction hg hname.symm]
  | none =>
      have hmem : f.name ∉ m.functionNames := fun h => by
        have := hasFunction_iff_mem.mpr h
        rw [hasFunction, hid] at this
        cases this
      rw [if_neg hmem]
      exact List.map_append

theorem functionNames_declareFunction (m : Module) (name : String) :
    (m.declareFunction name).2.functionNames = including name m.functionNames := by
  unfold declareFunction
  cases hid : m.functionId? name with
  | some id =>
      have hmem : name ∈ m.functionNames :=
        hasFunction_iff_mem.mp (by rw [hasFunction, hid]; rfl)
      rw [including, if_pos hmem]
  | none => exact m.functionNames_insertFunction (.declared name)

theorem insertFunction_others (m : Module) (f : Function) :
    (m.insertFunction f).2.globals = m.globals ∧ (m.insertFunction f).2.strings = m.strings := by
  unfold insertFunction
  cases m.functionId? f.name <;> exact ⟨rfl, rfl⟩

theorem declareFunction_others (m : Module) (name : String) :
    (m.declareFunction name).2.globals = m.globals ∧
      (m.declareFunction name).2.strings = m.strings := by
  unfold declareFunction
  cases m.functionId? name with
  | some id => exact ⟨rfl, rfl⟩
  | none => exact m.insertFunction_others _

theorem defineGlobal_eq_ok {init : GlobalInit} {id : GlobalId}
    (h : m.defineGlobal name init = .ok (id, m')) :
    m.hasFunction name = false ∧ m'.functions = m.functions ∧ m'.strings = m.strings ∧
      m'.globalNames = including name m.globalNames ∧
      ∀ g ∈ m'.globals, g ∈ m.globals ∨ g = ⟨name, init⟩ := by
  unfold defineGlobal at h
  split at h
  · cases h
  · next hf =>
      split at h
      · next id' hid =>
          cases h
          obtain ⟨hlt, hname, _⟩ := List.findIdx?_eq_some_iff_getElem.mp hid
          have hmem : name ∈ m.globalNames :=
            hasGlobal_iff_mem.mp (by rw [hasGlobal, hid]; rfl)
          refine ⟨by simpa using hf, rfl, rfl, ?_, fun g hg => ?_⟩
          · rw [including, if_pos hmem]
            exact map_set_of_eq (List.getElem?_eq_getElem hlt) (eq_of_beq hname).symm
          · rcases List.mem_or_eq_of_mem_set hg with hg | hg
            · exact .inl hg
            · exact .inr hg
      · next hid =>
          cases h
          have hmem : name ∉ m.globalNames := fun h => by
            have := hasGlobal_iff_mem.mpr h
            rw [hasGlobal, hid] at this
            cases this
          refine ⟨by simpa using hf, rfl, rfl, ?_, fun g hg => ?_⟩
          · rw [including, if_neg hmem]
            exact List.map_append
          · simpa using hg

end Module

/-- The symbols of a module stay. -/
structure Module.Retains (m m' : Module) : Prop where
  functions : m.functionNames ⊆ m'.functionNames
  globals : m.globalNames ⊆ m'.globalNames
  strings : m.stringNames ⊆ m'.stringNames

namespace Module.Retains

variable {m m₁ m' : Module}

theorem refl (m : Module) : m.Retains m := ⟨fun _ => id, fun _ => id, fun _ => id⟩

theorem trans (h : m.Retains m₁) (h' : m₁.Retains m') : m.Retains m' :=
  ⟨List.Subset.trans h.functions h'.functions, List.Subset.trans h.globals h'.globals,
    List.Subset.trans h.strings h'.strings⟩

theorem symbols (h : m.Retains m') : m.symbols ⊆ m'.symbols := by
  intro name hn
  simp only [Module.symbols, List.mem_append] at hn ⊢
  exact hn.imp (Or.imp (@h.functions name) (@h.globals name)) (@h.strings name)

/-- A step on the functions alone. -/
theorem of_functions (h : m.functionNames ⊆ m'.functionNames)
    (hrest : m'.globals = m.globals ∧ m'.strings = m.strings) : m.Retains m' where
  functions := h
  globals := by rw [globalNames, globalNames, hrest.1]; exact fun _ => id
  strings := by rw [stringNames, stringNames, hrest.2]; exact fun _ => id

theorem insertFunction (m : Module) (f : Function) : m.Retains (m.insertFunction f).2 :=
  of_functions (m.functionNames_insertFunction f ▸ subset_including _ _) (m.insertFunction_others f)

theorem declareFunction (m : Module) (name : String) : m.Retains (m.declareFunction name).2 :=
  of_functions (m.functionNames_declareFunction name ▸ subset_including _ _)
    (m.declareFunction_others name)

theorem addString (m : Module) (text : String) : m.Retains (m.addString text).2 where
  functions := fun _ => id
  globals := fun _ => id
  strings := by
    change _ ⊆ List.map _ (_ ++ _)
    rw [List.map_append]
    exact List.subset_append_left _ _

theorem defineGlobal {name : String} {init : GlobalInit} {i : GlobalId}
    (h : m.defineGlobal name init = .ok (i, m')) : m.Retains m' := by
  obtain ⟨_, hf, hs, hg, _⟩ := Module.defineGlobal_eq_ok h
  refine ⟨?_, hg ▸ subset_including _ _, ?_⟩
  · rw [functionNames, functionNames, hf]
    exact fun _ => id
  · rw [stringNames, stringNames, hs]
    exact fun _ => id

end Module.Retains

/-- The symbols of a program and its bindings stay. -/
structure Program.Retains (p p' : Program) : Prop extends p.module.Retains p'.module where
  bound : p.bound ⊆ p'.bound

namespace Program.Retains

variable {p p₁ p' : Program}

theorem refl (p : Program) : p.Retains p := ⟨.refl _, fun _ => id⟩

theorem trans (h : p.Retains p₁) (h' : p₁.Retains p') : p.Retains p' :=
  ⟨h.toRetains.trans h'.toRetains, List.Subset.trans h.bound h'.bound⟩

theorem addString (p : Program) (text : String) : p.Retains (p.addString text).2 :=
  ⟨.addString p.module text, fun _ => id⟩

theorem declareFunction (p : Program) (name : String) : p.Retains (p.declareFunction name) :=
  ⟨.declareFunction p.module name, fun _ => id⟩

end Program.Retains

/-- A binding changes nothing, or binds a global, or makes a placeholder and binds it. -/
theorem Program.bindExternal_cases {name : String} {p p' : Program}
    (h : p.bindExternal name = .ok p') :
    (p.isBound name ∨ p.module.hasFunction name) ∧ p' = p ∨
      p.module.hasGlobal name ∧ p' = { p with bound := name :: p.bound } ∨
      ∃ id m', p.module.hasGlobal name = false ∧
        p.module.defineGlobal name .placeholder = .ok (id, m') ∧ p' = ⟨m', name :: p.bound⟩ := by
  unfold bindExternal at h
  split at h
  · next hb =>
      cases h
      exact .inl ⟨by simpa using hb, rfl⟩
  · split at h
    · next hg =>
        cases h
        exact .inr (.inl ⟨hg, rfl⟩)
    · next hg =>
        cases hd : p.module.defineGlobal name .placeholder with
        | error e =>
            rw [hd] at h
            cases h
        | ok r =>
            rw [hd] at h
            cases h
            exact .inr (.inr ⟨r.1, r.2, Bool.eq_false_iff.mpr hg, rfl, rfl⟩)

theorem Program.Retains.bindExternal {name : String} {p p' : Program}
    (h : p.bindExternal name = .ok p') : p.Retains p' := by
  rcases bindExternal_cases h with ⟨_, rfl⟩ | ⟨_, rfl⟩ | ⟨id, m', _, hd, rfl⟩
  · exact .refl _
  · exact ⟨.refl _, fun _ hn => .tail _ hn⟩
  · exact ⟨.defineGlobal hd, fun _ hn => .tail _ hn⟩

end BCompiler
