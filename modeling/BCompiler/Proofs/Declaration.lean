import BCompiler.Proofs.Trail.History

/-!
The declarations of a source, and what they leave alone.

Whether a source is accepted or stops anywhere, it has begun a number of declarations. Each of them
changes the function or the globals of its own name. All other functions and globals keep their
places and their contents, and what is new under another name is a declared function or a
placeholder.
-/
namespace BCompiler

/-- A declaration that begins: its name has been read, and nothing behind it. -/
structure Heading where
  name : String
  site : Site Program
  deriving DecidableEq, Repr

namespace Form

/-- The functions that a declaration of the name defines. -/
def functions (name : String) : Option Form → List String
  | some .function => [name]
  | _ => []

/-- The globals that a declaration of the name defines: for an array, also its buffer. -/
def globals (name : String) : Option Form → List String
  | some .array => [name ++ ".data", name]
  | some .scalar => [name]
  | _ => []

end Form

namespace Heading

def form? (o : Heading) : Option Form := o.site.cursor.form?

def functions (o : Heading) : List String := Form.functions o.name o.form?

def globals (o : Heading) : List String := Form.globals o.name o.form?

end Heading

/-- The declarations that begin in the unread text, up to the one that fails. -/
def Pass.headingsAt : Nat → Site Program → List Heading
  | 0, _ => []
  | depth + 1, s =>
    match scan Scan.name s with
    | .error _ _ => []
    | .ok name s₁ =>
      if name = "" then []
      else
        ⟨name, s₁⟩ ::
          match declared name s₁ with
          | .error _ _ => []
          | .ok _ s₂ => headingsAt depth s₂

/-- The declarations that begin in a source. -/
def Session.headings (text : String) (s : Session) : List Heading :=
  Pass.headingsAt (Cursor.ofText text s.wordSize).depth ⟨.ofText text s.wordSize, s.program⟩

/-- The declarations lead from a program to another, each starting where the one before it has ended
without its bindings. The last one may break off. -/
inductive Deeds : List Heading → Program → Program → Prop
  | nil (p : Program) : Deeds [] p p
  | broken {o : Heading} {p' : Program} : isName o.name →
      Strung o.site.target p' ∨ Deed o.name o.form? o.site.target p' →
      Deeds [o] o.site.target p'
  | cons {o : Heading} {os : List Heading} {p p' : Program} : isName o.name →
      Deed o.name o.form? o.site.target p → Deeds os p.clearScope p' →
      Deeds (o :: os) o.site.target p'

namespace Pass

theorem declared_of_ok {name : String} {s t : Site Program} {u : Unit}
    (h : declaration name s = .ok u t) :
    declared name s = .ok () ⟨t.cursor, t.target.clearScope⟩ := bind_of_ok h

/-- By induction on the bound. If the declarations succeed, no binding is left of the last one. -/
theorem declarationsAt_deeds (depth : Nat) (s : Site Program) :
    Leads (Deeds (headingsAt depth s)) Site.target s
      (fun _ p => p.bound = [] ∨ p = s.target) (declarationsAt depth s) := by
  induction depth generalizing s with
  | zero => exact .nil s.target
  | succ depth ih =>
      obtain ⟨c, p⟩ := s
      cases hn : Scan.name c with
      | error e c₁ =>
          rw [headingsAt, declarationsAt, bind_of_error (scan_of_error hn), scan_of_error hn]
          exact .nil p
      | ok name c₁ =>
          rw [headingsAt, declarationsAt, bind_of_ok (scan_of_ok hn), scan_of_ok hn]
          by_cases hempty : name = ""
          · simp only [hempty, if_true]
            obtain ⟨next, hp⟩ : ∃ next, Scan.peek c₁ = .ok next c₁ := ⟨_, rfl⟩
            rw [bind_of_ok (scan_of_ok hp)]
            cases next with
            | none => exact ⟨.nil p, .inr rfl⟩
            | some mark => exact .nil p
          · simp only [hempty, if_false]
            have hname : isName name := (Scan.name_gives _ _ _ hn).resolve_left hempty
            have hattempt := declaration_attempts name ⟨c₁, p⟩
            cases hd : declaration name ⟨c₁, p⟩ with
            | error e t =>
                have hdeclared : declared name ⟨c₁, p⟩ = .error e t := bind_of_error hd
                rw [bind_of_error hd, hdeclared]
                rw [hd] at hattempt
                exact .broken hname hattempt
            | ok u t =>
                rw [bind_of_ok hd, declared_of_ok hd]
                rw [hd] at hattempt
                have hrest := ih ⟨t.cursor, t.target.clearScope⟩
                change Leads _ _ _ _ (declarationsAt depth ⟨t.cursor, t.target.clearScope⟩)
                cases hr : declarationsAt depth ⟨t.cursor, t.target.clearScope⟩ with
                | error e t' =>
                    rw [hr] at hrest
                    exact .cons hname hattempt hrest
                | ok u' t' =>
                    rw [hr] at hrest
                    obtain ⟨hdeeds, hbound⟩ := hrest
                    refine ⟨.cons hname hattempt hdeeds, .inl ?_⟩
                    exact hbound.elim id (congrArg Program.bound)

end Pass

/-- A source, accepted or not, has done what its declarations do. -/
theorem Session.deeds_after (s : Session) (path text : String) :
    Deeds (s.headings text) s.program (s.after path text).program := by
  have h := Pass.declarationsAt_deeds (Cursor.ofText text s.wordSize).depth
    ⟨.ofText text s.wordSize, s.program⟩
  change Leads _ _ _ _ (Pass.declarations ⟨.ofText text s.wordSize, s.program⟩) at h
  unfold after compile
  cases hd : Pass.declarations ⟨.ofText text s.wordSize, s.program⟩ with
  | ok u t =>
      rw [hd] at h
      exact h.1
  | error e t =>
      rw [hd] at h
      exact h

/-- The items of other names than the given ones stay where they are, and all names do. What is new
under another name is as `fresh` says. -/
structure Spared {α : Type} (name : α → String) (fresh : α → Prop) (names : List String)
    (items items' : List α) : Prop where
  kept : ∀ (i : Nat) a, items[i]? = some a → name a ∉ names → items'[i]? = some a
  order : items.map name <+: items'.map name
  added : ∀ a ∈ items', name a ∉ names → a ∈ items ∨ fresh a

namespace Spared

variable {α : Type} {name : α → String} {fresh : α → Prop} {names names' : List String}
  {items items₁ items₂ : List α}

theorem refl (items : List α) : Spared name fresh [] items items :=
  ⟨fun _ _ h _ => h, List.prefix_rfl, fun _ h _ => .inl h⟩

theorem trans (h : Spared name fresh names items items₁)
    (h' : Spared name fresh names' items₁ items₂) :
    Spared name fresh (names ++ names') items items₂ where
  kept i a ha hn := by
    rw [List.mem_append, not_or] at hn
    exact h'.kept i a (h.kept i a ha hn.1) hn.2
  order := h.order.trans h'.order
  added a ha hn := by
    rw [List.mem_append, not_or] at hn
    rcases h'.added a ha hn.2 with ha | hfresh
    · exact h.added a ha hn.1
    · exact .inr hfresh

theorem mono (h : Spared name fresh names items items₁) (hn : names ⊆ names') :
    Spared name fresh names' items items₁ where
  kept i a ha hout := h.kept i a ha fun hm => hout (hn hm)
  order := h.order
  added a ha hout := h.added a ha fun hm => hout (hn hm)

/-- A new item at the end. -/
theorem append (a : α) (h : name a ∈ names ∨ fresh a) :
    Spared name fresh names items (items ++ [a]) where
  kept i b hb _ := by
    rw [List.getElem?_append_left (List.getElem?_eq_some_iff.mp hb).1]
    exact hb
  order := by
    rw [List.map_append]
    exact List.prefix_append _ _
  added b hb hn := by
    rcases List.mem_append.mp hb with hb | hb
    · exact .inl hb
    · rw [List.mem_singleton.mp hb] at hn ⊢
      exact .inr (h.resolve_left hn)

/-- An item in the place of its namesake. -/
theorem set {a b : α} {i : Nat} (hb : items[i]? = some b) (hname : name a = name b) :
    Spared name fresh [name a] items (items.set i a) where
  kept j c hc hn := by
    have hne : i ≠ j := by
      rintro rfl
      cases hb.symm.trans hc
      exact hn (hname ▸ .head _)
    rw [List.getElem?_set_ne hne]
    exact hc
  order := (map_set_of_eq hb hname).symm ▸ List.prefix_rfl
  added c hc hn := by
    rcases List.mem_or_eq_of_mem_set hc with hc | rfl
    · exact .inl hc
    · exact absurd (List.mem_singleton.mpr rfl) hn

end Spared

/-- A module that is changed at the functions and the globals of the given names only. What else is
new are strings, declared functions and placeholders. -/
structure Module.Spares (functions globals : List String) (m m' : Module) : Prop where
  functions : Spared Function.name (fun f => f = .declared f.name) functions m.functions
    m'.functions
  globals : Spared Global.name (fun g => g.init = .placeholder) globals m.globals m'.globals
  strings : m.strings <+: m'.strings
  name : m'.name = m.name
  wordBits : m'.wordBits = m.wordBits

namespace Module.Spares

variable {functions functions' globals globals' : List String} {m m₁ m₂ : Module}

theorem refl (m : Module) : Spares [] [] m m := ⟨.refl _, .refl _, List.prefix_rfl, rfl, rfl⟩

theorem trans (h : Spares functions globals m m₁) (h' : Spares functions' globals' m₁ m₂) :
    Spares (functions ++ functions') (globals ++ globals') m m₂ :=
  ⟨h.functions.trans h'.functions, h.globals.trans h'.globals, h.strings.trans h'.strings,
    h'.name.trans h.name, h'.wordBits.trans h.wordBits⟩

theorem mono (h : Spares functions globals m m₁) (hf : functions ⊆ functions')
    (hg : globals ⊆ globals') : Spares functions' globals' m m₁ :=
  { h with
    functions := h.functions.mono hf
    globals := h.globals.mono hg }

theorem addString (m : Module) (text : String) : Spares [] [] m (m.addString text).2 :=
  { refl m with strings := List.prefix_append _ _ }

theorem setFunction {id : FunctionId} {f g : Function} (hg : m.functions[id]? = some g)
    (hname : f.name = g.name) : Spares [f.name] [] m (m.setFunction id f) :=
  { refl m with functions := .set hg hname }

theorem insertFunction (m : Module) (f : Function) :
    Spares [f.name] [] m (m.insertFunction f).2 := by
  unfold Module.insertFunction
  cases hid : m.functionId? f.name with
  | some id =>
      obtain ⟨g, hg, hname⟩ := name_of_functionId? hid
      exact .setFunction hg hname.symm
  | none => exact { refl m with functions := .append f (.inl (.head _)) }

theorem declareFunction (m : Module) (name : String) :
    Spares [] [] m (m.declareFunction name).2 := by
  unfold Module.declareFunction
  cases hid : m.functionId? name with
  | some id => exact .refl m
  | none =>
      have hnone : m.functionId? (Function.declared name).name = none := hid
      simp only [Module.insertFunction, hnone]
      exact { refl m with functions := .append _ (.inr rfl) }

theorem defineGlobal {name : String} {init : GlobalInit} {id : GlobalId}
    (h : m.defineGlobal name init = .ok (id, m₁)) : Spares [] [name] m m₁ := by
  unfold Module.defineGlobal at h
  split at h
  · cases h
  · split at h
    · next hid =>
        cases h
        obtain ⟨hlt, hname, _⟩ := List.findIdx?_eq_some_iff_getElem.mp hid
        exact { refl m with
          globals := .set (a := ⟨name, init⟩) (List.getElem?_eq_getElem hlt)
            (eq_of_beq hname).symm }
    · cases h
      exact { refl m with globals := .append _ (.inl (.head _)) }

/-- A placeholder for a name that no global has. -/
theorem definePlaceholder {name : String} {id : GlobalId} (hnew : m.hasGlobal name = false)
    (h : m.defineGlobal name .placeholder = .ok (id, m₁)) : Spares [] [] m m₁ := by
  have hnone : m.globalId? name = none := by
    unfold hasGlobal at hnew
    simpa using hnew
  unfold Module.defineGlobal at h
  split at h
  · cases h
  · rw [hnone] at h
    cases h
    exact { refl m with globals := .append _ (.inr rfl) }

theorem strung {p p' : Program} (h : Strung p p') : Spares [] [] p.module p'.module := by
  induction h with
  | refl => exact .refl _
  | @string p₁ text _ ih => exact ih.trans (.addString p₁.module text)

theorem defineGlobalOf {name : String} {init : GlobalInit} {p p' : Program}
    (h : p.defineGlobal name init = .ok p') : Spares [] [name] p.module p'.module := by
  obtain ⟨i, m, hm, rfl⟩ := Program.defineGlobal_eq_ok h
  exact .defineGlobal hm

theorem bindExternal {name : String} {p p' : Program} (h : p.bindExternal name = .ok p') :
    Spares [] [] p.module p'.module := by
  rcases Program.bindExternal_cases h with ⟨_, rfl⟩ | ⟨_, rfl⟩ | ⟨id, m', hnew, hd, rfl⟩
  · exact .refl _
  · exact .refl _
  · exact .definePlaceholder hnew hd

/-- A body adds strings, declared functions and placeholders to the program. -/
theorem trail {d d' : Draft} (h : Trail d d') :
    Spares [] [] d.program.module d'.program.module := by
  induction h with
  | trans _ _ ih₁ ih₂ => exact ih₁.trans ih₂
  | string d text => exact .addString d.program.module text
  | @declare d name _ _ => exact .declareFunction d.program.module name
  | external _ hb => exact .bindExternal hb
  | refl | define | store | ended | addBlock | nextNumber | goTo | slot | label | labelDefined =>
      exact .refl _

theorem declareScalar {name : String} {values : List Constant} {p p' : Program}
    (h : p.declareScalar name values = .ok p') : Spares [] [name] p.module p'.module := by
  unfold Program.declareScalar at h
  split at h <;> exact .defineGlobalOf h

theorem declareArray {name : String} {size : UInt64} {values : List Constant} {p p' : Program}
    (h : p.declareArray name size values = .ok p') :
    Spares [] [name ++ ".data", name] p.module p'.module := by
  obtain ⟨p₁, hbuffer, hword⟩ := Program.declareArray_eq_ok h
  exact (defineGlobalOf hbuffer).trans (defineGlobalOf hword)

theorem deed {name : String} {form? : Option Form} {p p' : Program} (h : Deed name form? p p') :
    Spares (Form.functions name form?) (Form.globals name form?) p.module p'.module := by
  cases h with
  | scalar hs _ hd => exact (strung hs).trans (.declareScalar hd)
  | array hs _ hd => exact (strung hs).trans (.declareArray hd)
  | @function _ params i m d _ hd ht =>
      obtain ⟨_, hi⟩ := Module.defineFunction_eq_ok hd
      obtain ⟨g, hg, hgname⟩ := Module.name_of_insertFunction hi
      obtain ⟨g', hg', hname⟩ := ht.place hg hgname
      have hinsert : Spares [name] [] p.module m := by
        have h := insertFunction p.module (.entered name params)
        rwa [hi] at h
      have hclose : Spares [name] [] d.program.module d.close.module := by
        have h := setFunction hg' hname.symm
        rwa [ht.retains.name] at h
      refine (hinsert.trans ((trail ht).trans hclose)).mono ?_ fun _ => id
      simp [Form.functions]

/-- Declaration by declaration, the names add up. -/
theorem deeds {os : List Heading} {p p' : Program} (h : Deeds os p p') :
    Spares (os.flatMap Heading.functions) (os.flatMap Heading.globals) p.module p'.module := by
  induction h with
  | nil p => exact .refl _
  | @broken o p' _ hlast =>
      rw [List.flatMap_singleton, List.flatMap_singleton]
      rcases hlast with hs | hd
      · exact (strung hs).mono (List.nil_subset _) (List.nil_subset _)
      · exact deed hd
  | cons _ hd _ ih => exact (deed hd).trans ih

end Module.Spares

namespace Program

variable {p p' : Program} {name : String}

theorem mem_of_defineGlobal {init : GlobalInit} (h : p.defineGlobal name init = .ok p') :
    ⟨name, init⟩ ∈ p'.module.globals := by
  obtain ⟨i, m, hm, rfl⟩ := defineGlobal_eq_ok h
  unfold Module.defineGlobal at hm
  split at hm
  · cases hm
  · split at hm
    · next hid =>
        cases hm
        obtain ⟨hlt, _⟩ := List.findIdx?_eq_some_iff_getElem.mp hid
        exact List.mem_set hlt _
    · cases hm
      exact List.mem_append_right _ (.head _)

/-- The two globals of an array are there once it is declared. -/
theorem mem_of_declareArray {size : UInt64} {values : List Constant}
    (h : p.declareArray name size values = .ok p') :
    ⟨name ++ ".data", .buffer (arrayLength size values) values⟩ ∈ p'.module.globals ∧
      ⟨name, .word (.address (name ++ ".data"))⟩ ∈ p'.module.globals := by
  obtain ⟨p₁, hbuffer, hword⟩ := declareArray_eq_ok h
  refine ⟨?_, mem_of_defineGlobal hword⟩
  obtain ⟨i, hi⟩ := List.mem_iff_getElem?.mp (mem_of_defineGlobal hbuffer)
  refine List.mem_iff_getElem?.mpr ⟨i, ?_⟩
  refine (Module.Spares.defineGlobalOf hword).globals.kept i _ hi fun he => ?_
  have hlength := congrArg String.length (List.mem_singleton.mp he)
  simp at hlength

end Program

namespace Session

/-- The names under which a source begins to define functions. -/
def functionsOf (text : String) (s : Session) : List String :=
  (s.headings text).flatMap Heading.functions

/-- The names under which a source begins to define globals. -/
def globalsOf (text : String) (s : Session) : List String :=
  (s.headings text).flatMap Heading.globals

/-- Accepted or not, a source changes the functions and globals that it names, and no others. -/
theorem spares_after (s : Session) (path text : String) :
    Module.Spares (s.functionsOf text) (s.globalsOf text) s.module (s.after path text).module :=
  .deeds (s.deeds_after path text)

/-- What a source only calls is not among its names; an array brings a second global. -/
example : (new "b" 8).functionsOf "f() \x7b g(); \x7d x 1; a[2];" = ["f"] ∧
    (new "b" 8).globalsOf "f() \x7b g(); \x7d x 1; a[2];" = ["x", "a.data", "a"] := by
  decide +kernel

theorem name_history (sources : List (String × String)) (s : Session) :
    (s.history sources).module.name = s.module.name := by
  induction sources generalizing s with
  | nil => rfl
  | cons source sources ih =>
      exact (ih _).trans (Module.Spares.deeds (s.deeds_after source.1 source.2)).name

end Session
end BCompiler
