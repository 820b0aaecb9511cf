import BCompiler.Session.Basic
import BCompiler.Proofs.Carry
import BCompiler.Proofs.Source.Name

/-!
The functions that a source defines.

A source that is accepted defines the functions whose names stand before a parenthesis. Each of them
is in the module afterwards, as the draft of its body left it: what holds of every finished draft
holds of every function that a source defines, whatever the session held before.
-/
namespace BCompiler

namespace Module

variable {m : Module} {name : String}

theorem function?_append (f : Function) (h : f.name ≠ name) :
    ({ m with functions := m.functions ++ [f] } : Module).function? name = m.function? name := by
  unfold function?
  rw [List.find?_append, List.find?_singleton, if_neg (by simpa using h), Option.or_none]

theorem function?_setFunction {id : FunctionId} {f g : Function}
    (hid : m.functions[id]? = some g) (hg : g.name ≠ name) (hf : f.name ≠ name) :
    (m.setFunction id f).function? name = m.function? name := by
  have hsplit := List.set_eq_take_append_cons_drop (l := m.functions) (i := id) (a := f)
  obtain ⟨hlt, rfl⟩ := List.getElem?_eq_some_iff.mp hid
  rw [if_pos hlt] at hsplit
  unfold function? setFunction
  dsimp only
  rw [hsplit]
  conv => rhs; rw [← List.take_append_drop id m.functions, List.drop_eq_getElem_cons hlt]
  rw [List.find?_append, List.find?_append, List.find?_cons_of_neg (by simpa using hf),
    List.find?_cons_of_neg (by simpa using hg)]

theorem functionId?_setFunction {id : FunctionId} {f : Function} (hf : f.name = name)
    (hid : m.functionId? name = some id) : (m.setFunction id f).functionId? name = some id := by
  obtain ⟨hlt, _, hfirst⟩ := List.findIdx?_eq_some_iff_getElem.mp hid
  have hlt' : id < (m.functions.set id f).length := by rwa [List.length_set]
  refine List.findIdx?_eq_some_iff_getElem.mpr ⟨hlt', ?_, ?_⟩
  · simp only [setFunction, List.getElem_set_self, hf, BEq.rfl]
  · intro j hj
    simp only [setFunction, List.getElem_set_ne (Nat.ne_of_gt hj)]
    exact hfirst j hj

theorem function?_setFunction_self {id : FunctionId} {f : Function} (hf : f.name = name)
    (hid : m.functionId? name = some id) : (m.setFunction id f).function? name = some f := by
  have hlt := (List.findIdx?_eq_some_iff_getElem.mp hid).1
  unfold function?
  rw [List.find?_eq_bind_findIdx?_getElem?]
  change ((m.setFunction id f).functionId? name).bind _ = _
  rw [functionId?_setFunction hf hid]
  exact List.getElem?_set_self hlt

/-- A new function is found under its name, and all others stay. -/
theorem insertFunction_eq {m' : Module} {f : Function} {id : FunctionId}
    (h : m.insertFunction f = (id, m')) :
    m'.functionId? f.name = some id ∧
      ∀ name, name ≠ f.name → m'.function? name = m.function? name := by
  unfold insertFunction at h
  cases hid : m.functionId? f.name with
  | some i =>
      rw [hid] at h
      cases h
      obtain ⟨g, hg, hname⟩ := name_of_functionId? hid
      refine ⟨functionId?_setFunction rfl hid, fun name hne => ?_⟩
      exact function?_setFunction hg (hname ▸ hne.symm) hne.symm
  | none =>
      rw [hid] at h
      cases h
      constructor
      · unfold functionId? at hid ⊢
        rw [List.findIdx?_append, hid]
        simp
      · exact fun name hne => function?_append f hne.symm

theorem functionId?_of_prefix {m' : Module} {id : FunctionId} (h : m.functions <+: m'.functions)
    (hid : m.functionId? name = some id) : m'.functionId? name = some id :=
  List.IsPrefix.findIdx?_eq_some h hid

theorem function?_of_prefix {m' : Module} {f : Function} (h : m.functions <+: m'.functions)
    (hf : m.function? name = some f) : m'.function? name = some f :=
  List.IsPrefix.find?_eq_some h hf

end Module

namespace Program

variable {p p' : Program} {name : String}

/-- An array is its buffer, and then the word that holds the address. -/
theorem declareArray_eq_ok {size : UInt64} {values : List Constant}
    (h : p.declareArray name size values = .ok p') :
    ∃ p₁, p.defineGlobal (name ++ ".data") (.buffer (arrayLength size values) values) = .ok p₁ ∧
      p₁.defineGlobal name (.word (.address (name ++ ".data"))) = .ok p' := by
  unfold declareArray at h
  split at h
  · cases h
  · cases hd : p.defineGlobal (name ++ ".data") (.buffer (arrayLength size values) values) with
    | error e => simp [hd, bind, Except.bind] at h
    | ok p₁ =>
        simp only [hd, bind, Except.bind] at h
        exact ⟨p₁, rfl, h⟩

theorem functions_declareArray {size : UInt64} {values : List Constant}
    (h : p.declareArray name size values = .ok p') :
    p'.module.functions = p.module.functions := by
  obtain ⟨p₁, hbuffer, hword⟩ := declareArray_eq_ok h
  rw [functions_defineGlobal hword, functions_defineGlobal hbuffer]

theorem functions_declareScalar {values : List Constant}
    (h : p.declareScalar name values = .ok p') : p'.module.functions = p.module.functions := by
  unfold declareScalar at h
  split at h <;> exact functions_defineGlobal h

end Program

/-- A draft begins in a module that has a place for its function, with its parameters in slots. -/
theorem Draft.start_eq_ok {name : String} {params : List String} {p : Program} {d : Draft}
    (h : start name params p = .ok d) :
    ∃ id m u, p.module.insertFunction (.entered name params) = (id, m) ∧
      Build.spill params (ofFunction { p with module := m } id (.entered name params)) =
        .ok u d := by
  unfold start Module.defineFunction at h
  split at h
  · cases h
  · next id m hm =>
      split at hm
      · cases hm
      · split at h
        · next u d' hs =>
            cases h
            exact ⟨id, m, u, Except.ok.inj hm, hs⟩
        · cases h

namespace Pass

variable {σ α β : Type}

/-- A step that leaves a part of what is built as it was. -/
def Keeps (F : σ → β) (step : Pass σ α) : Prop :=
  ∀ s a t, step s = .ok a t → F t.target = F s.target

theorem scan_keeps {F : σ → β} {step : Scan α} : Keeps F (scan step) := by
  intro s a t h
  rw [(scan_eq_ok_iff.mp h).2]

theorem Keeps.bind {γ : Type} {F : σ → β} {step : Pass σ α} {f : α → Pass σ γ}
    (h : Keeps F step) (hf : ∀ a, Keeps F (f a)) : Keeps F (step >>= f) := by
  intro s c t hs
  obtain ⟨a, r, ha, hc⟩ := bind_eq_ok_iff.mp hs
  exact (hf a r c t hc).trans (h s a r ha)

theorem Keeps.pure {F : σ → β} {a : α} : Keeps F (Pure.pure a : Pass σ α) := by
  intro s b t h
  rw [(pure_eq_ok_iff.mp h).2]

theorem Keeps.throw {F : σ → β} {e : Error} : Keeps F (MonadExcept.throw e : Pass σ α) :=
  fun _ _ _ h => absurd h throw_ne_ok

theorem anyItems_keeps {F : σ → β} {close : Char} {place : String} {item : Pass σ α}
    (h : Keeps F item) (depth : Nat) : Keeps F (anyItems close place item depth) := by
  have hitems : Keeps F (items close place item depth) := by
    induction depth with
    | zero => exact .throw
    | succ depth ih =>
        refine h.bind fun a => scan_keeps.bind fun another => ?_
        cases another with
        | true => exact ih.bind fun as => .pure
        | false => exact .pure
  refine scan_keeps.bind fun none => ?_
  cases none with
  | true => exact .pure
  | false => exact hitems

theorem initializer_keeps : Keeps (fun p => p.module.functions) initializer := by
  refine scan_keeps.bind fun value => ?_
  cases value with
  | some value => exact .pure
  | none =>
      refine scan_keeps.bind fun next => ?_
      split
      · exact scan_keeps.bind fun name => .throw
      · refine scan_keeps.bind fun found => ?_
        split
        · refine scan_keeps.bind fun text => .bind ?_ fun name => .pure
          intro s a t h
          cases h
          rfl
        · exact scan_keeps.bind fun value => .pure
        · exact .throw

theorem update_eq_ok {change : Program → Except Error Program} {s t : Site Program} {u : Unit}
    (h : update change s = .ok u t) : change s.target = .ok t.target := by
  have hbuild := (build_eq_ok_iff.mp h).1
  cases hc : change s.target with
  | ok p =>
      rw [hc] at hbuild
      cases hbuild
      rfl
  | error e =>
      rw [hc] at hbuild
      cases hbuild

theorem update_keeps {F : Program → β} {change : Program → Except Error Program}
    (h : ∀ p p', change p = .ok p' → F p' = F p) : Keeps F (update change) := by
  intro s a t hs
  exact h _ _ (update_eq_ok hs)

theorem array_keeps (name : String) : Keeps (fun p => p.module.functions) (array name) :=
  scan_keeps.bind fun _ => .bind (fun s => anyItems_keeps initializer_keeps s.cursor.depth s)
    fun _ => update_keeps fun _ _ h => Program.functions_declareArray h

theorem scalar_keeps (name : String) : Keeps (fun p => p.module.functions) (scalar name) :=
  .bind (fun s => anyItems_keeps initializer_keeps s.cursor.depth s)
    fun _ => update_keeps fun _ _ h => Program.functions_declareScalar h

theorem parameters_keeps : Keeps id parameters :=
  fun s => anyItems_keeps scan_keeps s.cursor.depth s

theorem items_mem {σ α : Type} {P : α → Prop} {close : Char} {place : String} {item : Pass σ α}
    (h : ∀ s a t, item s = .ok a t → P a) (depth : Nat) {s t : Site σ} {as : List α}
    (hs : items close place item depth s = .ok as t) : ∀ a ∈ as, P a := by
  induction depth generalizing s t as with
  | zero => cases throw_ne_ok hs
  | succ depth ih =>
      obtain ⟨a, s₁, ha, hs⟩ := bind_eq_ok_iff.mp hs
      obtain ⟨another, s₂, _, hs⟩ := bind_eq_ok_iff.mp hs
      cases another with
      | true =>
          obtain ⟨rest, s₃, hrest, hp⟩ := bind_eq_ok_iff.mp hs
          obtain ⟨rfl, _⟩ := pure_eq_ok_iff.mp hp
          intro b hb
          rcases List.mem_cons.mp hb with rfl | hb
          · exact h s b s₁ ha
          · exact ih hrest b hb
      | false =>
          obtain ⟨rfl, _⟩ := pure_eq_ok_iff.mp hs
          exact fun b hb => List.mem_singleton.mp hb ▸ h s a s₁ ha

theorem parameters_isName {s t : Site Program} {params : List String}
    (h : parameters s = .ok params t) : ∀ x ∈ params, isName x := by
  obtain ⟨empty, s₁, _, h⟩ := bind_eq_ok_iff.mp h
  cases empty with
  | true =>
      obtain ⟨rfl, _⟩ := pure_eq_ok_iff.mp h
      exact fun x hx => absurd hx List.not_mem_nil
  | false =>
      refine items_mem (fun s x t hx => ?_) _ h
      exact Scan.someName_gives _ s.cursor x t.cursor (scan_eq_ok_iff.mp hx).1

theorem functionBody_continues {s t : Site Draft} {u : Unit} (h : functionBody s = .ok u t) :
    s.target.Continues t.target := by
  obtain ⟨_, r, hs, h⟩ := bind_eq_ok_iff.mp h
  obtain ⟨id, r', hf, h⟩ := bind_eq_ok_iff.mp h
  obtain ⟨_, rfl⟩ := pure_eq_ok_iff.mp h
  obtain ⟨e, hc⟩ := statement_course hs
  exact (Draft.Continues.carried.course hc).trans
    (Draft.Continues.carried.finish (build_eq_ok_iff.mp hf).1)

/-- What the draft of a body becomes stands in the module under its name, and the functions of other
names stay. -/
theorem function?_close {name : String} {params : List String} {p : Program} {draft : Draft}
    {c : Cursor} {t : Site Draft} {u : Unit} (hstart : Draft.start name params p = .ok draft)
    (hbody : functionBody ⟨c, draft⟩ = .ok u t) :
    t.target.close.module.function? name = some t.target.function ∧
    ∀ other f, other ≠ name → p.module.function? other = some f →
      t.target.close.module.function? other = some f := by
  obtain ⟨id, m, _, hm, hspill⟩ := Draft.start_eq_ok hstart
  obtain ⟨hid, hothers⟩ := Module.insertFunction_eq hm
  have hc := (Draft.Continues.carried.spill hspill).trans (functionBody_continues hbody)
  have hfound : t.target.program.module.functionId? name = some t.target.id := by
    rw [hc.id]
    exact Module.functionId?_of_prefix hc.functions hid
  refine ⟨Module.function?_setFunction_self hc.name hfound, fun other f hne hf => ?_⟩
  obtain ⟨g, hg, hname⟩ := Module.name_of_functionId? hfound
  have hkept : t.target.program.module.function? other = some f :=
    Module.function?_of_prefix hc.functions ((hothers other hne).trans hf)
  rw [← hkept]
  exact Module.function?_setFunction hg (hname ▸ hne.symm) (by rw [hc.name]; exact hne.symm)

theorem function_eq_ok {name : String} {s s' : Site Program} {u : Unit}
    (h : function name s = .ok u s') :
    (∃ params draft c t v, (∀ x ∈ params, isName x) ∧
      Draft.start name params s.target = .ok draft ∧
      functionBody ⟨c, draft⟩ = .ok v t ∧
      s'.target.module.function? name = some t.target.function) ∧
    ∀ other f, other ≠ name → s.target.module.function? other = some f →
      s'.target.module.function? other = some f := by
  obtain ⟨params, r, hp, hd⟩ := bind_eq_ok_iff.mp h
  have hr : r.target = s.target := parameters_keeps s params r hp
  unfold drafted at hd
  rw [hr] at hd
  split at hd
  · cases hd
  · next draft hstart =>
      split at hd
      · next v t hbody =>
          cases hd
          obtain ⟨hfound, hothers⟩ := function?_close hstart hbody
          exact ⟨⟨params, draft, r.cursor, t, v, parameters_isName hp, hstart, hbody, hfound⟩,
            hothers⟩
      · cases hd

end Pass

/-- Whether the rest of a declaration begins as that of a function does. -/
def Cursor.startsFunction (c : Cursor) : Bool :=
  match Scan.peekMark c with
  | .ok found _ => found == some '('
  | .error _ _ => false

namespace Pass

/-- One declaration, after its name. Its bindings end with it. -/
def declared (name : String) : Pass Program Unit := do
  declaration name
  update fun p => .ok p.clearScope

/-- The names of the functions that the declarations of the unread text define. -/
def definedAt : Nat → Site Program → List String
  | 0, _ => []
  | depth + 1, s =>
    match scan Scan.name s with
    | .error _ _ => []
    | .ok name s₁ =>
      if name = "" then []
      else
        match declared name s₁ with
        | .error _ _ => []
        | .ok _ s₂ =>
          if s₁.cursor.startsFunction then name :: definedAt depth s₂ else definedAt depth s₂

end Pass

/-- The names of the functions that a source defines. -/
def Session.definedFunctions (text : String) (s : Session) : List String :=
  let c := Cursor.ofText text s.wordSize
  Pass.definedAt c.depth ⟨c, s.program⟩

/-- What holds of every function whose body is compiled to the end. -/
def OfBodies (P : Function → Prop) : Prop :=
  ∀ {name params program draft c t u}, Draft.start name params program = .ok draft →
    Pass.functionBody ⟨c, draft⟩ = .ok u t → P t.target.function

/-- What holds of every such function whose own names are names by their characters. -/
def OfDefinitions (P : Function → Prop) : Prop :=
  ∀ {name params program draft c t u}, isName name → (∀ x ∈ params, isName x) →
    Draft.start name params program = .ok draft → Pass.functionBody ⟨c, draft⟩ = .ok u t →
    P t.target.function

theorem OfBodies.ofDefinitions {P : Function → Prop} (h : OfBodies P) : OfDefinitions P :=
  fun _ _ hstart hbody => h hstart hbody

/-- What every change of a draft keeps holds at the end of every body if it holds of a function that
has just been entered. -/
theorem OfBodies.of_carried {P : Function → Prop}
    (hcarried : Draft.Carried fun d d' => P d.function → P d'.function)
    (hentered : ∀ name params, P (.entered name params)) : OfBodies P := by
  intro name params p draft c t u hstart hbody
  obtain ⟨i, m, _, _, hspill⟩ := Draft.start_eq_ok hstart
  obtain ⟨_, r, hs, hb⟩ := bind_eq_ok_iff.mp hbody
  obtain ⟨_, r', hf, hb⟩ := bind_eq_ok_iff.mp hb
  obtain ⟨_, rfl⟩ := pure_eq_ok_iff.mp hb
  obtain ⟨e, hcourse⟩ := Pass.statement_course hs
  refine hcarried.finish (Pass.build_eq_ok_iff.mp hf).1 (hcarried.course hcourse ?_)
  exact hcarried.spill hspill (hentered name params)

namespace Pass

variable {P : Function → Prop}

/-- A declaration that begins as a function defines it. Functions of other names stay. -/
theorem declared_eq_ok (hP : OfDefinitions P) {name : String} (hname : isName name)
    {s s' : Site Program} {u : Unit} (h : declared name s = .ok u s') :
    (s.cursor.startsFunction → ∃ f, s'.target.module.function? name = some f ∧ P f) ∧
    ∀ other f, (s.cursor.startsFunction → other ≠ name) →
      s.target.module.function? other = some f → s'.target.module.function? other = some f := by
  obtain ⟨_, r, hd, hu⟩ := bind_eq_ok_iff.mp h
  obtain ⟨found, r₁, hp, hd⟩ := bind_eq_ok_iff.mp hd
  have hclear : s'.target.module = r.target.module :=
    update_keeps (F := Program.module) (fun p p' hp' => by cases hp'; rfl) r u s' hu
  obtain ⟨hpeek, htarget⟩ := scan_eq_ok_iff.mp hp
  have hstarts : s.cursor.startsFunction = (found == some '(') := by
    unfold Cursor.startsFunction
    rw [hpeek]
  rw [hclear, hstarts, ← htarget]
  split at hd
  · obtain ⟨_, r₂, hread, hd⟩ := bind_eq_ok_iff.mp hd
    obtain ⟨⟨params, draft, c, t, v, hparams, hs, hb, hf⟩, hothers⟩ := function_eq_ok hd
    rw [(scan_eq_ok_iff.mp hread).2] at hothers
    exact ⟨fun _ => ⟨_, hf, hP hname hparams hs hb⟩, fun other f hne => hothers other f (hne rfl)⟩
  · obtain ⟨_, r₂, hread, hd⟩ := bind_eq_ok_iff.mp hd
    have hkept : r.target.module.functions = r₂.target.module.functions := array_keeps name _ _ _ hd
    rw [(scan_eq_ok_iff.mp hread).2] at hkept
    refine ⟨fun hbad => absurd hbad (by decide), fun other f _ hf => ?_⟩
    unfold Module.function? at hf ⊢
    rwa [hkept]
  · next hno _ =>
      have hkept : r.target.module.functions = r₁.target.module.functions :=
        scalar_keeps name _ _ _ hd
      refine ⟨fun hbad => absurd (beq_iff_eq.mp hbad) hno, fun other f _ hf => ?_⟩
      unfold Module.function? at hf ⊢
      rwa [hkept]

/-- By induction on the declarations: what is defined last under a name stays. -/
theorem declarationsAt_eq_ok (hP : OfDefinitions P) (depth : Nat) {s s' : Site Program} {u : Unit}
    (h : declarationsAt depth s = .ok u s') :
    (∀ name ∈ definedAt depth s, ∃ f, s'.target.module.function? name = some f ∧ P f) ∧
    ∀ name f, name ∉ definedAt depth s → s.target.module.function? name = some f →
      s'.target.module.function? name = some f := by
  induction depth generalizing s with
  | zero => cases throw_ne_ok h
  | succ depth ih =>
      obtain ⟨name, s₁, hn, h⟩ := bind_eq_ok_iff.mp h
      have hs₁ := (scan_eq_ok_iff.mp hn).2
      by_cases hname : name = ""
      · rw [if_pos hname] at h
        obtain ⟨next, s₂, hp, h⟩ := bind_eq_ok_iff.mp h
        cases next with
        | some c => cases throw_ne_ok h
        | none =>
            obtain ⟨_, rfl⟩ := pure_eq_ok_iff.mp h
            simp only [definedAt, hn, hname, if_true]
            refine ⟨nofun, fun other f _ hf => ?_⟩
            rwa [(scan_eq_ok_iff.mp hp).2, hs₁]
      · rw [if_neg hname] at h
        obtain ⟨_, r, hd, h⟩ := bind_eq_ok_iff.mp h
        obtain ⟨_, s₂, hu, h⟩ := bind_eq_ok_iff.mp h
        have hone : declared name s₁ = .ok () s₂ := bind_eq_ok_iff.mpr ⟨_, r, hd, hu⟩
        have hisName := (Scan.name_gives _ _ _ (scan_eq_ok_iff.mp hn).1).resolve_left hname
        obtain ⟨hdefined, hothers⟩ := declared_eq_ok hP hisName hone
        obtain ⟨hlater, hkept⟩ := ih h
        rw [← hs₁]
        simp only [definedAt, hn, hname, if_false, hone]
        by_cases hf : s₁.cursor.startsFunction
        · rw [if_pos hf]
          refine ⟨fun other hm => ?_, fun other f hm hfound => ?_⟩
          · by_cases hlast : other ∈ definedAt depth s₂
            · exact hlater other hlast
            · -- no later declaration of this source defines the name again
              obtain rfl := (List.mem_cons.mp hm).resolve_right hlast
              obtain ⟨f, hfound, hPf⟩ := hdefined hf
              exact ⟨f, hkept _ f hlast hfound, hPf⟩
          · obtain ⟨hne, hlast⟩ := not_or.mp (mt List.mem_cons.mpr hm)
            exact hkept other f hlast (hothers other f (fun _ => hne) hfound)
        · rw [if_neg hf]
          refine ⟨hlater, fun other f hm hfound => ?_⟩
          exact hkept other f hm (hothers other f (fun h => absurd h hf) hfound)

end Pass

theorem Session.function?_of_definitions {P : Function → Prop} (hP : OfDefinitions P)
    {path text : String} {s s' : Session} {u : Unit} (h : compile path text s = .ok u s')
    {name : String} (hn : name ∈ s.definedFunctions text) :
    ∃ f, s'.module.function? name = some f ∧ P f := by
  unfold compile at h
  split at h
  · next v site hd =>
      cases h
      exact (Pass.declarationsAt_eq_ok hP _ hd).1 name hn
  · cases h

/-- What holds of every function whose body is compiled to the end holds of every function that a
source defines. -/
theorem Session.function?_of_definedFunctions {P : Function → Prop} (hP : OfBodies P)
    {path text : String} {s s' : Session} {u : Unit} (h : compile path text s = .ok u s')
    {name : String} (hn : name ∈ s.definedFunctions text) :
    ∃ f, s'.module.function? name = some f ∧ P f := function?_of_definitions hP.ofDefinitions h hn

/-- Whether a source is accepted. -/
def Session.accepts (path text : String) (s : Session) : Bool :=
  match compile path text s with
  | .ok _ _ => true
  | .error _ _ => false

theorem Session.exists_of_accepts {path text : String} {s : Session} (h : s.accepts path text) :
    ∃ s', compile path text s = .ok () s' := by
  unfold accepts at h
  split at h
  · next s' hs => exact ⟨s', hs⟩
  · cases h

end BCompiler
