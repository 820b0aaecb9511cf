import BCompiler.Proofs.Definition
import BCompiler.Proofs.Statement.Entry
import BCompiler.Proofs.Statement.Parse
import BCompiler.Proofs.Statement.Run

/-!
Functions compute what they mean.

A function is given by its parameters, its local words and its statements. Its text is accepted, and
a machine that has the code returns a word exactly if the statements come to it: parameters hold the
arguments at first and local words hold zero, and a function that comes to its end returns zero.
-/
namespace BCompiler

/-- A declaration of local words. -/
structure Auto where
  first : Name
  others : List Name
  deriving DecidableEq

namespace Auto

def names (a : Auto) : List Name := a.first :: a.others

def tokens (a : Auto) : List String := "auto" :: listed ";" a.first a.others

/-- The code that declarations stand for. -/
def emit : List Auto → Build Unit
  | [] => return
  | a :: autos => do
    let _ ← a.names.mapM fun x => Build.declareLocal x.text
    emit autos

end Auto

/-- A function whose variables are its parameters and its local words, all of different names. -/
structure Procedure where
  name : Name
  params : List Name
  autos : List Auto
  body : Statements
  distinct : (params ++ autos.flatMap Auto.names).Nodup
  plain : ∀ x ∈ params ++ autos.flatMap Auto.names, x.isPlain
  closed : ∀ x ∈ body.names, x ∈ params ++ autos.flatMap Auto.names

namespace Procedure

def paramTokens : List Name → List String
  | [] => [")"]
  | x :: xs => listed ")" x xs

def tokens (f : Procedure) : List String :=
  f.name.text :: "(" :: paramTokens f.params ++
    Statements.braced (f.autos.flatMap Auto.tokens ++ f.body.tokens)

def text (f : Procedure) : String := " ".intercalate f.tokens

/-- The words of the variables at first. -/
def initial (f : Procedure) (arguments : List Word) : Env := fun x =>
  (((f.params.map Name.text).zip arguments).lookup x).getD 0

/-- The function comes to an end for the arguments and gives the word. -/
def Terminates (f : Procedure) (arguments : List Word) (word : Word) : Prop :=
  ∃ o, f.body.Exec (f.initial arguments) o ∧ o.word = word

/-- The variables, with what is stored in their slots at first. -/
def bindings (f : Procedure) : List (String × Operand) :=
  (f.params.map fun x => (x.text, .param x.text)) ++
    (f.autos.flatMap Auto.names).map fun x => (x.text, .const 0)

section Reading

open Pass

variable {size : Nat}

theorem separated_scalar (x : Name) (xs : List Name) :
    separated AutoItem.tokens (.scalar x : AutoItem size) (xs.map .scalar) =
      separated (fun x => [x.text]) x xs := by
  induction xs generalizing x with
  | nil => rfl
  | cons y ys ih =>
      rw [List.map_cons, separated, ih]
      rfl

/-- Declarations in front of statements are part of their block. -/
theorem exists_block (size : Nat) {body : Statements} (hp : body.IsPlain) (autos : List Auto) :
    ∃ t : Statement size .block, t.Writes (autos.flatMap Auto.tokens ++ body.tokens) (do
      Auto.emit autos
      body.emit) := by
  induction autos with
  | nil => exact Statements.exists_block size hp
  | cons a autos ih =>
      obtain ⟨t, ht⟩ := ih
      refine ⟨.cons (.auto (.scalar a.first) (a.others.map .scalar)) t, (ht.cons (do
        let _ ← a.names.mapM fun x => Build.declareLocal x.text) rfl fun enclosing => ?_).congr
        ?_ ?_⟩
      · rw [Statement.emit, ← List.map_cons, List.mapM_map]
        rw [bind_assoc]
        rfl
      · rw [Statement.tokens, separated_scalar, List.flatMap_cons, Auto.tokens, listed_eq]
        simp only [List.cons_append, List.append_assoc]
      · simp only [Auto.emit, bind_assoc, pure_bind]

theorem parameters_mirrors (params : List Name) (rest : List String) :
    Mirrors size parameters (paramTokens params ++ rest) (pure (params.map Name.text)) rest := by
  have hitem : ∀ (x : Name) (next : String) (tokens : List String), next ∈ [",", ")"] →
      Mirrors size (scan (Scan.someName "parameter name") : Pass Program String)
        ([x.text] ++ next :: tokens) (pure x.text) (next :: tokens) := by
    intro x next tokens _
    rw [← bind_pure (scan (Scan.someName "parameter name"))]
    exact .scan ((Scan.someName_token x _).takes (Scan.keepsSize_someName _)) (.pure _)
  refine .bounded fun n hn => ?_
  cases params with
  | nil => exact .scan ((Scan.accept_token rfl rfl).takes (Scan.keepsSize_accept _)) (.pure [])
  | cons x xs =>
      obtain ⟨first, hb, hstart⟩ := x.begins
      have hne : first ≠ ')' := ne_of_isNameStart hstart rfl
      have hlength := length_separated (fun x : Name => [x.text]) x xs
      have haccept : (Scan.accept ')').Reads (listed ")" x xs ++ rest) false
          (listed ")" x xs ++ rest) := by
        cases xs <;> exact Scan.accept_other hb hne
      refine .scan (haccept.takes (Scan.keepsSize_accept _)) ?_
      rw [paramTokens, listed_eq, List.length_append, List.length_append] at hn
      rw [← List.mapM_pure, listed_eq, List.append_assoc]
      exact items_mirrors rfl rfl (by decide) _ hitem x xs rest n (by omega)

/-- The body of a function and its end. -/
theorem functionBody_mirrors (f : Procedure) (rest : List String) :
    Mirrors size functionBody
      (Statements.braced (f.autos.flatMap Auto.tokens ++ f.body.tokens) ++ rest) (do
        Auto.emit f.autos
        f.body.emit
        let _ ← Build.finish) rest := by
  have hplain : f.body.IsPlain := fun x hx => f.plain x (f.closed x hx)
  obtain ⟨t, ht⟩ := exists_block size hplain f.autos
  have htokens : fenced (Statement.compound t).endsBare (Statement.compound t).tokens =
      Statements.braced (f.autos.flatMap Auto.tokens ++ f.body.tokens) := ht.tokens_compound
  have hstatement := (Statement.compound t).statement_mirrors
    fun _ => (⟨nofun, nofun⟩ : (Statement.compound t).Fits rest)
  have hbody := hstatement.bind fun _ => (Mirrors.build Build.finish).bind fun _ => .pure ()
  have hemit : (Statement.compound t).emit none = _ := ht.emit none
  rw [htokens, hemit] at hbody
  simp only [bind_assoc, pure_bind] at hbody
  exact hbody

/-- A body that can be built is read, and its function is put into the module. -/
theorem function_mirrors (f : Procedure) {p : Program} {draft d : Draft} {c : Cursor}
    {rest : List String} (hstart : Draft.start f.name.text (f.params.map Name.text) p = .ok draft)
    (hbody : (do
        Auto.emit f.autos
        f.body.emit
        let _ ← Build.finish : Build Unit) draft = .ok () d)
    (hc : c.Faces size (paramTokens f.params ++
      (Statements.braced (f.autos.flatMap Auto.tokens ++ f.body.tokens) ++ rest))) :
    ∃ c', Pass.function f.name.text ⟨c, p⟩ = .ok () ⟨c', d.close⟩ ∧ c'.Faces size rest ∧
      d.close.module.function? f.name.text = some d.function ∧ draft.Continues d := by
  obtain ⟨c₁, h₁, hc₁⟩ := (parameters_mirrors f.params _).ok hc rfl
  obtain ⟨c₂, h₂, hc₂⟩ := (functionBody_mirrors f rest).ok hc₁ hbody
  refine ⟨c₂, bind_eq_ok_iff.mpr ⟨_, _, h₁, ?_⟩, hc₂, (function?_close hstart h₂).1,
    functionBody_continues h₂⟩
  simp only [drafted, hstart, h₂]

/-- The end of the text ends the declarations. -/
theorem declarationsAt_nil {c : Cursor} (hc : c.At []) (n : Nat) (p : Program) :
    ∃ c', declarationsAt (n + 1) ⟨c, p⟩ = .ok () ⟨c', p⟩ := by
  obtain ⟨hblanks, hu⟩ := Scan.blanks_nil c hc
  have hname : Scan.name c = .ok "" (c.skip 0) := by
    refine bind_eq_ok_iff.mpr ⟨(), c, hblanks, ?_⟩
    rw [hu]
    rfl
  have hpeek : Scan.peek (c.skip 0) = .ok none (c.skip 0) := by
    rw [Scan.peek, Cursor.unread_skip, hu]
    rfl
  refine ⟨c.skip 0, bind_eq_ok_iff.mpr ⟨"", ⟨c.skip 0, p⟩, scan_eq_ok_iff.mpr ⟨hname, rfl⟩, ?_⟩⟩
  exact bind_eq_ok_iff.mpr ⟨none, ⟨c.skip 0, p⟩, scan_eq_ok_iff.mpr ⟨hpeek, rfl⟩, rfl⟩

/-- The text of a function is one declaration. -/
theorem declarations_built (f : Procedure) {p : Program} {draft d : Draft} {c : Cursor}
    (hstart : Draft.start f.name.text (f.params.map Name.text) p = .ok draft)
    (hbody : (do
        Auto.emit f.autos
        f.body.emit
        let _ ← Build.finish : Build Unit) draft = .ok () d)
    (hc : c.At f.tokens) :
    ∃ c', declarations ⟨c, p⟩ = .ok () ⟨c', d.close.clearScope⟩ ∧
      d.close.module.function? f.name.text = some d.function ∧ draft.Continues d := by
  let tail := paramTokens f.params ++
    (Statements.braced (f.autos.flatMap Auto.tokens ++ f.body.tokens) ++ [])
  have htokens : f.tokens = f.name.text :: "(" :: tail := by
    simp only [tail, tokens, List.cons_append, List.append_nil]
  rw [htokens] at hc
  have hname : Scan.name.Reads (f.name.text :: "(" :: tail) f.name.text ("(" :: tail) :=
    Scan.name_token f.name
  have hparen : Begins "(" '(' := begins_of_mark rfl rfl
  obtain ⟨c₁, h₁, hc₁⟩ := hname c hc
  obtain ⟨c₂, h₂, hu⟩ := Scan.peekMark_solid hparen c₁ hc₁
  obtain ⟨c₃, h₃, hc₃⟩ := Scan.read_mark rfl hu
  have hfaces : c₃.Faces c₃.wordSize tail := ⟨hc₃, rfl⟩
  obtain ⟨c₄, h₄, hc₄, hfunction⟩ := function_mirrors f hstart hbody hfaces
  obtain ⟨n, hn⟩ : ∃ n, c.depth = n + 2 := ⟨4 * c.unread.length + 6, rfl⟩
  obtain ⟨c₅, h₅⟩ := declarationsAt_nil hc₄.at_tokens n d.close.clearScope
  have hdeclaration : declaration f.name.text ⟨c₁, p⟩ = .ok () ⟨c₄, d.close⟩ := by
    refine bind_eq_ok_iff.mpr ⟨some '(', ⟨c₂, p⟩, scan_eq_ok_iff.mpr ⟨h₂, rfl⟩, ?_⟩
    exact bind_eq_ok_iff.mpr ⟨some '(', ⟨c₃, p⟩, scan_eq_ok_iff.mpr ⟨h₃, rfl⟩, h₄⟩
  refine ⟨c₅, ?_, hfunction⟩
  unfold declarations Pass.bounded
  rw [hn]
  refine bind_eq_ok_iff.mpr ⟨f.name.text, ⟨c₁, p⟩, scan_eq_ok_iff.mpr ⟨h₁, rfl⟩, ?_⟩
  rw [if_neg f.name.text_ne_empty]
  refine bind_eq_ok_iff.mpr ⟨(), _, hdeclaration, ?_⟩
  exact bind_eq_ok_iff.mpr ⟨(), ⟨c₄, d.close.clearScope⟩, rfl, h₅⟩

end Reading

section Building

theorem mapM_declareLocal {xs : List Name} {d d' : Draft}
    (h : Build.fill (xs.map fun x => (x.text, .const 0)) d = .ok () d') :
    ∃ us, (xs.mapM fun x => Build.declareLocal x.text) d = .ok us d' := by
  induction xs generalizing d with
  | nil =>
      obtain ⟨_, rfl⟩ := pure_eq_ok_iff.mp h
      exact ⟨[], rfl⟩
  | cons x xs ih =>
      obtain ⟨u, d₁, hx, h⟩ := bind_eq_ok_iff.mp h
      obtain ⟨us, hxs⟩ := ih h
      rw [List.mapM_cons]
      exact ⟨u :: us, bind_eq_ok_iff.mpr ⟨u, d₁, hx, bind_eq_ok_iff.mpr ⟨us, d', hxs, rfl⟩⟩⟩

theorem emit_autos {autos : List Auto} {d d' : Draft}
    (h : Build.fill ((autos.flatMap Auto.names).map fun x => (x.text, .const 0)) d = .ok () d') :
    Auto.emit autos d = .ok () d' := by
  induction autos generalizing d with
  | nil => exact h
  | cons a autos ih =>
      rw [List.flatMap_cons, List.map_append, Build.fill_append] at h
      obtain ⟨_, d₁, ha, h⟩ := bind_eq_ok_iff.mp h
      obtain ⟨us, hnames⟩ := mapM_declareLocal ha
      exact bind_eq_ok_iff.mpr ⟨us, d₁, hnames, ih h⟩

theorem names_bindings (f : Procedure) :
    f.bindings.map Prod.fst = (f.params ++ f.autos.flatMap Auto.names).map Name.text := by
  simp [bindings, Function.comp_def]

theorem nodup_bindings (f : Procedure) : (f.bindings.map Prod.fst).Nodup := by
  rw [names_bindings]
  exact List.Pairwise.map _ (fun x y hne he => hne (Name.text_injective he)) f.distinct

theorem closedIn_bindings (f : Procedure) : f.body.ClosedIn (slotNames f.bindings) := by
  intro x hx
  refine isSome_lookup_slotNames ?_
  rw [names_bindings]
  exact List.mem_map_of_mem (f.closed x hx)

/-- The function can be built wherever no global has its name. -/
theorem exists_draft (f : Procedure) {p : Program} (hg : p.module.hasGlobal f.name.text = false) :
    ∃ program id draft d,
      Draft.start f.name.text (f.params.map Name.text) p = .ok draft ∧
      draft.function.params = f.params.map Name.text ∧
      f.body.emit (Draft.entry program id f.name.text (f.params.map Name.text) f.bindings) =
        .ok () d ∧
      (do
        Auto.emit f.autos
        f.body.emit
        let _ ← Build.finish : Build Unit) draft = .ok () (d.endedIfOpen (.ret (.const 0))) := by
  let params := f.params.map Name.text
  let inserted := p.module.insertFunction (.entered f.name.text params)
  let program : Program := { p with module := inserted.2 }
  let spilled := f.params.map fun x => (x.text, Operand.param x.text)
  have hnodup := f.nodup_bindings
  have hspill : Build.spill params (Draft.entry program inserted.1 f.name.text params []) =
      .ok () (Draft.entry program inserted.1 f.name.text params spilled) := by
    have hparams : (params.map fun x => (x, Operand.param x)) = spilled := List.map_map
    rw [Build.spill_eq_fill, hparams]
    exact Draft.fill_entry (List.nodup_append.mp (List.map_append ▸ hnodup)).1
  have hstart : Draft.start f.name.text params p =
      .ok (Draft.entry program inserted.1 f.name.text params spilled) := by
    have hdefine : p.module.defineFunction f.name.text params = .ok inserted :=
      if_neg (Bool.eq_false_iff.mp hg)
    have hfirst : Draft.ofFunction program inserted.1 (.entered f.name.text params) =
      Draft.entry program inserted.1 f.name.text params [] := rfl
    simp only [Draft.start, hdefine]
    rw [← hfirst] at hspill
    simp only [program] at hspill
    rw [hspill]
  have hautos : Auto.emit f.autos (Draft.entry program inserted.1 f.name.text params spilled) =
      .ok () (Draft.entry program inserted.1 f.name.text params f.bindings) :=
    emit_autos (Draft.fill_entry hnodup)
  obtain ⟨_, d, hbody, hready⟩ := f.body.emit_sure (f.closedIn_bindings) 0
    (Draft.entry program inserted.1 f.name.text params f.bindings) ⟨Nat.one_pos, rfl, Nat.zero_le _⟩
  have hfinish : Build.finish d = .ok d.id (d.endedIfOpen (.ret (.const 0))) := by
    refine Build.finish_eq_ok_iff.mpr ⟨?_, hready.valid, rfl, rfl⟩
    rw [(Statements.emit_beside hbody).labels]
    exact fun _ hm => (List.not_mem_nil hm).elim
  refine ⟨program, inserted.1, _, d, hstart, rfl, hbody, ?_⟩
  refine bind_eq_ok_iff.mpr ⟨(), _, hautos, bind_eq_ok_iff.mpr ⟨(), d, hbody, ?_⟩⟩
  exact bind_eq_ok_iff.mpr ⟨d.id, _, hfinish, rfl⟩

end Building

section Running

variable {m : Machine}

/-- The first words are the arguments and zeros. -/
theorem operand_bindings (f : Procedure) (hp : m.function.params = f.params.map Name.text)
    (ha : m.arguments.length = f.params.length) :
    ∀ b ∈ f.bindings, ∀ s, m.operand s b.2 = some (f.initial m.arguments b.1) := by
  intro b hb s
  rcases List.mem_append.mp hb with hb | hb
  · obtain ⟨x, hx, rfl⟩ := List.mem_map.mp hb
    have hfound : (((f.params.map Name.text).zip m.arguments).lookup x.text).isSome := by
      have hle : (f.params.map Name.text).length ≤ m.arguments.length :=
        Nat.le_of_eq (by rw [List.length_map, ha])
      have hm : x.text ∈ ((f.params.map Name.text).zip m.arguments).map Prod.fst := by
        rw [List.map_fst_zip hle]
        exact List.mem_map_of_mem hx
      obtain ⟨p, hp, he⟩ := List.mem_map.mp hm
      exact List.lookup_isSome_iff.mpr ⟨p, hp, beq_iff_eq.mpr he.symm⟩
    obtain ⟨w, hw⟩ := Option.isSome_iff_exists.mp hfound
    change (m.function.params.zip m.arguments).lookup x.text = _
    rw [hp, initial, hw]
    rfl
  · obtain ⟨x, hx, rfl⟩ := List.mem_map.mp hb
    have hnone : ((f.params.map Name.text).zip m.arguments).lookup x.text = none := by
      refine List.lookup_eq_none_iff.mpr fun p hp => bne_iff_ne.mpr fun he => ?_
      obtain ⟨y, hy, hyx⟩ := List.mem_map.mp (List.of_mem_zip hp).1
      cases Name.text_injective (hyx.trans he.symm)
      exact (List.nodup_append.mp f.distinct).2.2 x hy x hx rfl
    rw [initial, hnone]
    rfl

theorem returns_iff (f : Procedure) {program : Program} {id : FunctionId} {d : Draft}
    (hbody : f.body.emit (Draft.entry program id f.name.text (f.params.map Name.text) f.bindings) =
      .ok () d)
    (hm : m.function = (d.endedIfOpen (.ret (.const 0))).function)
    (hp : m.function.params = f.params.map Name.text)
    (ha : m.arguments.length = f.params.length) (hslots : m.SlotsDisjoint) (memory : Memory)
    (word : Word) : m.Returns memory word ↔ f.Terminates m.arguments word := by
  have hx : d.function.Extends m.function := hm ▸ d.extends_endedIfOpen _
  obtain ⟨n, state, hsteps, hholds⟩ := Machine.entry_steps
    ((Statements.emit_beside hbody).code.trans hx) hslots (f.operand_bindings hp ha) memory
  have hrun : ∀ k, m.Follows (.start memory) d k (f.body.run k (f.initial m.arguments)) := by
    intro k
    have hfollows := f.body.runs (k := k) _ d _ state none hbody rfl (Draft.scoped_entry _)
      f.closedIn_bindings hx hholds
    exact hfollows.of_steps hsteps (Nat.le_add_left k n)
  have hend : d.isOpen → ∀ origin state, m.step (d.point origin state) = .returned 0 := by
    intro ho origin state
    rw [Draft.endedIfOpen_of_isOpen ho] at hm
    have hended : (d.endedBy (.ret (.const 0))).function.Extends m.function := hm ▸ .refl _
    exact Machine.step_endedBy ho hended origin state
  exact Statements.returns_iff hrun hend

end Running

end Procedure

/-- The text of a function is accepted wherever no global has its name. Its code returns a word for
the arguments exactly if the statements come to the word. -/
theorem Session.returns_iff_terminates (f : Procedure) (path : String) (s : Session)
    (hg : s.module.hasGlobal f.name.text = false) :
    ∃ s' fn, compile path f.text s = .ok () s' ∧ s'.module.function? f.name.text = some fn ∧
      ∀ (m : Machine) (memory : Memory) (word : Word), m.function = fn →
        m.arguments.length = f.params.length → m.SlotsDisjoint →
        (m.Returns memory word ↔ f.Terminates m.arguments word) := by
  obtain ⟨program, id, draft, d, hstart, hparams, hbody, hbuilt⟩ := f.exists_draft hg
  have hat : (Cursor.ofText f.text s.wordSize).At f.tokens := .inr (spaced_intercalate ..)
  obtain ⟨c, hpass, hfound, hcontinues⟩ := f.declarations_built hstart hbuilt hat
  let s' : Session := { s with
    program := (d.endedIfOpen (.ret (.const 0))).close.clearScope
    filesCompiled := s.filesCompiled + 1
    linesRead := s.linesRead + c.line }
  refine ⟨s', (d.endedIfOpen (.ret (.const 0))).function, ?_, hfound, ?_⟩
  · unfold compile
    rw [hpass]
  · intro m memory word hm ha hslots
    exact f.returns_iff hbody hm (hm ▸ hcontinues.params.trans hparams) ha hslots memory word

/-- The sum of the numbers up to `n`. -/
def Procedure.sum : Procedure where
  name := ⟨"sum", by decide⟩
  params := [⟨"n", by decide⟩]
  autos := [⟨⟨"s", by decide⟩, []⟩]
  body :=
    let n : Name := ⟨"n", by decide⟩
    let s : Name := ⟨"s", by decide⟩
    .whileLoop (.name n)
      (.expression (.assign (some (.binary .add)) s (.name n))
        (.expression (.stepAfter .down n) .done))
      (.ret (some (.name s)) .done)
  distinct := by decide
  plain := by decide
  closed := by decide

/-- The stack slots of a function that a source defines. -/
def Session.allocatedBy (path text name : String) (s : Session) : Option (List ValueId) :=
  match compile path text s with
  | .ok _ s' => (s'.module.function? name).map Function.allocated
  | .error _ _ => none

theorem Session.returns_sum_of_three :
    ∃ s' fn, ∃ m : Machine, compile "sum.b"
        "sum ( n ) \x7b auto s ; while ( n ) \x7b s =+ n ; n -- ; \x7d return ( s ) ; \x7d"
        (.new "b" 8) = .ok () s' ∧
      s'.module.function? "sum" = some fn ∧ m.function = fn ∧ m.arguments = [3] ∧
      m.Returns (fun _ => 0) 6 := by
  have htext : Procedure.sum.text =
      "sum ( n ) \x7b auto s ; while ( n ) \x7b s =+ n ; n -- ; \x7d return ( s ) ; \x7d" := by
    decide +kernel
  obtain ⟨s', fn, hs, hf, hreturns⟩ :=
    returns_iff_terminates Procedure.sum "sum.b" (.new "b" 8) (by decide)
  have hallocated : fn.allocated = [0, 1] := by
    have h : (new "b" 8).allocatedBy "sum.b" Procedure.sum.text "sum" = some [0, 1] := by
      decide +kernel
    have hfound : s'.module.function? "sum" = some fn := hf
    simp only [allocatedBy, hs, hfound, Option.map_some, Option.some.injEq] at h
    exact h
  let m : Machine :=
    ⟨fn, [3], fun id => if id = 0 then 16 else 24, fun _ => none, fun _ _ _ => none, 8⟩
  have hslots : m.SlotsDisjoint := by
    change ∀ i ∈ fn.allocated, ∀ j ∈ fn.allocated, m.slot i = m.slot j → i = j
    rw [hallocated]
    show ∀ i ∈ [0, 1], ∀ j ∈ [0, 1],
      (if i = 0 then (16 : Word) else 24) = (if j = 0 then 16 else 24) → i = j
    decide
  have hends : Procedure.sum.Terminates [3] 6 :=
    ⟨.returned 6, Statements.exec_of_run (n := 4) rfl, rfl⟩
  exact ⟨s', fn, m, htext ▸ hs, hf, rfl, rfl,
    (hreturns m (fun _ => 0) 6 rfl rfl hslots).mpr hends⟩

end BCompiler
