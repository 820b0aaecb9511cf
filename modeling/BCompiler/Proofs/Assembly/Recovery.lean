import BCompiler.Proofs.Assembly.Data

/-!
The program that the text of a module tells.

The text of a module in which all names can be written settles its strings, its globals, the names
of the functions it declares and the functions it defines. It settles the width of a word as soon as
the module has a global or a function.
-/
namespace BCompiler

/-- A function without the counters of its draft. -/
def Function.shown (f : Function) : String × List String × List Block :=
  (f.name, f.params, f.blocks)

section Paragraphs

variable {α : Type} {R : α → α → Prop} {line line' : α → String} {l l' : List α} {P : Prop}
  {c d front : String}

theorem textOf_paragraph (h : l ≠ []) : textOf (Module.paragraph (l.map line)) =
    "\n" ++ String.join (l.map fun a => line a ++ "\n") := by
  unfold Module.paragraph
  rw [if_neg (by simpa using h), textOf_cons, textOf_map, String.empty_append]

/-- A paragraph begins with an empty line and with what its first line begins with. -/
theorem exists_textOf_paragraph {a : α} (h : ∃ rest, line a = front ++ rest) (l : List α)
    (d : String) : ∃ rest, textOf (Module.paragraph ((a :: l).map line)) ++ d =
      "\n" ++ front ++ rest := by
  obtain ⟨first, hfirst⟩ := h
  refine ⟨first ++ ("\n" ++ (String.join (l.map fun a => line a ++ "\n") ++ d)), ?_⟩
  rw [textOf_paragraph (List.cons_ne_nil _ _), List.map_cons, String.join_cons, hfirst]
  simp only [String.append_assoc]

/-- What differs from the first line of a paragraph and from what follows it. -/
theorem Tells.not_paragraph (hline : ∀ a ∈ l, Tells False front ("\n" ++ line a))
    (hend : Tells False front d) :
    Tells False front (textOf (Module.paragraph (l.map line)) ++ d) := by
  cases l with
  | nil => exact String.empty_append (s := d) ▸ hend
  | cons a l =>
      obtain ⟨rest, hrest⟩ := exists_textOf_paragraph ⟨"", String.append_empty.symm⟩ l d
      rw [hrest]
      exact (hline a (.head _)).of_false_right _

/-- Paragraphs of lines that begin alike, up to something that does not go on with such lines. -/
theorem Tells.paragraph (hfront : ∀ a ∈ l, ∃ rest, line a = front ++ rest)
    (hfront' : ∀ b ∈ l', ∃ rest, line' b = front ++ rest)
    (hitem : ∀ a ∈ l, ∀ b ∈ l', Tells (R a b) (line a ++ "\n") (line' b ++ "\n"))
    (hend : Tells P c d) (hc : Tells False front c ∧ Tells False ("\n" ++ front) c)
    (hd : Tells False front d ∧ Tells False ("\n" ++ front) d) :
    Tells (List.Forall₂ R l l' ∧ P) (textOf (Module.paragraph (l.map line)) ++ c)
      (textOf (Module.paragraph (l'.map line')) ++ d) := by
  have hnone (line : α → String) (d : String) :
      textOf (Module.paragraph (([] : List α).map line)) ++ d = d := String.empty_append
  cases l with
  | nil =>
      rw [hnone]
      cases l' with
      | nil => exact (hnone line' d).symm ▸ hend.imp fun hp => ⟨.nil, hp⟩
      | cons b l' =>
          obtain ⟨rest, hrest⟩ := exists_textOf_paragraph (hfront' b (.head _)) l' d
          rw [hrest]
          exact hc.2.symm.of_false_right _
  | cons a l =>
      cases l' with
      | nil =>
          obtain ⟨rest, hrest⟩ := exists_textOf_paragraph (hfront a (.head _)) l c
          rw [hrest, hnone]
          exact hd.2.of_false_left _
      | cons b l' =>
          rw [textOf_paragraph (List.cons_ne_nil _ _), textOf_paragraph (List.cons_ne_nil _ _),
            String.append_assoc, String.append_assoc]
          refine (Tells.join hitem hend ?_ ?_).behind "\n"
          · intro a ha
            obtain ⟨rest, hrest⟩ := hfront a ha
            rw [hrest, String.append_assoc]
            exact hd.1.of_false_left _
          · intro b hb
            obtain ⟨rest, hrest⟩ := hfront' b hb
            rw [hrest, String.append_assoc]
            exact hc.1.symm.of_false_right _

end Paragraphs

namespace Module

/-- A module in which every name can be written and every definition can be told from its text. -/
structure Legible (m : Module) : Prop where
  named : m.WellNamed
  telling : m.EachGlobal Global.Telling
  addresses : ∀ g ∈ m.globals, g.init.Named
  functions : ∀ f ∈ m.functions, f.isDeclaration = false → f.Legible

/-- The names of the functions that the module declares only. -/
def declaredNames (m : Module) : List String :=
  (m.functions.filter Function.isDeclaration).map Function.name

/-- What the module defines under each name. -/
def definitions (m : Module) : List (String × List String × List Block) :=
  (m.functions.filter fun f => !f.isDeclaration).map Function.shown

/-- The globals of the module, with the zeros that are written out for them. -/
def paddedGlobals (m : Module) : List Global := m.globals.map Global.padded

/-- The same program, as far as a text can tell. -/
structure Agrees (m m' : Module) : Prop where
  strings : m.strings = m'.strings
  globals : m.paddedGlobals = m'.paddedGlobals
  declared : m.declaredNames = m'.declaredNames
  defined : m.definitions = m'.definitions
  wordBits : m.globals ≠ [] ∨ m.functions ≠ [] → m.wordBits = m'.wordBits

/-- Modules that are the same in a part. If it holds anything, they have the same words. -/
def AgreesIn {α : Type} (part : Module → List α) (m m' : Module) : Prop :=
  part m = part m' ∧ (part m ≠ [] → m.wordBits = m'.wordBits)

theorem map_eq_of_forall₂ {α κ : Type} (key : α → κ) {P : Prop} {l l' : List α}
    (h : List.Forall₂ (fun a b => P ∧ key a = key b) l l') :
    l.map key = l'.map key ∧ (l.map key ≠ [] → P) := by
  refine ⟨?_, fun hne => ?_⟩
  · rw [← List.forall₂_eq_eq_eq, List.forall₂_map_left_iff, List.forall₂_map_right_iff]
    exact h.imp fun _ _ hab => hab.2
  · cases h with
    | nil => exact absurd rfl hne
    | cons hab _ => exact hab.1

theorem tells_globalLine {m m' : Module} (h : m.Legible) (h' : m'.Legible) {g g' : Global}
    (hg : g ∈ m.globals) (hg' : g' ∈ m'.globals) :
    Tells (m.wordBits = m'.wordBits ∧ g.padded = g'.padded) (m.globalLine g ++ "\n")
      (m'.globalLine g' ++ "\n") := by
  have hsymbol {m : Module} (h : m.Legible) {g : Global} (hg : g ∈ m.globals) : isSymbol g.name :=
    h.named.isSymbol_of_mem (List.mem_append_left _ (List.mem_append_right _
      (List.mem_map.mpr ⟨g, hg, rfl⟩)))
  have hname := ((TellsLast.symbol (hsymbol h hg) (hsymbol h' hg')).behind "@").before " = "
    (by decide)
  have hline := hname.append_of fun hsame =>
    m.tells_init m' (h.addresses g hg) (h'.addresses g' hg')
      (by rw [h.telling g hg, h'.telling g' hg', hsame])
  rw [← String.append_assoc, ← String.append_assoc] at hline
  exact hline.imp fun he => ⟨he.2.1, congrArg₂ Global.mk he.1 he.2.2⟩

theorem tells_declarationLine {m m' : Module} {f f' : Function} (h : isSymbol f.name)
    (h' : isSymbol f'.name) :
    Tells (m.wordBits = m'.wordBits ∧ f.name = f'.name) (m.declarationLine f ++ "\n")
      (m'.declarationLine f' ++ "\n") := by
  have htype := ((m.tells_wordType m').behind "declare ").before " @" (by decide)
  exact ((htype.append_last (TellsLast.symbol h h')).before "(...)" (by decide)).before "\n"

/-- The text of the definitions, each behind an empty line, up to a last mark. -/
def definitionText (t : Function → List String) (m : Module) : String :=
  String.join ((m.functions.filter fun f => !f.isDeclaration).map fun f => "\n" ++ textOf (t f)) ++
    "."

/-- The same behind the text of the declarations. -/
def functionText (t : Function → List String) (m : Module) : String :=
  textOf (paragraph ((m.functions.filter Function.isDeclaration).map m.declarationLine)) ++
    m.definitionText t

/-- The same behind the text of the globals. -/
def codeText (t : Function → List String) (m : Module) : String :=
  textOf (paragraph (m.globals.map m.globalLine)) ++ m.functionText t

section

variable {m : Module} {t : Function → List String} {word : String}

theorem exists_textOf_function {f : Function} {lines : List String}
    (h : m.functionLines f = .ok lines) : ∃ rest, textOf lines = "define " ++ rest := by
  obtain ⟨groups, _, h⟩ := except_bind_eq_ok h
  cases h
  simp only [List.cons_append, List.nil_append, textOf_cons, String.append_assoc]
  exact ⟨_, rfl⟩

theorem tells_definitionText
    (ht : ∀ f ∈ m.functions.filter fun f => !f.isDeclaration, m.functionLines f = .ok (t f))
    (hword : differ word "\ndefine ") (hend : differ word ".") :
    Tells False word (m.definitionText t) := by
  unfold definitionText
  cases hl : m.functions.filter fun f => !f.isDeclaration with
  | nil => exact tells_of_differ hend
  | cons f rest =>
      obtain ⟨text, htext⟩ := exists_textOf_function (ht f (hl ▸ .head _))
      have hfront : "\n" ++ "define " = "\ndefine " := rfl
      rw [List.map_cons, String.join_cons, htext, ← String.append_assoc, hfront,
        String.append_assoc, String.append_assoc]
      exact (tells_of_differ hword).of_false_right _

theorem tells_functionText
    (ht : ∀ f ∈ m.functions.filter fun f => !f.isDeclaration, m.functionLines f = .ok (t f))
    (hword : differ word "\ndeclare ") (hdefine : differ word "\ndefine ")
    (hend : differ word ".") :
    Tells False word (m.functionText t) := by
  refine .not_paragraph (fun f _ => ?_) (tells_definitionText ht hdefine hend)
  have hfront : "\n" ++ "declare " = "\ndeclare " := rfl
  simp only [declarationLine, String.append_assoc]
  rw [← String.append_assoc, hfront]
  exact (tells_of_differ hword).of_false_right _

/-- The name of a global does not begin as the name of a string does. -/
theorem tells_point_name {name : String} (h : GlobalName name) : Tells False "." name := by
  intro r r' he
  obtain ⟨c, rest, hname, hc⟩ := h.isNameStart
  rw [hname] at he
  cases (List.cons.inj he).1
  cases hc

theorem tells_codeText (h : m.Legible)
    (ht : ∀ f ∈ m.functions.filter fun f => !f.isDeclaration, m.functionLines f = .ok (t f)) :
    Tells False "@." (m.codeText t) ∧ Tells False ("\n" ++ "@.") (m.codeText t) := by
  constructor
  · refine .not_paragraph (fun g _ => (tells_of_differ ?_).of_false_right _)
      (tells_functionText ht ?_ ?_ ?_) <;> decide
  · refine .not_paragraph (fun g hg => Tells.behind "\n" ?_) (tells_functionText ht ?_ ?_ ?_)
    · have hname := tells_point_name (h.named.globalNamed _ (List.mem_map.mpr ⟨g, hg, rfl⟩))
      have hfront : "@" ++ "." = "@." := rfl
      rw [globalLine, String.append_assoc, String.append_assoc, ← hfront]
      exact (hname.of_false_right _).behind "@"
    all_goals decide

theorem textOf_definitions {fs : List Function} (ht : ∀ f ∈ fs, m.functionLines f = .ok (t f)) :
    textOf ((fs.map t).flatMap paragraph) = String.join (fs.map fun f => "\n" ++ textOf (t f)) := by
  induction fs with
  | nil => rfl
  | cons f fs ih =>
      have hne : t f ≠ [] := by
        obtain ⟨groups, _, h⟩ := except_bind_eq_ok (ht f (.head _))
        rw [← Except.ok.inj h]
        exact List.cons_ne_nil _ _
      have hparagraph : paragraph (t f) = "" :: t f := if_neg (by simpa using hne)
      rw [List.map_cons, List.flatMap_cons, textOf_append, ih fun g hg => ht g (.tail _ hg),
        List.map_cons, String.join_cons, hparagraph, textOf_cons, String.empty_append]

/-- The text of a module, section by section. -/
theorem assembly_eq_ok {text : String} (h : m.assembly = .ok text) :
    ∃ t, (∀ f ∈ m.functions.filter fun f => !f.isDeclaration, m.functionLines f = .ok (t f)) ∧
      text ++ "." = textOf ["; ModuleID = '" ++ m.name ++ "'",
        "source_filename = \"" ++ byteLiteral (utf8Bytes m.name) ++ "\""] ++
          (textOf (paragraph (m.strings.map stringLine)) ++ m.codeText t) := by
  obtain ⟨lines, hlines, h⟩ := except_bind_eq_ok h
  obtain ⟨definitions, hdefinitions, hlines⟩ := except_bind_eq_ok hlines
  obtain ⟨t, ht, rfl⟩ := exists_of_mapM hdefinitions
  cases hlines
  cases h
  refine ⟨t, ht, ?_⟩
  change textOf _ ++ "." = _
  simp only [textOf_append, textOf_definitions ht, codeText, functionText, definitionText,
    String.append_assoc]

end

namespace Legible

variable {m m' : Module} (h : m.Legible) (h' : m'.Legible) {t t' : Function → List String}
  (ht : ∀ f ∈ m.functions.filter fun f => !f.isDeclaration, m.functionLines f = .ok (t f))
  (ht' : ∀ f ∈ m'.functions.filter fun f => !f.isDeclaration, m'.functionLines f = .ok (t' f))

include h

theorem legible_of_mem {f : Function} (hf : f ∈ m.functions.filter fun f => !f.isDeclaration) :
    f.Legible ∧ f.blocks ≠ [] := by
  obtain ⟨hm, hd⟩ := List.mem_filter.mp hf
  have hdefined : f.isDeclaration = false := by simpa using hd
  refine ⟨h.functions f hm hdefined, fun hb => ?_⟩
  rw [Function.isDeclaration, hb] at hdefined
  cases hdefined

theorem isSymbol_of_declared {f : Function} (hf : f ∈ m.functions.filter Function.isDeclaration) :
    isSymbol f.name :=
  isSymbol_of_isName (h.named.functionNamed _
    (List.mem_map.mpr ⟨f, (List.mem_filter.mp hf).1, rfl⟩))

theorem exists_stringLine {s : StringConstant} (hs : s ∈ m.strings) :
    isSymbol s.name ∧ ∃ rest, stringLine s = "@." ++ rest := by
  have hm : s.name ∈ m.stringNames := List.mem_map.mpr ⟨s, hs, rfl⟩
  refine ⟨h.named.isSymbol_of_mem (List.mem_append_right _ hm), ?_⟩
  rw [h.named.strings] at hm
  obtain ⟨i, _, hi⟩ := List.mem_map.mp hm
  have hfront : "@" ++ ".str." = "@." ++ "str." := rfl
  simp only [stringLine, ← hi, stringSymbol, String.append_assoc]
  rw [← String.append_assoc, hfront, String.append_assoc]
  exact ⟨_, rfl⟩

include h' ht ht'

theorem tells_definitions :
    Tells (AgreesIn definitions m m') (m.definitionText t) (m'.definitionText t') := by
  have hend (text : String) : Tells False ("\n" ++ text) "." :=
    (tells_of_differ (by decide)).of_false_left _
  have hitem : ∀ f ∈ m.functions.filter fun f => !f.isDeclaration,
      ∀ f' ∈ m'.functions.filter fun f => !f.isDeclaration,
      Tells (m.wordBits = m'.wordBits ∧ f.shown = f'.shown) ("\n" ++ textOf (t f))
        ("\n" ++ textOf (t' f')) := by
    intro f hf f' hf'
    obtain ⟨hlegible, hne⟩ := h.legible_of_mem hf
    obtain ⟨hlegible', hne'⟩ := h'.legible_of_mem hf'
    have htold := hlegible.tells_function hlegible' hne hne' (ht f hf) (ht' f' hf')
    refine (htold.behind "\n").imp ?_
    rintro ⟨hwidth, hname, hparams, hblocks⟩
    exact ⟨hwidth, by rw [Function.shown, hname, hparams, hblocks, Function.shown]⟩
  exact (Tells.join hitem (.same ".") (fun f _ => hend _) fun f _ => (hend _).symm).imp fun hall =>
    map_eq_of_forall₂ Function.shown hall.1

theorem tells_functions :
    Tells (AgreesIn declaredNames m m' ∧ AgreesIn definitions m m') (m.functionText t)
      (m'.functionText t') := by
  have hfront (m : Module) (f : Function) : ∃ rest, m.declarationLine f = "declare " ++ rest := by
    simp only [declarationLine, String.append_assoc]
    exact ⟨_, rfl⟩
  have hitem : ∀ f ∈ m.functions.filter Function.isDeclaration,
      ∀ f' ∈ m'.functions.filter Function.isDeclaration,
      Tells (m.wordBits = m'.wordBits ∧ f.name = f'.name) (m.declarationLine f ++ "\n")
        (m'.declarationLine f' ++ "\n") := fun f hf f' hf' =>
    tells_declarationLine (h.isSymbol_of_declared hf) (h'.isSymbol_of_declared hf')
  have hend {m : Module} {t : Function → List String}
      (ht : ∀ f ∈ m.functions.filter fun f => !f.isDeclaration, m.functionLines f = .ok (t f)) :
      Tells False "declare " (m.definitionText t) ∧
        Tells False ("\n" ++ "declare ") (m.definitionText t) :=
    ⟨tells_definitionText ht (by decide) (by decide),
      tells_definitionText ht (by decide) (by decide)⟩
  have hall := Tells.paragraph (fun f _ => hfront m f) (fun f _ => hfront m' f) hitem
    (h.tells_definitions h' ht ht') (hend ht) (hend ht')
  exact hall.imp fun hboth => ⟨map_eq_of_forall₂ Function.name hboth.1, hboth.2⟩

theorem tells_code :
    Tells (AgreesIn paddedGlobals m m' ∧ AgreesIn declaredNames m m' ∧ AgreesIn definitions m m')
      (m.codeText t) (m'.codeText t') := by
  have hfront (m : Module) (g : Global) : ∃ rest, m.globalLine g = "@" ++ rest := by
    simp only [globalLine, String.append_assoc]
    exact ⟨_, rfl⟩
  have hitem : ∀ g ∈ m.globals, ∀ g' ∈ m'.globals,
      Tells (m.wordBits = m'.wordBits ∧ g.padded = g'.padded) (m.globalLine g ++ "\n")
        (m'.globalLine g' ++ "\n") := fun g hg g' hg' => tells_globalLine h h' hg hg'
  have hend {m : Module} {t : Function → List String}
      (ht : ∀ f ∈ m.functions.filter fun f => !f.isDeclaration, m.functionLines f = .ok (t f)) :
      Tells False "@" (m.functionText t) ∧ Tells False ("\n" ++ "@") (m.functionText t) :=
    ⟨tells_functionText ht (by decide) (by decide) (by decide),
      tells_functionText ht (by decide) (by decide) (by decide)⟩
  have hall := Tells.paragraph (fun g _ => hfront m g) (fun g _ => hfront m' g) hitem
    (h.tells_functions h' ht ht') (hend ht) (hend ht')
  exact hall.imp fun hboth => ⟨map_eq_of_forall₂ Global.padded hboth.1, hboth.2⟩

theorem tells_strings :
    Tells (m.strings = m'.strings ∧ AgreesIn paddedGlobals m m' ∧ AgreesIn declaredNames m m' ∧
        AgreesIn definitions m m')
      (textOf (paragraph (m.strings.map stringLine)) ++ m.codeText t)
      (textOf (paragraph (m'.strings.map stringLine)) ++ m'.codeText t') := by
  have hitem : ∀ s ∈ m.strings, ∀ s' ∈ m'.strings,
      Tells (s = s') (stringLine s ++ "\n") (stringLine s' ++ "\n") := fun s hs s' hs' =>
    tells_stringLine (h.exists_stringLine hs).1 (h'.exists_stringLine hs').1
  have hall := Tells.paragraph (fun s hs => (h.exists_stringLine hs).2)
    (fun s hs => (h'.exists_stringLine hs).2) hitem (h.tells_code h' ht ht') (tells_codeText h ht)
    (tells_codeText h' ht')
  exact hall.imp fun hboth => ⟨List.forall₂_eq_eq_eq ▸ hboth.1, hboth.2⟩

end Legible

/-- Where a module has a function, it declares or defines one. -/
theorem ne_nil_of_functions {m : Module} (h : m.functions ≠ []) :
    m.declaredNames ≠ [] ∨ m.definitions ≠ [] := by
  obtain ⟨f, hf⟩ := List.exists_mem_of_ne_nil _ h
  cases hd : f.isDeclaration with
  | true =>
      have hm : f ∈ m.functions.filter Function.isDeclaration := List.mem_filter.mpr ⟨hf, hd⟩
      exact .inl (List.ne_nil_of_mem (List.mem_map.mpr ⟨f, hm, rfl⟩))
  | false =>
      have hm : f ∈ m.functions.filter fun f => !f.isDeclaration :=
        List.mem_filter.mpr ⟨hf, by simp [hd]⟩
      exact .inr (List.ne_nil_of_mem (List.mem_map.mpr ⟨f, hm, rfl⟩))

/-- Modules of one name with one text are the same program. -/
theorem Legible.agrees {m m' : Module} (h : m.Legible) (h' : m'.Legible) (hname : m.name = m'.name)
    {text : String} (hs : m.assembly = .ok text) (hs' : m'.assembly = .ok text) : m.Agrees m' := by
  obtain ⟨t, ht, htext⟩ := assembly_eq_ok hs
  obtain ⟨t', ht', htext'⟩ := assembly_eq_ok hs'
  rw [htext, hname] at htext'
  have htold := (h.tells_strings h' ht ht').behind (textOf ["; ModuleID = '" ++ m'.name ++ "'",
    "source_filename = \"" ++ byteLiteral (utf8Bytes m'.name) ++ "\""])
  obtain ⟨⟨hstrings, hglobals, hdeclared, hdefined⟩, _⟩ :=
    @htold [] [] (by rw [htext'])
  refine ⟨hstrings, hglobals.1, hdeclared.1, hdefined.1, ?_⟩
  rintro (hne | hne)
  · exact hglobals.2 (by simpa [paddedGlobals] using hne)
  · exact (ne_nil_of_functions hne).elim hdeclared.2 hdefined.2

end Module

namespace Function

variable {p : Program} {f : Function}

theorem Printable.named_operand (hf : f.Printable p) {type : ValueType} {v : Operand}
    (h : f.Meets p (.operand type v)) : v.Named := by
  cases h with
  | const w => trivial
  | param hx => exact isSymbol_of_isName (hf.params _ hx)
  | symbol hs => exact hs.1
  | value hi => trivial

theorem Printable.named_instr (hf : f.Printable p) {instr : Instr}
    (h : ∀ need ∈ instr.needs, f.Meets p need) (hcalls : instr.callsComputed) : instr.Named := by
  cases instr with
  | define id operation =>
      obtain ⟨hd, hc, _⟩ := Printable.meets_of_needs h
      refine ⟨fun x hx => hf.named_operand (hd x hx), fun name hn => ?_, hcalls⟩
      cases hc name hn with
      | callee hs _ => exact hs
  | store value address =>
      exact ⟨hf.named_operand (h _ (.head _)), hf.named_operand (h _ (.tail _ (.head _)))⟩

/-- What a source defines can be told from its text. -/
theorem Unambiguous.legible (h : f.Unambiguous) (hcalls : f.CallsComputed) : f.Legible := by
  obtain ⟨hdistinct, p, hf⟩ := h
  have hneeds {b : Block} (hb : b ∈ f.blocks) : ∀ need ∈ b.needs, f.Meets p need :=
    fun need hn => hf.met need (List.mem_flatMap.mpr ⟨b, hb, hn⟩)
  refine ⟨hf.name, fun x hx => isSymbol_of_isName (hf.params x hx), hf.named,
    (List.nodup_append.mp (List.nodup_append.mp hdistinct).1).1, ?_, ?_⟩
  · intro b hb instr hi
    refine hf.named_instr (fun need hn => hneeds hb need ?_)
      (hcalls instr (List.mem_flatMap.mpr ⟨b, hb, hi⟩))
    exact List.mem_append_left _ (List.mem_flatMap.mpr ⟨instr, hi, hn⟩)
  · intro b hb t ht x hx
    have hterminator : b.terminator = some t := ht
    have hmem : Need.operand x.1 x.2 ∈ b.needs := by
      refine List.mem_append_right _ ?_
      rw [hterminator]
      exact List.mem_append_left _ (List.mem_map.mpr ⟨x, hx, rfl⟩)
    exact hf.named_operand (hneeds hb _ hmem)

end Function

namespace Session

/-- What accepted sources leave can be told from its text. -/
theorem legible_history {moduleName : String} {wordSize : Nat} {sources : List (String × String)}
    (h : (new moduleName wordSize).acceptsAll sources) :
    ((new moduleName wordSize).history sources).module.Legible := by
  have hclosed := closed_history moduleName wordSize sources
  have hsettled : Settled (fun f => f.Unambiguous ∧ f.CallsComputed) _ :=
    settled_history (fun hname hparams hstart hbody =>
      ⟨Function.unambiguous_of_definition hname hparams hstart hbody,
        Function.callsComputed_of_body hstart hbody⟩) h
  refine ⟨hclosed.named, eachGlobal_history Global.innate_telling moduleName wordSize sources, ?_,
    fun f hf hdefined => ?_⟩
  · exact fun g hg x hx => hclosed.named.isSymbol_of_mem (hclosed.addresses g hg x hx)
  · rcases hsettled f hf with hdeclared | hP
    · rw [hdeclared] at hdefined
      cases hdefined
    · exact hP.1.legible hP.2

/-- Sessions whose sources were all accepted, and whose modules have one name and one text, hold the
same program. Those that hold no function and no global have one text, whatever their words are. -/
theorem agrees_of_assembly {moduleName : String} {wordSize wordSize' : Nat}
    {sources sources' : List (String × String)}
    (h : (new moduleName wordSize).acceptsAll sources)
    (h' : (new moduleName wordSize').acceptsAll sources') :
    (((new moduleName wordSize).history sources).module.assembly =
        ((new moduleName wordSize').history sources').module.assembly →
      ((new moduleName wordSize).history sources).module.Agrees
        ((new moduleName wordSize').history sources').module) ∧
    (((new moduleName wordSize).history sources).module.IsBare →
      ((new moduleName wordSize').history sources').module.IsBare →
      ((new moduleName wordSize).history sources).module.assembly =
        ((new moduleName wordSize').history sources').module.assembly) := by
  constructor
  · intro htext
    obtain ⟨text, ht⟩ := assembly_history moduleName wordSize sources
    have hname := (name_history sources (new moduleName wordSize)).trans
      (name_history sources' (new moduleName wordSize')).symm
    exact (legible_history h).agrees (legible_history h') hname ht (htext.symm.trans ht)
  · intro hbare hbare'
    rw [module_history_of_isBare h hbare, module_history_of_isBare h' hbare']
    rfl

/-- A program in one source and in two, once with a zero less in the initializer of an array. -/
theorem agrees_padded_array :
    ((new "b" 8).history
        [("a.b", "a[3] 1; f(x) \x7b extrn a; return(g(a[x], \"s\") ? x : a[1]); \x7d")]
      ).module.Agrees
      ((new "b" 8).history [("a.b", "a[3] 1, 0;"),
        ("b.b", "f(x) \x7b extrn a; return(g(a[x], \"s\") ? x : a[1]); \x7d")]).module :=
  (agrees_of_assembly (by decide +kernel) (by decide +kernel)).1 (by decide +kernel)

/-- The text of a module that holds nothing does not tell the width of a word. -/
theorem assembly_hides_wordBits :
    (new "b" 4).acceptsAll [("a.b", "")] ∧ (new "b" 8).acceptsAll [("a.b", "")] ∧
      ((new "b" 4).history [("a.b", "")]).module.assembly =
        ((new "b" 8).history [("a.b", "")]).module.assembly ∧
      ((new "b" 4).history [("a.b", "")]).module.wordBits ≠
        ((new "b" 8).history [("a.b", "")]).module.wordBits := by
  decide +kernel

end Session
end BCompiler
