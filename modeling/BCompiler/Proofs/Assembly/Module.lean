import BCompiler.Proofs.Assembly.Function
import BCompiler.Proofs.Assembly.Layout
import BCompiler.Proofs.Closure
import BCompiler.Proofs.Declaration

/-!
The text of a module.

Each function, global and string is introduced by one line of the text: a global or a string by its
data, a function by its declaration or its definition. In a closed program these lines introduce
every symbol once, and whatever line names a symbol names one of these. All this is said of the
lines as they fall at the newlines, so it holds of a module whose name has none: behind a newline in
its name there may stand a line of any kind.
-/
namespace BCompiler

theorem references_quoted {text : List Char} (h : '"' ∉ text) (rest : List Char) :
    references true (text ++ '"' :: rest) = references false rest := by
  induction text with
  | nil => rfl
  | cons c text ih =>
      have hc : c ≠ '"' := fun he => h (he ▸ .head _)
      rw [List.cons_append, references, bne_iff_ne.mpr hc]
      exact ih fun hm => h (.tail _ hm)

/-- Between quotes there are no references. -/
theorem Mentions.quoted {P : Reference → Prop} (front : String) {text inside : String}
    (ht : front ++ "\"" = text) (hfront : isPlainText front) (h : '"' ∉ inside.toList)
    (hwhole : '\n' ∉ inside.toList) : Mentions P (text ++ inside ++ "\"") := by
  have hopen : '\n' ∉ text.toList :=
    ht ▸ newline_not_mem_append.mpr ⟨newline_not_mem_of_isPlainText hfront, by decide⟩
  refine ⟨newline_not_mem_append.mpr ⟨newline_not_mem_append.mpr ⟨hopen, hwhole⟩, by decide⟩,
    fun rest hrest => ?_⟩
  rw [← ht]
  simp only [String.toList_append, List.append_assoc]
  rw [references_plain hfront]
  change ∀ r ∈ references true (inside.toList ++ '"' :: rest), P r
  rwa [references_quoted h]

theorem introduction?_eq_none {line : String} (h : introduced line = none) :
    introduction? line = none := by
  unfold introduction?
  rw [h]
  rfl

namespace Module

/-- A reference to a symbol of the module, or to a name of one function. -/
def Defines (m : Module) : Reference → Prop
  | .symbol name => name ∈ m.symbols
  | .inner _ => True

/-- The lines introduce the symbols in the order given, and refer to no symbol that the module does
not have. Only the name of the module can break them. -/
structure Introduces (m : Module) (lines : List String)
    (symbols : List (Introduction × String)) : Prop where
  introduces : lines.filterMap introduction? = symbols
  refers : ∀ line ∈ lines, ∀ r ∈ lineReferences line, m.Defines r
  whole : '\n' ∉ m.name.toList → ∀ line ∈ lines, '\n' ∉ line.toList

namespace Introduces

variable {m : Module}

theorem nil : m.Introduces [] [] :=
  ⟨rfl, fun _ h => absurd h List.not_mem_nil, fun _ _ h => absurd h List.not_mem_nil⟩

theorem append {lines lines' : List String} {symbols symbols' : List (Introduction × String)}
    (h : m.Introduces lines symbols) (h' : m.Introduces lines' symbols') :
    m.Introduces (lines ++ lines') (symbols ++ symbols') where
  introduces := by rw [List.filterMap_append, h.introduces, h'.introduces]
  refers := fun line hline => (List.mem_append.mp hline).elim (h.refers line) (h'.refers line)
  whole := fun hname line hline =>
    (List.mem_append.mp hline).elim (h.whole hname line) (h'.whole hname line)

/-- A line that introduces nothing. -/
theorem of_none {line : String} (h : introduced line = none)
    (hrefers : ∀ r ∈ lineReferences line, m.Defines r)
    (hwhole : '\n' ∉ m.name.toList → '\n' ∉ line.toList) : m.Introduces [line] [] where
  introduces := by rw [List.filterMap_cons, introduction?_eq_none h, List.filterMap_nil]
  refers := fun _ hl => List.mem_singleton.mp hl ▸ hrefers
  whole := fun hname _ hl => List.mem_singleton.mp hl ▸ hwhole hname

/-- A line for each item, which introduces the name of the item. -/
theorem map {α : Type} {items : List α} {line name : α → String} {way : Introduction}
    (h : ∀ a ∈ items, introduction? (line a) = some (way, name a) ∧
      MentionsLast m.Defines (line a)) :
    m.Introduces (items.map line) (items.map fun a => (way, name a)) where
  introduces := by
    induction items with
    | nil => rfl
    | cons a items ih =>
        rw [List.map_cons, List.filterMap_cons, (h a (.head _)).1, ih fun b hb => h b (.tail _ hb)]
        rfl
  refers := by
    intro text htext
    obtain ⟨a, ha, rfl⟩ := List.mem_map.mp htext
    exact (h a ha).2.lineReferences
  whole := by
    intro _ text htext
    obtain ⟨a, ha, rfl⟩ := List.mem_map.mp htext
    exact (h a ha).2.whole

theorem paragraph {lines : List String} {symbols : List (Introduction × String)}
    (h : m.Introduces lines symbols) : m.Introduces (Module.paragraph lines) symbols := by
  unfold Module.paragraph
  split
  · next hempty => rwa [List.isEmpty_iff.mp hempty] at h
  · have hblank : m.Introduces [""] [] :=
      .of_none rfl (fun _ hr => absurd hr List.not_mem_nil) fun _ => List.not_mem_nil
    exact hblank.append h

/-- Paragraphs, each with one symbol. -/
theorem paragraphs {α : Type} {items : List α} {lines : α → List String} {name : α → String}
    {way : Introduction} (h : ∀ a ∈ items, m.Introduces (lines a) [(way, name a)]) :
    m.Introduces ((items.map lines).flatMap Module.paragraph)
      (items.map fun a => (way, name a)) := by
  induction items with
  | nil => exact .nil
  | cons a items ih =>
      exact (h a (.head _)).paragraph.append (ih fun b hb => h b (.tail _ hb))

end Introduces

/-- The symbols of a module in the order of its text, with the lines that introduce them. -/
def introductions (m : Module) : List (Introduction × String) :=
  m.strings.map (fun s => (.data, s.name)) ++ m.globals.map (fun g => (.data, g.name)) ++
    (m.functions.filter Function.isDeclaration).map (fun f => (.declaration, f.name)) ++
    (m.functions.filter fun f => !f.isDeclaration).map (fun f => (.definition, f.name))

namespace WellNamed

variable {m : Module} (h : m.WellNamed)

include h

theorem isSymbol_of_mem {name : String} (hn : name ∈ m.symbols) : isSymbol name := by
  rcases List.mem_append.mp hn with hn | hn
  · rcases List.mem_append.mp hn with hn | hn
    · exact isSymbol_of_isName (h.functionNamed name hn)
    · rcases h.globalNamed name hn with hn | ⟨x, hx, rfl⟩
      · exact isSymbol_of_isName hn
      · exact isSymbol_append.mpr ⟨isSymbol_of_isName hx, by decide⟩
  · rw [h.strings] at hn
    obtain ⟨i, _, rfl⟩ := List.mem_map.mp hn
    exact isSymbol_append.mpr ⟨by decide, isSymbol_toString i⟩

theorem mentions_constant {value : Constant} (hv : ∀ x ∈ value.addresses, x ∈ m.symbols) :
    MentionsLast m.Defines (m.constantText value) := by
  cases value with
  | word w => exact (Mentions.plain (isPlainText_decimal w)).last
  | address name =>
      have hn := hv name (.head _)
      have hname : MentionsLast m.Defines ("ptrtoint (ptr @" ++ name) :=
        .symbol "ptrtoint (ptr " rfl (by decide) (h.isSymbol_of_mem hn) hn
      have hto := hname.append (.plain (a := " to ") (by decide)) (by decide)
      exact ((hto.append (.plain (isPlainText_wordType m))).append
        (.plain (a := ")") (by decide))).last

theorem mentions_constantList {values : List Constant} {length : Nat}
    (hv : ∀ x ∈ values.flatMap Constant.addresses, x ∈ m.symbols) :
    Mentions m.Defines (m.constantList values length) := by
  have htexts : ∀ text ∈ values.map m.constantText ++
      List.replicate (length - values.length) "0", MentionsLast m.Defines text := by
    intro text ht
    rcases List.mem_append.mp ht with ht | ht
    · obtain ⟨value, hvalue, rfl⟩ := List.mem_map.mp ht
      exact h.mentions_constant fun x hx => hv x (List.mem_flatMap.mpr ⟨value, hvalue, hx⟩)
    · rw [(List.mem_replicate.mp ht).2]
      exact (Mentions.plain (by decide)).last
  have hlist : MentionsLast m.Defines (commaList ((values.map m.constantText ++
      List.replicate (length - values.length) "0").map fun text => m.wordType ++ " " ++ text)) := by
    refine .commaList fun item hitem => ?_
    obtain ⟨text, ht, rfl⟩ := List.mem_map.mp hitem
    exact (Mentions.plain (isPlainText_append.mpr ⟨isPlainText_wordType m, by decide⟩)).append_last
      (htexts text ht)
  exact ((Mentions.plain (a := "[") (by decide)).append_last hlist).append
    (.plain (a := "]") (by decide)) (by decide)

theorem mentions_init {init : GlobalInit} (hv : ∀ x ∈ init.addresses, x ∈ m.symbols) :
    MentionsLast m.Defines (m.initText init) := by
  have plain (text : String) (h : isPlainText text) : Mentions m.Defines text := .plain h
  have hword := isPlainText_wordType m
  have harray (n : Nat) : isPlainText ("global " ++ m.arrayType n ++ " ") := by
    simp only [isPlainText_append, isPlainText_arrayType]
    decide
  cases init with
  | word value =>
      have hfront : isPlainText ("global " ++ m.wordType ++ " ") := by
        simp only [isPlainText_append, hword]
        decide
      exact (plain _ hfront).append_last (h.mentions_constant hv)
  | placeholder =>
      have hline : isPlainText ("common global " ++ m.wordType ++ " 0") := by
        simp only [isPlainText_append, hword]
        decide
      exact (plain _ hline).last
  | words values =>
      exact ((plain _ (harray values.length)).append (h.mentions_constantList hv)).last
  | buffer length values =>
      cases values with
      | nil =>
          have hline :
              isPlainText ("global " ++ m.arrayType length.toNat ++ " zeroinitializer") := by
            simp only [isPlainText_append, isPlainText_arrayType]
            decide
          exact (plain _ hline).last
      | cons value values =>
          exact ((plain _ (harray length.toNat)).append (h.mentions_constantList hv)).last

/-- The line of a global or a string, whatever stands behind its name. -/
theorem introduces_data {name rest : String} (hn : name ∈ m.symbols) (hapart : isApart rest)
    (hrest : MentionsLast m.Defines rest) :
    introduction? ("@" ++ name ++ rest) = some (.data, name) ∧
      MentionsLast m.Defines ("@" ++ name ++ rest) := by
  have hs := h.isSymbol_of_mem hn
  refine ⟨introduction?_eq_some "" rest rfl rfl hs hapart ?_, ?_⟩
  · rw [String.append_assoc]
    exact introduced_data _
  · have hname : MentionsLast m.Defines ("@" ++ name) := .symbol "" rfl rfl hs hn
    exact hname.append_last hrest hapart

theorem introduces_strings :
    m.Introduces (m.strings.map stringLine) (m.strings.map fun s => (.data, s.name)) := by
  refine .map fun s hs => ?_
  have hname : s.name ∈ m.symbols := List.mem_append_right _ (List.mem_map.mpr ⟨s, hs, rfl⟩)
  have hfront : isPlainText (" = private unnamed_addr constant [" ++
      toString (s.bytes.length + 1) ++ " x i8] c") := by
    simp only [isPlainText_append, isPlainText_toString]
    decide
  have hquote : '"' ∉ (byteLiteral s.bytes ++ "\\00").toList := by
    rw [byteLiteral_append_zero]
    exact (isByteLiteral_byteLiteral _).unquoted
  have hwhole : '\n' ∉ (byteLiteral s.bytes ++ "\\00").toList := by
    rw [byteLiteral_append_zero]
    exact newline_not_mem_byteLiteral _
  have hrest := (Mentions.quoted (P := m.Defines) _ rfl hfront hquote hwhole).last
  have hline : stringLine s = "@" ++ s.name ++ (" = private unnamed_addr constant [" ++
      toString (s.bytes.length + 1) ++ " x i8] c" ++ "\"" ++ (byteLiteral s.bytes ++ "\\00") ++
      "\"") := by
    have hopen : " x i8] c\"" = " x i8] c" ++ "\"" := rfl
    have hclose : "\\00\"" = "\\00" ++ "\"" := rfl
    simp only [stringLine, hopen, hclose, String.append_assoc]
  rw [hline]
  refine h.introduces_data hname ?_ hrest
  simp only [String.append_assoc]
  exact isApart_append (by decide) _

theorem introduces_globals
    (ha : ∀ g ∈ m.globals, ∀ x ∈ g.init.addresses, x ∈ m.symbols) :
    m.Introduces (m.globals.map m.globalLine) (m.globals.map fun g => (.data, g.name)) := by
  refine .map fun g hg => ?_
  have hname : g.name ∈ m.symbols :=
    List.mem_append_left _ (List.mem_append_right _ (List.mem_map.mpr ⟨g, hg, rfl⟩))
  have hrest : MentionsLast m.Defines (" = " ++ m.initText g.init) :=
    (Mentions.plain (by decide)).append_last (h.mentions_init (ha g hg))
  unfold globalLine
  rw [String.append_assoc]
  exact h.introduces_data hname (isApart_append (by decide) _) hrest

theorem introduces_declarations :
    m.Introduces ((m.functions.filter Function.isDeclaration).map m.declarationLine)
      ((m.functions.filter Function.isDeclaration).map fun f => (.declaration, f.name)) := by
  refine .map fun f hf => ?_
  have hname : f.name ∈ m.symbols := List.mem_append_left _ (List.mem_append_left _
    (List.mem_map.mpr ⟨f, (List.mem_filter.mp hf).1, rfl⟩))
  have hs := h.isSymbol_of_mem hname
  have hfront : isPlainText ("declare " ++ m.wordType ++ " ") := by
    simp only [isPlainText_append, isPlainText_wordType]
    decide
  have hmark : "declare " ++ m.wordType ++ " " ++ "@" = "declare " ++ m.wordType ++ " @" :=
    String.append_assoc
  refine ⟨introduction?_eq_some _ "(...)" (by rw [hmark]; rfl) hfront hs (by decide) ?_, ?_⟩
  · unfold declarationLine
    simp only [String.append_assoc]
    exact introduced_declaration _
  · have hsymbol := MentionsLast.symbol (P := m.Defines) _ hmark hfront hs hname
    exact (hsymbol.append (.plain (a := "(...)") (by decide)) (by decide)).last

omit h in
/-- The module's name stands in a comment and between quotes. -/
theorem introduces_header : m.Introduces [m.idLine, m.sourceLine] [] := by
  have hid : m.Introduces [m.idLine] [] := by
    have hhead : m.idLine.toList.head? = some ';' := by
      unfold idLine
      rw [String.toList_append, String.toList_append]
      rfl
    refine .of_none (introduced_eq_none hhead (by decide)) (fun r hr => ?_)
      newline_not_mem_idLine_iff.mpr
    unfold lineReferences idLine at hr
    simp only [String.toList_append, List.append_assoc] at hr
    cases hr
  have hquoted : Mentions m.Defines m.sourceLine := by
    unfold sourceLine
    exact .quoted "source_filename = " rfl (by decide) (isByteLiteral_byteLiteral _).unquoted
      (newline_not_mem_byteLiteral _)
  have hhead : m.sourceLine.toList.head? = some 's' := by
    unfold sourceLine
    rw [String.toList_append, String.toList_append]
    rfl
  have hsource : m.Introduces [m.sourceLine] [] :=
    .of_none (introduced_eq_none hhead (by decide)) hquoted.last.lineReferences fun _ =>
      hquoted.whole
  exact hid.append hsource

end WellNamed

theorem Admits.printable {m : Module} {f : Function} (h : m.Admits f) (hname : isName f.name) :
    f.Printable ⟨m, []⟩ :=
  { h.coherent with
    name := isSymbol_of_isName hname
    params := h.params }

end Module

namespace Program.Closed

variable {p : Program} (h : p.Closed)

include h

theorem introduces_function {f : Function} (hf : f ∈ p.module.functions) :
    ∃ lines, p.module.functionLines f = .ok lines ∧
      p.module.Introduces lines [(.definition, f.name)] ∧
      ∀ instr ∈ f.instrs, ∃ line ∈ lines, p.module.instrLine f instr = .ok line := by
  have hname : f.name ∈ p.module.functionNames := List.mem_map.mpr ⟨f, hf, rfl⟩
  have hprintable := (h.functions f hf).printable (h.named.functionNamed _ hname)
  have hrefers : ∀ r, f.Refers ⟨p.module, []⟩ r → p.module.Defines r := by
    intro r hr
    cases r with
    | inner name => trivial
    | symbol name =>
        rcases hr with hr | hr | rfl
        · exact hr
        · cases hr
        · exact List.mem_append_left _ (List.mem_append_left _ hname)
  obtain ⟨head, body, hlines, hhead, hheadRefers, _, hbody, hinstrs⟩ :=
    hprintable.mentions_function p.module
  refine ⟨head :: body, hlines, ⟨?_, ?_, ?_⟩, ?_⟩
  · rw [List.filterMap_cons, hhead, List.filterMap_eq_nil_iff.mpr]
    exact fun line hl => introduction?_eq_none (hbody line hl).introduces
  · intro line hl r hr
    rcases List.mem_cons.mp hl with rfl | hl
    · exact hrefers r (hheadRefers.lineReferences r hr)
    · exact hrefers r ((hbody line hl).refers r hr)
  · intro _ line hl
    rcases List.mem_cons.mp hl with rfl | hl
    · exact hheadRefers.whole
    · exact (hbody line hl).whole
  · intro instr hi
    obtain ⟨line, hl, hline⟩ := hinstrs instr hi
    exact ⟨line, .tail _ hl, hline⟩

/-- A closed program can be written, and its lines introduce each of its symbols. -/
theorem introduces_lines :
    ∃ lines, p.module.lines = .ok lines ∧ p.module.Introduces lines p.module.introductions ∧
      ∀ f ∈ p.module.functions, ∀ instr ∈ f.instrs,
        ∃ line ∈ lines, p.module.instrLine f instr = .ok line := by
  have hfunctions : ∀ f ∈ p.module.functions.filter fun f => !f.isDeclaration,
      ∃ lines, p.module.functionLines f = .ok lines ∧
        p.module.Introduces lines [(.definition, f.name)] ∧
        ∀ instr ∈ f.instrs, ∃ line ∈ lines, p.module.instrLine f instr = .ok line :=
    fun f hf => h.introduces_function (List.mem_filter.mp hf).1
  obtain ⟨t, ht, hmap⟩ := mapM_eq_ok hfunctions
  refine ⟨_, by unfold Module.lines; rw [hmap]; rfl, ?_, ?_⟩
  · have hheader := Module.WellNamed.introduces_header (m := p.module)
    have hstrings := hheader.append h.named.introduces_strings.paragraph
    have hglobals := hstrings.append (h.named.introduces_globals h.addresses).paragraph
    have hdeclared := hglobals.append h.named.introduces_declarations.paragraph
    exact hdeclared.append (.paragraphs fun f hf => (ht f hf).2.1)
  · intro f hf instr hi
    have hdefined : (!f.isDeclaration) = true := by
      unfold Function.isDeclaration
      cases hb : f.blocks with
      | nil =>
          unfold Function.instrs at hi
          rw [hb] at hi
          cases hi
      | cons b blocks => rfl
    have hf : f ∈ p.module.functions.filter fun f => !f.isDeclaration :=
      List.mem_filter.mpr ⟨hf, hdefined⟩
    obtain ⟨line, hl, hline⟩ := (ht f hf).2.2 instr hi
    refine ⟨line, List.mem_append_right _ (List.mem_flatMap.mpr ⟨t f, ?_, ?_⟩), hline⟩
    · exact List.mem_map.mpr ⟨f, hf, rfl⟩
    · unfold Module.paragraph
      split
      · next hempty => rw [List.isEmpty_iff.mp hempty] at hl; exact hl
      · exact .tail _ hl

end Program.Closed

theorem Module.assembly_eq_ok_lines {m : Module} {text : String} :
    m.assembly = .ok text ↔
      ∃ lines, m.lines = .ok lines ∧ String.join (lines.map fun line => line ++ "\n") = text := by
  unfold Module.assembly
  cases m.lines with
  | error e =>
      constructor
      · intro h
        cases h
      · rintro ⟨_, h, _⟩
        cases h
  | ok lines => simp [bind, Except.bind, pure, Except.pure]

theorem Program.Closed.exists_assembly {p : Program} (h : p.Closed) :
    ∃ text, p.module.assembly = .ok text := by
  obtain ⟨_, hlines, _⟩ := h.introduces_lines
  exact ⟨_, Module.assembly_eq_ok_lines.mpr ⟨_, hlines, rfl⟩⟩

/-- Whatever was compiled in a session, its module has a text. -/
theorem Session.assembly_history (moduleName : String) (wordSize : Nat)
    (sources : List (String × String)) :
    ∃ text, ((Session.new moduleName wordSize).history sources).module.assembly = .ok text :=
  (closed_history moduleName wordSize sources).exists_assembly

end BCompiler
