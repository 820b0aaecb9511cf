import BCompiler.Proofs.Assembly.Literal
import BCompiler.Proofs.Trail.Step

/-!
The lines of a module's text.

A text falls into lines at its newlines, whatever was meant to be one line. Names and contents that
a user chooses reach the text in three places: the two header lines and the lines of the strings.
The bytes of a string and of the source name are spelled without newlines; the name in the comment
of the first line is not. So the layout is safe from such texts exactly if no module name holds a
newline.
-/
namespace BCompiler

/-- What stands between the newlines of a text; behind a last newline stands an empty line. -/
def physicalLines (text : String) : List String := (text.toList.splitOn '\n').map String.ofList

theorem physicalLines_append_newline (a b : String) :
    physicalLines (a ++ "\n" ++ b) = physicalLines a ++ physicalLines b := by
  have hsplit : (a.toList ++ '\n' :: b.toList).splitOn '\n' =
      a.toList.splitOn '\n' ++ b.toList.splitOn '\n' :=
    List.splitOn_append_cons_self a.toList b.toList
  simp only [physicalLines, String.toList_append, List.append_assoc, ← List.map_append]
  exact congrArg (List.map String.ofList) hsplit

theorem physicalLines_join (lines : List String) :
    physicalLines (String.join (lines.map fun line => line ++ "\n")) =
      lines.flatMap physicalLines ++ [""] := by
  induction lines with
  | nil => rfl
  | cons line lines ih =>
      rw [List.map_cons, String.join_cons, physicalLines_append_newline, ih, List.flatMap_cons,
        List.append_assoc]

theorem physicalLines_of_not_mem {text : String} (h : '\n' ∉ text.toList) :
    physicalLines text = [text] := by
  unfold physicalLines
  rw [List.splitOn_eq_singleton h]
  simp

theorem notMem_of_mem_splitOn {separator : Char} {text part : List Char}
    (h : part ∈ text.splitOn separator) : separator ∉ part := by
  induction text generalizing part with
  | nil => simp_all
  | cons c text ih =>
      rw [List.splitOn_cons_eq_if_modifyHead] at h
      split at h
      · rcases List.mem_cons.mp h with rfl | h
        · exact List.not_mem_nil
        · exact ih h
      · next hc =>
          -- the head of the parts of `text` is the one that takes the character
          cases hparts : text.splitOn separator with
          | nil => exact absurd hparts (List.splitOn_ne_nil _ _)
          | cons first parts =>
              rw [hparts] at ih h
              rcases List.mem_cons.mp h with rfl | h
              · have hfirst := ih (List.mem_cons_self ..)
                have hne : separator ≠ c := fun he => hc (beq_iff_eq.mpr he.symm)
                simp [hne, hfirst]
              · exact ih (List.mem_cons_of_mem _ h)

theorem newline_not_mem_of_mem_physicalLines {text line : String} (h : line ∈ physicalLines text) :
    '\n' ∉ line.toList := by
  obtain ⟨part, hpart, rfl⟩ := List.mem_map.mp h
  rw [String.toList_ofList]
  exact notMem_of_mem_splitOn hpart

theorem length_physicalLines (text : String) :
    (physicalLines text).length = text.toList.count '\n' + 1 := by
  unfold physicalLines
  rw [List.length_map]
  induction text.toList with
  | nil => rfl
  | cons c rest ih =>
      rw [List.splitOn_cons_eq_if_modifyHead]
      by_cases hc : c = '\n' <;> simp_all

theorem newline_not_mem_byteLiteral (bytes : List UInt8) : '\n' ∉ (byteLiteral bytes).toList :=
  fun hm => absurd ((isByteLiteral_byteLiteral bytes).printable _ hm) (by decide)

theorem newline_not_mem_of_isSymbol {text : String} (h : isSymbol text) : '\n' ∉ text.toList :=
  fun hm => absurd (List.all_eq_true.mp h _ hm) (by decide)

namespace Module

/-- The comment that names the module. -/
def idLine (m : Module) : String := "; ModuleID = '" ++ m.name ++ "'"

def sourceLine (m : Module) : String :=
  "source_filename = \"" ++ byteLiteral (utf8Bytes m.name) ++ "\""

/-- The lines behind those of the strings. -/
def codeLines (m : Module) : Except Error (List String) := do
  let definitions ← (m.functions.filter fun f => !f.isDeclaration).mapM m.functionLines
  return paragraph (m.globals.map m.globalLine) ++
    (paragraph ((m.functions.filter Function.isDeclaration).map m.declarationLine) ++
      definitions.flatMap paragraph)

/-- The lines that the strings take, each of which has more than one if its name has. -/
def stringRows (m : Module) : List String := m.strings.flatMap fun s => physicalLines (stringLine s)

theorem assembly_eq_ok_iff {m : Module} {text : String} :
    m.assembly = .ok text ↔ ∃ code, m.codeLines = .ok code ∧
      String.join ((m.idLine :: m.sourceLine :: (paragraph (m.strings.map stringLine) ++ code)).map
        fun line => line ++ "\n") = text := by
  unfold assembly lines codeLines
  cases (m.functions.filter fun f => !f.isDeclaration).mapM m.functionLines with
  | error e =>
      constructor
      · intro h
        cases h
      · rintro ⟨_, h, _⟩
        cases h
  | ok definitions =>
      simp only [bind, Except.bind, pure, Except.pure, Except.ok.injEq, exists_eq_left',
        List.append_assoc, List.cons_append, List.nil_append]
      rfl

theorem newline_not_mem_idLine_iff {m : Module} :
    '\n' ∉ m.idLine.toList ↔ '\n' ∉ m.name.toList := by
  have hfront : '\n' ∉ "; ModuleID = '".toList := by decide
  have hend : '\n' ∉ "'".toList := by decide
  unfold idLine
  simp only [String.toList_append, List.mem_append, hfront, hend, false_or, or_false]

theorem newline_not_mem_sourceLine (m : Module) : '\n' ∉ m.sourceLine.toList := by
  have hfront : '\n' ∉ "source_filename = \"".toList := by decide
  have hend : '\n' ∉ "\"".toList := by decide
  unfold sourceLine
  simp only [String.toList_append, List.mem_append, hfront, hend, newline_not_mem_byteLiteral,
    or_self, not_false_eq_true]

theorem count_newline_stringLine (s : StringConstant) :
    (stringLine s).toList.count '\n' = s.name.toList.count '\n' := by
  have hbytes : (byteLiteral s.bytes).toList.count '\n' = 0 :=
    List.count_eq_zero.mpr (newline_not_mem_byteLiteral s.bytes)
  have hsize : (toString (s.bytes.length + 1)).toList.count '\n' = 0 :=
    List.count_eq_zero.mpr (newline_not_mem_of_isSymbol (isSymbol_toString _))
  have hmark : "@".toList.count '\n' = 0 := by decide
  have hkind : " = private unnamed_addr constant [".toList.count '\n' = 0 := by decide
  have hopen : " x i8] c\"".toList.count '\n' = 0 := by decide
  have hclose : "\\00\"".toList.count '\n' = 0 := by decide
  unfold stringLine
  simp only [String.toList_append, List.count_append]
  omega

/-- How many lines a string takes depends on its name alone. -/
theorem map_length_stringLine (m : Module) :
    (m.strings.map fun s => (physicalLines (stringLine s)).length) =
      m.stringNames.map fun name => name.toList.count '\n' + 1 := by
  rw [stringNames, List.map_map]
  refine List.map_congr_left fun s _ => ?_
  rw [length_physicalLines, count_newline_stringLine, Function.comp]

theorem physicalLines_strings (m : Module) :
    (paragraph (m.strings.map stringLine)).flatMap physicalLines =
      if m.strings = [] then [] else "" :: m.stringRows := by
  unfold paragraph stringRows
  cases m.strings with
  | nil => rfl
  | cons s rest =>
      simp only [List.map_cons, List.isEmpty_cons, Bool.false_eq_true, if_false, List.flatMap_cons,
        reduceCtorEq, List.flatMap_map]
      rfl

/-- The same program but for the module's name and the contents of its strings. -/
structure Alike (m m' : Module) : Prop where
  wordBits : m'.wordBits = m.wordBits
  functions : m'.functions = m.functions
  globals : m'.globals = m.globals
  stringNames : m'.stringNames = m.stringNames

namespace Alike

variable {m m' : Module}

theorem codeLines (h : m.Alike m') : m'.codeLines = m.codeLines := by
  obtain ⟨name, wordBits, functions, globals, strings⟩ := m
  obtain ⟨name', wordBits', functions', globals', strings'⟩ := m'
  obtain ⟨rfl, rfl, rfl, -⟩ := h
  rfl

theorem length_stringRows (h : m.Alike m') : m'.stringRows.length = m.stringRows.length := by
  rw [stringRows, stringRows, List.length_flatMap, List.length_flatMap, map_length_stringLine,
    map_length_stringLine, h.stringNames]

theorem strings_eq_nil (h : m.Alike m') : m'.strings = [] ↔ m.strings = [] := by
  have hlength := congrArg List.length h.stringNames
  simp only [Module.stringNames, List.length_map] at hlength
  rw [← List.length_eq_zero_iff, ← List.length_eq_zero_iff, hlength]

end Alike

/-- Two texts that differ only where the name of the module or the contents of a string stand: the
header is two whole lines in both, the lines of the strings follow an empty one, and every other
line is the same. -/
structure Confined (m m' : Module) (text text' : String) : Prop where
  count : (physicalLines text').length = (physicalLines text).length
  comment : (physicalLines text)[0]? = some m.idLine ∧ (physicalLines text')[0]? = some m'.idLine
  source : (physicalLines text)[1]? = some m.sourceLine ∧
    (physicalLines text')[1]? = some m'.sourceLine
  strings : ((physicalLines text).drop 3).take m.stringRows.length = m.stringRows ∧
    ((physicalLines text').drop 3).take m'.stringRows.length = m'.stringRows
  elsewhere : ∀ i, 2 ≤ i → ¬ (3 ≤ i ∧ i < 3 + m.stringRows.length) →
    (physicalLines text')[i]? = (physicalLines text)[i]?

/-- The lines of a module's text, as they fall at its newlines. -/
theorem physicalLines_assembly {m : Module} {text : String} (h : m.assembly = .ok text) :
    ∃ code, m.codeLines = .ok code ∧ physicalLines text =
      physicalLines m.idLine ++ m.sourceLine ::
        ((if m.strings = [] then [] else "" :: m.stringRows) ++
          (code.flatMap physicalLines ++ [""])) := by
  obtain ⟨code, hcode, rfl⟩ := assembly_eq_ok_iff.mp h
  refine ⟨code, hcode, ?_⟩
  rw [physicalLines_join]
  simp only [List.flatMap_cons, List.flatMap_append, physicalLines_strings,
    physicalLines_of_not_mem (newline_not_mem_sourceLine m), List.append_assoc,
    List.cons_append, List.nil_append]

theorem Alike.exists_assembly {m m' : Module} (h : m.Alike m') {text : String}
    (ht : m.assembly = .ok text) : ∃ text', m'.assembly = .ok text' := by
  obtain ⟨code, hcode, _⟩ := assembly_eq_ok_iff.mp ht
  exact ⟨_, assembly_eq_ok_iff.mpr ⟨code, h.codeLines.trans hcode, rfl⟩⟩

/-- Without a newline in the names nothing moves. -/
theorem Alike.confined {m m' : Module} (h : m.Alike m') {text text' : String}
    (ht : m.assembly = .ok text) (ht' : m'.assembly = .ok text')
    (hname : '\n' ∉ m.name.toList) (hname' : '\n' ∉ m'.name.toList) :
    m.Confined m' text text' := by
  obtain ⟨code, hcode, hlines⟩ := physicalLines_assembly ht
  obtain ⟨code', hcode', hlines'⟩ := physicalLines_assembly ht'
  obtain rfl : code = code' := Except.ok.inj (hcode.symm.trans (h.codeLines.symm.trans hcode'))
  rw [physicalLines_of_not_mem (newline_not_mem_idLine_iff.mpr hname)] at hlines
  rw [physicalLines_of_not_mem (newline_not_mem_idLine_iff.mpr hname')] at hlines'
  have hsize := h.length_stringRows
  by_cases hnone : m.strings = []
  · have hnone' := h.strings_eq_nil.mpr hnone
    have hrows : m.stringRows = [] := by rw [stringRows, hnone]; rfl
    have hrows' : m'.stringRows = [] := by rw [stringRows, hnone']; rfl
    rw [if_pos hnone] at hlines
    rw [if_pos hnone'] at hlines'
    refine ⟨?_, ?_, ?_, ?_, ?_⟩
    · simp [hlines, hlines']
    · simp [hlines, hlines']
    · simp [hlines, hlines']
    · simp [hrows, hrows']
    · rintro (_ | _ | i) hi -
      · omega
      · omega
      · simp [hlines, hlines']
  · have hnone' : m'.strings ≠ [] := fun hn => hnone (h.strings_eq_nil.mp hn)
    rw [if_neg hnone] at hlines
    rw [if_neg hnone'] at hlines'
    refine ⟨?_, ?_, ?_, ?_, ?_⟩
    · simp [hlines, hlines', hsize]
    · simp [hlines, hlines']
    · simp [hlines, hlines']
    · simp [hlines, hlines']
    · rintro (_ | _ | _ | i) hi hout
      · omega
      · omega
      · simp [hlines, hlines']
      · have hbehind : m.stringRows.length ≤ i := by omega
        simp [hlines, hlines', List.getElem?_append_right hbehind,
          List.getElem?_append_right (hsize ▸ hbehind : m'.stringRows.length ≤ i), hsize]

theorem Confined.newline_not_mem {m m' : Module} {text text' : String}
    (h : m.Confined m' text text') : '\n' ∉ m.name.toList ∧ '\n' ∉ m'.name.toList :=
  ⟨newline_not_mem_idLine_iff.mp
      (newline_not_mem_of_mem_physicalLines (List.mem_of_getElem? h.comment.1)),
    newline_not_mem_idLine_iff.mp
      (newline_not_mem_of_mem_physicalLines (List.mem_of_getElem? h.comment.2))⟩

/-- Modules that differ only in the name and in the contents of strings are both written or neither,
and their texts differ only in the lines that carry these, exactly if neither name holds a
newline. -/
theorem confined_iff_newline_not_mem {m m' : Module} (h : m.Alike m') {text : String}
    (ht : m.assembly = .ok text) :
    ∃ text', m'.assembly = .ok text' ∧
      (m.Confined m' text text' ↔ '\n' ∉ m.name.toList ∧ '\n' ∉ m'.name.toList) := by
  obtain ⟨text', ht'⟩ := h.exists_assembly ht
  exact ⟨text', ht', Confined.newline_not_mem, fun hnames => h.confined ht ht' hnames.1 hnames.2⟩

/-- A quote in the name, and a quote and a newline in a string, stay in their lines. -/
theorem confined_quotes :
    ∃ text text',
      (Module.mk "a.b" 64 [.declared "f"] [⟨"x", .placeholder⟩]
        [⟨".str.0", []⟩]).assembly = .ok text ∧
      (Module.mk "it's \"a\".b" 64 [.declared "f"] [⟨"x", .placeholder⟩]
        [⟨".str.0", [34, 10]⟩]).assembly = .ok text' ∧
      (Module.mk "a.b" 64 [.declared "f"] [⟨"x", .placeholder⟩] [⟨".str.0", []⟩]).Confined
        (Module.mk "it's \"a\".b" 64 [.declared "f"] [⟨"x", .placeholder⟩] [⟨".str.0", [34, 10]⟩])
        text text' := by
  obtain ⟨text', ht', hiff⟩ := @confined_iff_newline_not_mem
    (.mk "a.b" 64 [.declared "f"] [⟨"x", .placeholder⟩] [⟨".str.0", []⟩])
    (.mk "it's \"a\".b" 64 [.declared "f"] [⟨"x", .placeholder⟩] [⟨".str.0", [34, 10]⟩])
    ⟨rfl, rfl, rfl, rfl⟩ _ rfl
  exact ⟨_, text', rfl, ht', hiff.mpr (by decide)⟩

/-- A newline in the name breaks the comment: the empty module gets a line more. -/
theorem physicalLines_broken_comment :
    ∃ text text',
      (Module.empty "a" 64).assembly = .ok text ∧ (Module.empty "a\nb" 64).assembly = .ok text' ∧
      (Module.empty "a" 64).Alike (Module.empty "a\nb" 64) ∧
      (physicalLines text).length = 3 ∧ (physicalLines text').length = 4 ∧
      (physicalLines text')[1]? = some "b'" :=
  ⟨_, _, rfl, rfl, ⟨rfl, rfl, rfl, rfl⟩, by decide +kernel, by decide +kernel, by decide +kernel⟩

end Module
end BCompiler
