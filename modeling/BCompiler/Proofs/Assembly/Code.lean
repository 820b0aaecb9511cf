import BCompiler.Proofs.Assembly.Instruction

/-!
The code that the lines of a function tell.

Line by line, the text of a function settles its name, its parameters and its blocks. The blocks are
compared by their names first, and these settle where each branch leads.
-/
namespace BCompiler

/-- How the last lines of a block begin. -/
inductive Closing where
  | unreachable | branch | condBranch | switch | ret
  deriving DecidableEq

namespace Closing

def word : Closing → String
  | unreachable => "  unreachable"
  | branch => "  br label %"
  | condBranch => "  br i1 "
  | switch => "  switch "
  | ret => "  ret "

def of : Option Terminator → Closing
  | none => unreachable
  | some (.branch _) => branch
  | some (.condBranch _ _ _) => condBranch
  | some (.switch _ _ _) => switch
  | some (.ret _) => ret

theorem differ_word {e e' : Closing} (h : e ≠ e') : differ e.word e'.word := by
  cases e <;> cases e' <;> first | exact absurd rfl h | decide

theorem differ_instr (e : Closing) : differ "  %v" e.word ∧ differ "  store " e.word := by
  cases e <;> decide

end Closing

namespace Module

variable {m m' : Module} {f f' : Function}

theorem caseLine_eq_ok {arm : Word × BlockId} {text : String} (h : m.caseLine f arm = .ok text) :
    ∃ label, labelText f arm.2 = .ok label ∧
      text = "    " ++ m.typed (.const arm.1) ++ ", " ++ label := by
  obtain ⟨label, hl, h⟩ := except_bind_eq_ok h
  cases h
  exact ⟨label, hl, rfl⟩

/-- An instruction begins as no last line of a block does. -/
theorem tells_instr_word {instr : Instr} {line : String} (h : m.instrLine f instr = .ok line)
    (e : Closing) (rest : String) : Tells False (line ++ "\n") (e.word ++ rest) := by
  cases instr with
  | define id operation =>
      obtain ⟨text, _, rfl⟩ := instrLine_define_eq_ok h
      simp only [String.append_assoc]
      exact .of_differ e.differ_instr.1 _ _
  | store value address =>
      cases h
      simp only [String.append_assoc]
      exact .of_differ e.differ_instr.2 _ _

/-- The last lines of a block begin with the word of their kind. -/
theorem word_of_endLines {t : Option Terminator} {lines : List String}
    (h : m.endLines f t = .ok lines) : ∃ rest, textOf lines = (Closing.of t).word ++ rest := by
  cases t with
  | none =>
      cases h
      exact ⟨"\n", rfl⟩
  | some t =>
      cases t with
      | branch target =>
          obtain ⟨label, hl, h⟩ := except_bind_eq_ok h
          obtain ⟨b, _, rfl⟩ := labelText_eq_ok hl
          cases h
          have hword : (Closing.of (some (.branch target))).word = "  br " ++ "label %" := rfl
          simp only [hword, textOf_cons, String.append_assoc]
          exact ⟨_, rfl⟩
      | condBranch bit thenBlock elseBlock =>
          obtain ⟨thenLabel, _, h⟩ := except_bind_eq_ok h
          obtain ⟨elseLabel, _, h⟩ := except_bind_eq_ok h
          cases h
          simp only [textOf_cons, String.append_assoc]
          exact ⟨_, rfl⟩
      | switch value default cases =>
          obtain ⟨label, _, h⟩ := except_bind_eq_ok h
          obtain ⟨arms, _, h⟩ := except_bind_eq_ok h
          cases h
          simp only [List.cons_append, textOf_cons, String.append_assoc]
          exact ⟨_, rfl⟩
      | ret value =>
          cases h
          simp only [textOf_cons, String.append_assoc]
          exact ⟨_, rfl⟩

end Module

/-- The groups of lines with an empty line in front of each. -/
theorem textOf_intercalate {groups : List (List String)} (h : groups ≠ []) :
    "\n" ++ textOf ([""].intercalate groups) =
      String.join (groups.map fun group => "\n" ++ textOf group) := by
  induction groups with
  | nil => exact absurd rfl h
  | cons group groups ih =>
      cases groups with
      | nil => simp [List.intercalate]
      | cons next groups =>
          rw [List.intercalate_cons_cons, List.map_cons, String.join_cons, ← ih (by simp),
            textOf_append, textOf_append, textOf_singleton]
          simp only [String.append_assoc, String.empty_append]

namespace Function.Legible

variable {f f' : Function} (hf : f.Legible) (hf' : f'.Legible) {m m' : Module}

include hf hf'

theorem tells_case {a b : Word × BlockId} {s t : String} (hs : m.caseLine f a = .ok s)
    (ht : m'.caseLine f' b = .ok t) :
    TellsLast (f.blockNames = f'.blockNames → a = b) s t := by
  obtain ⟨label, hl, rfl⟩ := Module.caseLine_eq_ok hs
  obtain ⟨label', hl', rfl⟩ := Module.caseLine_eq_ok ht
  have hword : TellsLast (a.1 = b.1) (m.typed (.const a.1)) (m'.typed (.const b.1)) :=
    (m.tells_typed m' (v := .const a.1) (w := .const b.1) trivial trivial).imp Operand.const.inj
  have hvalue := (hword.behind "    ").before ", " (by decide)
  exact (hvalue.append_last (hf.tells_labelText hf' hl hl')).imp fun h hsame =>
    Prod.ext h.1 (h.2 hsame)

/-- The cases of a switch, up to the bracket that closes them. -/
theorem tells_cases {cases cases' : List (Word × BlockId)} {arms arms' : List String}
    (hs : cases.mapM (m.caseLine f) = .ok arms) (ht : cases'.mapM (m'.caseLine f') = .ok arms') :
    Tells (f.blockNames = f'.blockNames → cases = cases') (textOf (arms ++ ["  ]"]))
      (textOf (arms' ++ ["  ]"])) := by
  obtain ⟨t, ht₁, rfl⟩ := exists_of_mapM hs
  obtain ⟨t', ht₂, rfl⟩ := exists_of_mapM ht
  have hstart {m : Module} {g : Function} {arm : Word × BlockId} {line : String}
      (harm : m.caseLine g arm = .ok line) : Tells False (line ++ "\n") (textOf ["  ]"]) := by
    obtain ⟨label, _, rfl⟩ := Module.caseLine_eq_ok harm
    rw [textOf_singleton]
    simp only [String.append_assoc]
    exact .of_differ (by decide) _ _
  rw [textOf_append, textOf_append, textOf_map, textOf_map]
  have hitem : ∀ a ∈ cases, ∀ b ∈ cases',
      Tells (f.blockNames = f'.blockNames → a = b) (t a ++ "\n") (t' b ++ "\n") :=
    fun a ha b hb => (hf.tells_case hf' (ht₁ a ha) (ht₂ b hb)).line
  refine (Tells.join hitem (.same _) ?_ ?_).imp fun h => eq_of_forall₂ h.1
  · exact fun a ha => hstart (ht₁ a ha)
  · exact fun b hb => (hstart (ht₂ b hb)).symm

theorem tells_terminator {a b : Terminator} (hk : Closing.of a = Closing.of b) (ha : a.Named)
    (hb : b.Named) {lines lines' : List String} (hs : m.terminatorLines f a = .ok lines)
    (ht : m'.terminatorLines f' b = .ok lines') :
    Tells (f.blockNames = f'.blockNames → a = b) (textOf lines) (textOf lines') := by
  cases a <;> cases b <;> first | (cases hk; done) | skip
  case branch.branch target target' =>
    obtain ⟨label, hl, hs⟩ := except_bind_eq_ok hs
    obtain ⟨label', hl', ht⟩ := except_bind_eq_ok ht
    cases hs
    cases ht
    rw [textOf_singleton, textOf_singleton]
    have hlabel := (hf.tells_labelText hf' hl hl').behind "  br "
    exact hlabel.line.imp fun h hsame => congrArg Terminator.branch (h hsame)
  case condBranch.condBranch bit thenBlock elseBlock bit' thenBlock' elseBlock' =>
    obtain ⟨first, hfirst, hs⟩ := except_bind_eq_ok hs
    obtain ⟨second, hsecond, hs⟩ := except_bind_eq_ok hs
    obtain ⟨first', hfirst', ht⟩ := except_bind_eq_ok ht
    obtain ⟨second', hsecond', ht⟩ := except_bind_eq_ok ht
    cases hs
    cases ht
    rw [textOf_singleton, textOf_singleton]
    have hbit := (Operand.tells (ha _ (.head _)) (hb _ (.head _))).behind "  br i1 "
    have hthen := (hbit.before ", " (by decide)).append_last
      (hf.tells_labelText hf' hfirst hfirst')
    have helse := (hthen.before ", " (by decide)).append_last
      (hf.tells_labelText hf' hsecond hsecond')
    refine helse.line.imp fun h hsame => ?_
    obtain ⟨⟨hv, h₁⟩, h₂⟩ := h
    rw [h₁ hsame, h₂ hsame]
    exact congrArg (Terminator.condBranch · thenBlock' elseBlock') hv
  case switch.switch value default cases value' default' cases' =>
    obtain ⟨label, hl, hs⟩ := except_bind_eq_ok hs
    obtain ⟨arms, harms, hs⟩ := except_bind_eq_ok hs
    obtain ⟨label', hl', ht⟩ := except_bind_eq_ok ht
    obtain ⟨arms', harms', ht⟩ := except_bind_eq_ok ht
    cases hs
    cases ht
    rw [List.cons_append, List.cons_append, textOf_cons, textOf_cons]
    have hvalue := (m.tells_typed m' (ha _ (.head _)) (hb _ (.head _))).behind "  switch "
    have hdefault := (hvalue.before ", " (by decide)).append_last (hf.tells_labelText hf' hl hl')
    have hfirst := (hdefault.before " [" (by decide)).before "\n"
    refine (hfirst.append (hf.tells_cases hf' harms harms')).imp fun h hsame => ?_
    obtain ⟨⟨hv, hd⟩, hc⟩ := h
    rw [hd hsame, hc hsame]
    exact congrArg (Terminator.switch · default' cases') hv
  case ret.ret value value' =>
    cases hs
    cases ht
    rw [textOf_singleton, textOf_singleton]
    have hvalue := (m.tells_typed m' (ha _ (.head _)) (hb _ (.head _))).behind "  ret "
    exact hvalue.line.imp fun h _ => congrArg Terminator.ret h

/-- The last lines of a block, by their kind. -/
theorem tells_end {a b : Option Terminator} (ha : ∀ t ∈ a, t.Named) (hb : ∀ t ∈ b, t.Named)
    {lines lines' : List String} (hs : m.endLines f a = .ok lines)
    (ht : m'.endLines f' b = .ok lines') :
    Tells (f.blockNames = f'.blockNames → a = b) (textOf lines) (textOf lines') := by
  by_cases hk : Closing.of a = Closing.of b
  case neg =>
    obtain ⟨rest, hrest⟩ := Module.word_of_endLines hs
    obtain ⟨rest', hrest'⟩ := Module.word_of_endLines ht
    rw [hrest, hrest']
    exact .of_differ (Closing.differ_word hk) _ _
  cases a with
  | none =>
      cases b with
      | none =>
          cases hs
          cases ht
          exact (Tells.same _).imp fun _ _ => rfl
      | some t => cases t <;> cases hk
  | some t =>
      cases b with
      | none => cases t <;> cases hk
      | some t' =>
          have hboth := hf.tells_terminator hf' hk (ha t rfl) (hb t' rfl) hs ht
          exact hboth.imp fun h hsame => congrArg some (h hsame)

theorem tells_block {b b' : Block} (hb : b ∈ f.blocks) (hb' : b' ∈ f'.blocks)
    {lines lines' : List String} (hs : m.blockLines f b = .ok lines)
    (ht : m'.blockLines f' b' = .ok lines') :
    Tells (b.name = b'.name ∧ (f.blockNames = f'.blockNames → b = b')) (textOf lines)
      (textOf lines') := by
  obtain ⟨body, hbody, hs⟩ := except_bind_eq_ok hs
  obtain ⟨last, hlast, hs⟩ := except_bind_eq_ok hs
  obtain ⟨body', hbody', ht⟩ := except_bind_eq_ok ht
  obtain ⟨last', hlast', ht⟩ := except_bind_eq_ok ht
  cases hs
  cases ht
  obtain ⟨t, ht₁, rfl⟩ := exists_of_mapM hbody
  obtain ⟨t', ht₂, rfl⟩ := exists_of_mapM hbody'
  obtain ⟨rest, hrest⟩ := Module.word_of_endLines hlast
  obtain ⟨rest', hrest'⟩ := Module.word_of_endLines hlast'
  have hname : TellsLast (b.name = b'.name) b.name b'.name :=
    .symbol (hf.labels _ (List.mem_map.mpr ⟨b, hb, rfl⟩))
      (hf'.labels _ (List.mem_map.mpr ⟨b', hb', rfl⟩))
  have hinstr : ∀ i ∈ b.instrs, ∀ i' ∈ b'.instrs,
      Tells (f.blockNames = f'.blockNames → i = i') (t i ++ "\n") (t' i' ++ "\n") :=
    fun i hi i' hi' => hf.tells_instr hf' (hf.instrs b hb i hi) (hf'.instrs b' hb' i' hi')
      (ht₁ i hi) (ht₂ i' hi')
  have hend := hf.tells_end hf' (hf.terminators b hb) (hf'.terminators b' hb') hlast hlast'
  have hcode := Tells.join hinstr hend
    (fun i hi => hrest' ▸ Module.tells_instr_word (ht₁ i hi) _ _)
    (fun i hi => hrest ▸ (Module.tells_instr_word (ht₂ i hi) _ _).symm)
  simp only [List.cons_append, textOf_cons, textOf_append, textOf_map]
  have hlabel := (hname.before ":" (by decide)).before "\n"
  refine (hlabel.append hcode).imp fun h => ⟨h.1, fun hsame => ?_⟩
  obtain ⟨hnames, hinstrs, hends⟩ := h
  cases b
  cases b'
  simp only [Block.mk.injEq]
  exact ⟨hnames, eq_of_forall₂ hinstrs hsame, hends hsame⟩

/-- The blocks of a function up to the bracket that closes it. Their names are compared first; then
the code of each block tells which blocks it names. -/
theorem tells_blocks (hne : f.blocks ≠ []) (hne' : f'.blocks ≠ [])
    {groups groups' : List (List String)}
    (hs : f.blocks.mapM (m.blockLines f) = .ok groups)
    (ht : f'.blocks.mapM (m'.blockLines f') = .ok groups') :
    Tells (f.blocks = f'.blocks) (textOf ([""].intercalate groups ++ ["\x7d"]))
      (textOf ([""].intercalate groups' ++ ["\x7d"])) := by
  obtain ⟨t, ht₁, rfl⟩ := exists_of_mapM hs
  obtain ⟨t', ht₂, rfl⟩ := exists_of_mapM ht
  have hblock : ∀ b ∈ f.blocks, ∀ b' ∈ f'.blocks,
      Tells (b.name = b'.name ∧ (f.blockNames = f'.blockNames → b = b'))
        ("\n" ++ textOf (t b)) ("\n" ++ textOf (t' b')) :=
    fun b hb b' hb' => (hf.tells_block hf' hb hb' (ht₁ b hb) (ht₂ b' hb')).behind "\n"
  have hclose (text : String) : Tells False ("\n" ++ text) (textOf ["\x7d"]) := by
    rw [textOf_singleton]
    exact .of_differ (by decide) _ _
  have hblocks := Tells.join hblock (.same (textOf ["\x7d"])) (fun b _ => hclose _)
    fun b _ => (hclose _).symm
  refine .of_behind "\n" ?_
  rw [textOf_append, textOf_append, ← String.append_assoc, ← String.append_assoc,
    textOf_intercalate (by simpa using hne), textOf_intercalate (by simpa using hne'),
    List.map_map, List.map_map]
  refine hblocks.imp fun h => eq_of_forall₂ (h.1.imp fun _ _ hb => hb.2) ?_
  have hnames := h.1.imp fun _ _ hb => hb.1
  rw [← List.forall₂_eq_eq_eq]
  exact List.forall₂_map_left_iff.mpr (List.forall₂_map_right_iff.mpr hnames)

/-- The text of a function settles its name, its parameters and its blocks, and the width of a
word. -/
theorem tells_function (hne : f.blocks ≠ []) (hne' : f'.blocks ≠ []) {lines lines' : List String}
    (hs : m.functionLines f = .ok lines) (ht : m'.functionLines f' = .ok lines') :
    Tells (m.wordBits = m'.wordBits ∧ f.name = f'.name ∧ f.params = f'.params ∧
      f.blocks = f'.blocks) (textOf lines) (textOf lines') := by
  obtain ⟨groups, hgroups, hs⟩ := except_bind_eq_ok hs
  obtain ⟨groups', hgroups', ht⟩ := except_bind_eq_ok ht
  cases hs
  cases ht
  have htype := ((m.tells_wordType m').behind "define ").before " @" (by decide)
  have hname := htype.append_last (TellsLast.symbol hf.name hf'.name)
  have hnamed {g : Function} (hg : g.Legible) : ∀ v ∈ g.params.map Operand.param, v.Named := by
    intro v hv
    obtain ⟨x, hx, rfl⟩ := List.mem_map.mp hv
    exact hg.params x hx
  have hparams : Tells (f.params.map Operand.param = f'.params.map Operand.param)
      (Module.commaList ((f.params.map Operand.param).map m.typed) ++ ") \x7b")
      (Module.commaList ((f'.params.map Operand.param).map m'.typed) ++ ") \x7b") :=
    m.tells_arguments m' (hnamed hf) (hnamed hf') (by decide) (by decide) (by decide)
  have hhead := ((hname.before "(" (by decide)).append hparams).before "\n"
  have hwhole := hhead.append (hf.tells_blocks hf' hne hne' hgroups hgroups')
  simp only [List.cons_append, List.nil_append, textOf_cons]
  simp only [List.map_map, String.append_assoc] at hwhole ⊢
  refine hwhole.imp ?_
  rintro ⟨⟨⟨hwidth, hnames⟩, hps⟩, hbs⟩
  exact ⟨hwidth, hnames, List.map_injective_iff.mpr (fun _ _ => Operand.param.inj) hps, hbs⟩

end Function.Legible
end BCompiler
