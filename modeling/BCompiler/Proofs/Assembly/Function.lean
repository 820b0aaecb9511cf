import BCompiler.Proofs.Assembly.Reference
import BCompiler.Proofs.Trail.Coherent

/-!
The lines of a function.

The lines of a coherent function can be written, since every block they name is there. What they
refer to is what the code of the function needs.
-/
namespace BCompiler

def valueName (id : ValueId) : String := "v" ++ toString id

def paramName (x : String) : String := "p." ++ x

/-- The names that the lines of a function give to its blocks, values and parameters. -/
def Function.innerNames (f : Function) : List String :=
  f.blockNames ++ f.definitions.map valueName ++ f.params.map paramName

/-- What the lines of a function may refer to. -/
def Function.Refers (p : Program) (f : Function) : Reference → Prop
  | .symbol name => name ∈ p.module.symbols ∨ name ∈ p.bound ∨ name = f.name
  | .inner name => name ∈ f.innerNames

/-- A step for each item of a list, all of which succeed. -/
theorem mapM_eq_ok {α β : Type} [Inhabited β] {g : α → Except Error β} {Q : α → β → Prop}
    {items : List α} (h : ∀ a ∈ items, ∃ b, g a = .ok b ∧ Q a b) :
    ∃ t : α → β, (∀ a ∈ items, g a = .ok (t a) ∧ Q a (t a)) ∧ items.mapM g = .ok (items.map t) := by
  have ht : ∀ a ∈ items, g a = .ok ((g a).toOption.getD default) ∧
      Q a ((g a).toOption.getD default) := by
    intro a ha
    obtain ⟨b, hb, hq⟩ := h a ha
    rw [hb]
    exact ⟨rfl, hq⟩
  refine ⟨fun a => (g a).toOption.getD default, ht, ?_⟩
  clear h
  induction items with
  | nil => rfl
  | cons a items ih =>
      rw [List.mapM_cons, (ht a (.head _)).1, ih fun a ha => ht a (.tail _ ha)]
      rfl

theorem mem_intercalate_singleton {α : Type} {a x : α} {lists : List (List α)}
    (h : x ∈ [a].intercalate lists) : x = a ∨ ∃ l ∈ lists, x ∈ l := by
  induction lists with
  | nil => cases h
  | cons l lists ih =>
      cases lists with
      | nil => exact .inr ⟨l, .head _, by simpa [List.intercalate] using h⟩
      | cons next lists =>
          rw [List.intercalate_cons_cons, List.append_assoc] at h
          rcases List.mem_append.mp h with h | h
          · exact .inr ⟨l, .head _, h⟩
          · rcases List.mem_cons.mp h with rfl | h
            · exact .inl rfl
            · exact (ih h).imp id fun ⟨k, hk, hx⟩ => ⟨k, .tail _ hk, hx⟩

theorem subset_intercalate {α : Type} {separator l : List α} {lists : List (List α)}
    (h : l ∈ lists) : l ⊆ separator.intercalate lists := by
  induction lists with
  | nil => cases h
  | cons first lists ih =>
      cases lists with
      | nil =>
          rw [List.mem_singleton.mp h]
          simp [List.intercalate]
      | cons next lists =>
          rw [List.intercalate_cons_cons]
          intro x hx
          rcases List.mem_cons.mp h with rfl | h
          · exact List.mem_append_left _ (List.mem_append_left _ hx)
          · exact List.mem_append_right _ (ih h hx)

theorem isPlainText_wordType (m : Module) : isPlainText m.wordType :=
  isPlainText_of_isSymbol (isSymbol_append.mpr ⟨by decide, isSymbol_toString _⟩)

theorem isPlainText_toString (n : Nat) : isPlainText (toString n) :=
  isPlainText_of_isSymbol (isSymbol_toString n)

theorem isPlainText_arrayType (m : Module) (length : Nat) : isPlainText (m.arrayType length) := by
  unfold Module.arrayType
  simp only [isPlainText_append]
  exact ⟨⟨⟨⟨by decide, isPlainText_toString length⟩, by decide⟩, isPlainText_wordType m⟩, by decide⟩

theorem isPlainText_decimal (value : Word) : isPlainText value.decimal :=
  isPlainText_of_isSymbol (isSymbol_decimal value)

theorem isPlainText_mnemonic (op : BinaryOp) : isPlainText op.mnemonic := by
  cases op <;> decide

theorem Predicate.isPlainText_mnemonic (pred : Predicate) : isPlainText pred.mnemonic := by
  cases pred <;> decide

/-- A line inside a function: it refers to what the function may refer to, introduces no symbol, and
begins no block but one of the function. -/
structure Function.IsBodyLine (p : Program) (f : Function) (line : String) : Prop where
  whole : '\n' ∉ line.toList
  refers : ∀ r ∈ lineReferences line, f.Refers p r
  introduces : introduced line = none
  label : ∀ x, labelAt? line = some x → x ∈ f.blockNames

namespace Function.IsBodyLine

variable {p : Program} {f : Function} {line : String}

theorem indented (h : MentionsLast (f.Refers p) line)
    (hline : line.toList.head? = some ' ' := by simp) : f.IsBodyLine p line where
  whole := h.whole
  refers := h.lineReferences
  introduces := introduced_eq_none hline (by decide)
  label := fun x hx => by
    rw [labelAt?_eq_none hline (by decide)] at hx
    cases hx

/-- A line without blanks and marks. -/
theorem bare (h : isPlainText line) (hblank : ' ' ∉ line.toList)
    (hlabel : ∀ x, labelAt? line = some x → x ∈ f.blockNames) : f.IsBodyLine p line := by
  refine ⟨newline_not_mem_of_isPlainText h, (Mentions.plain h).last.lineReferences,
    introduced_eq_none_of_mem fun c hc => ⟨?_, ?_⟩, hlabel⟩
  · rintro rfl
    have hplain := List.all_eq_true.mp h _ hc
    cases hplain
  · rintro rfl
    exact hblank hc

theorem ofLabel {name : String} (h : isSymbol name) (hname : name ∈ f.blockNames) :
    f.IsBodyLine p (name ++ ":") := by
  refine bare (isPlainText_append.mpr ⟨isPlainText_of_isSymbol h, by decide⟩) (fun hc => ?_) ?_
  · rw [String.toList_append] at hc
    rcases List.mem_append.mp hc with hc | hc
    · have hsymbol := List.all_eq_true.mp h _ hc
      cases hsymbol
    · revert hc
      decide
  · intro x hx
    rw [labelAt?_append h] at hx
    cases hx
    exact hname

end Function.IsBodyLine

/-- A coherent function whose own names can be written. -/
structure Function.Printable (p : Program) (f : Function) : Prop extends f.Coherent p where
  name : isSymbol f.name
  params : ∀ x ∈ f.params, isName x

namespace Function.Printable

variable {p : Program} {f : Function} (hf : f.Printable p) (m : Module)

include hf

theorem mentions_block (front : String) {text : String} (ht : front ++ "%" = text)
    (hfront : isPlainText front) {k : BlockId} (h : f.Meets p (.block k)) :
    ∃ b, f.block k = .ok b ∧ MentionsLast (f.Refers p) (text ++ b.name) := by
  cases h with
  | block hk =>
      refine ⟨f.blocks[k], block_eq_ok_iff.mpr (List.getElem?_eq_getElem hk), ?_⟩
      have hname : f.blocks[k].name ∈ f.blockNames :=
        List.mem_map.mpr ⟨_, List.getElem_mem hk, rfl⟩
      exact .inner front ht hfront (hf.named _ hname)
        (List.mem_append_left _ (List.mem_append_left _ hname))

omit hf in
theorem mentions_value (front : String) {text : String} (ht : front ++ "%v" = text)
    (hfront : isPlainText front) {id : ValueId} {operation : Operation}
    (h : .define id operation ∈ f.instrs) : MentionsLast (f.Refers p) (text ++ toString id) := by
  have hid : id ∈ f.definitions := by
    obtain ⟨k, b, hb, hi⟩ := mem_instrs.mp h
    exact List.mem_flatMap.mpr ⟨b, List.mem_of_getElem? hb, List.mem_filterMap.mpr ⟨_, hi, rfl⟩⟩
  have hname : text ++ toString id = front ++ "%" ++ valueName id := by
    have hmark : "%" ++ "v" = "%v" := rfl
    simp only [← ht, valueName, ← hmark, String.append_assoc]
  rw [hname]
  refine .inner front rfl hfront (isSymbol_append.mpr ⟨by decide, isSymbol_toString id⟩) ?_
  exact List.mem_append_left _ (List.mem_append_right _ (List.mem_map.mpr ⟨id, hid, rfl⟩))

theorem mentions_param {x : String} (h : x ∈ f.params) :
    MentionsLast (f.Refers p) ("%p." ++ x) := by
  have hname : "%p." ++ x = "%" ++ paramName x := by
    rw [paramName, ← String.append_assoc]
    rfl
  rw [hname]
  refine .inner "" rfl rfl (isSymbol_append.mpr ⟨by decide, isSymbol_of_isName (hf.params x h)⟩) ?_
  exact List.mem_append_right _ (List.mem_map.mpr ⟨x, h, rfl⟩)

theorem mentions_operand {type : ValueType} {v : Operand} (h : f.Meets p (.operand type v)) :
    MentionsLast (f.Refers p) v.assembly := by
  cases h with
  | const w => exact (Mentions.plain (isPlainText_decimal w)).last
  | param hx => exact hf.mentions_param hx
  | symbol hs => exact .symbol "" rfl rfl hs.1 (hs.2.imp id .inl)
  | value hi => exact mentions_value "" rfl rfl hi

theorem mentions_typed {type : ValueType} {v : Operand} (h : f.Meets p (.operand type v)) :
    MentionsLast (f.Refers p) (m.typed v) := by
  have hplain : Mentions (f.Refers p) (m.wordType ++ " ") :=
    .plain (isPlainText_append.mpr ⟨isPlainText_wordType m, by decide⟩)
  exact hplain.append_last (hf.mentions_operand h)

theorem mentions_callee {callee : Callee}
    (hd : ∀ x ∈ callee.demands, f.Meets p (.operand x.1 x.2))
    (hn : ∀ name, callee = .direct name → f.Meets p (.callee name)) :
    MentionsLast (f.Refers p) (m.calleeText callee) := by
  cases callee with
  | indirect pointer =>
      exact (Mentions.plain (by decide)).append_last (hf.mentions_operand (hd _ (.head _)))
  | direct name =>
      cases hn name rfl with
      | callee hs hn =>
          have hsymbol : f.Refers p (.symbol name) :=
            .inl (List.mem_append_left _ (List.mem_append_left _ hn))
          rw [Module.calleeText]
          split
          · exact .symbol "" rfl rfl hs hsymbol
          · exact .symbol "(...) " rfl (by decide) hs hsymbol

theorem mentions_phiArm {arm : Operand × BlockId} (hv : f.Meets p (.operand .word arm.1))
    (hb : f.Meets p (.block arm.2)) :
    ∃ text, Module.phiArm f arm = .ok text ∧ MentionsLast (f.Refers p) text := by
  obtain ⟨b, hblock, hname⟩ := hf.mentions_block ", " rfl (by decide) hb
  refine ⟨"[ " ++ arm.1.assembly ++ ", %" ++ b.name ++ " ]", ?_, ?_⟩
  · unfold Module.phiArm
    rw [hblock]
    rfl
  · have hvalue : MentionsLast (f.Refers p) ("[ " ++ arm.1.assembly) :=
      (Mentions.plain (by decide)).append_last (hf.mentions_operand hv)
    have hboth := hvalue.append_last hname (isApart_append (by decide) _)
    rw [← String.append_assoc] at hboth
    exact (hboth.append (.plain (by decide)) (by decide)).last

omit hf in
/-- What the needs of an operation are, kind by kind. -/
theorem meets_of_needs {operation : Operation} (h : ∀ need ∈ operation.needs, f.Meets p need) :
    (∀ x ∈ operation.demands, f.Meets p (.operand x.1 x.2)) ∧
    (∀ name ∈ operation.callees, f.Meets p (.callee name)) ∧
    ∀ k ∈ operation.origins, f.Meets p (.block k) := by
  refine ⟨fun x hx => h _ ?_, fun name hn => h _ ?_, fun k hk => h _ ?_⟩
  · exact List.mem_append_left _ (List.mem_append_left _ (List.mem_map.mpr ⟨x, hx, rfl⟩))
  · exact List.mem_append_left _ (List.mem_append_right _ (List.mem_map.mpr ⟨name, hn, rfl⟩))
  · exact List.mem_append_right _ (List.mem_map.mpr ⟨k, hk, rfl⟩)

theorem mentions_call {callee : Callee} {arguments : List Operand}
    (hd : ∀ x ∈ (Operation.call callee arguments).demands, f.Meets p (.operand x.1 x.2))
    (hc : ∀ name ∈ (Operation.call callee arguments).callees, f.Meets p (.callee name)) :
    MentionsLast (f.Refers p) ("call " ++ m.wordType ++ " " ++ m.calleeText callee ++ "(" ++
      Module.commaList (arguments.map m.typed) ++ ")") := by
  have hfront : isPlainText ("call " ++ m.wordType ++ " ") := by
    simp only [isPlainText_append, isPlainText_wordType m]
    decide
  have hcallee : MentionsLast (f.Refers p) (m.calleeText callee) := by
    refine hf.mentions_callee m (fun x hx => hd x (List.mem_append_left _ hx)) ?_
    rintro name rfl
    exact hc name (.head _)
  have hopen := ((Mentions.plain hfront).append_last hcallee).append
    (.plain (a := "(") (by decide)) (by decide)
  have harguments : MentionsLast (f.Refers p) (Module.commaList (arguments.map m.typed)) := by
    refine .commaList fun text ht => ?_
    obtain ⟨a, ha, rfl⟩ := List.mem_map.mp ht
    exact hf.mentions_typed m (hd _ (List.mem_append_right _ (List.mem_map.mpr ⟨a, ha, rfl⟩)))
  exact ((hopen.append_last harguments).append (.plain (a := ")") (by decide)) (by decide)).last

/-- A phi can be printed once the blocks its operands come from are there. -/
theorem mentions_phi {incoming : List (Operand × BlockId)}
    (hd : ∀ x ∈ (Operation.phi incoming).demands, f.Meets p (.operand x.1 x.2))
    (hb : ∀ k ∈ (Operation.phi incoming).origins, f.Meets p (.block k)) :
    ∃ text, m.operationText f (.phi incoming) = .ok text ∧ MentionsLast (f.Refers p) text := by
  have harms : ∀ arm ∈ incoming, ∃ text, Module.phiArm f arm = .ok text ∧
      MentionsLast (f.Refers p) text := fun arm harm =>
    hf.mentions_phiArm (hd _ (List.mem_map.mpr ⟨arm, harm, rfl⟩))
      (hb _ (List.mem_map.mpr ⟨arm, harm, rfl⟩))
  obtain ⟨t, ht, hmap⟩ := mapM_eq_ok harms
  refine ⟨"phi " ++ m.wordType ++ " " ++ Module.commaList (incoming.map t), ?_, ?_⟩
  · rw [Module.operationText, hmap]
    rfl
  · have hfront : isPlainText ("phi " ++ m.wordType ++ " ") := by
      simp only [isPlainText_append, isPlainText_wordType m]
      decide
    refine (Mentions.plain hfront).append_last (.commaList fun text htext => ?_)
    obtain ⟨arm, harm, rfl⟩ := List.mem_map.mp htext
    exact (ht arm harm).2

theorem mentions_operation {operation : Operation} (h : ∀ need ∈ operation.needs, f.Meets p need) :
    ∃ text, m.operationText f operation = .ok text ∧ MentionsLast (f.Refers p) text := by
  obtain ⟨hd, hc, hb⟩ := meets_of_needs h
  have hword := isPlainText_wordType m
  have plain (text : String) (h : isPlainText text) : Mentions (f.Refers p) text := .plain h
  cases operation with
  | alloca words =>
      cases words with
      | none => exact ⟨_, rfl, (plain _ (isPlainText_append.mpr ⟨by decide, hword⟩)).last⟩
      | some words =>
          have harray := isPlainText_arrayType m words.toNat
          exact ⟨_, rfl, (plain _ (isPlainText_append.mpr ⟨by decide, harray⟩)).last⟩
  | load address =>
      refine ⟨_, rfl, (plain _ ?_).append_last (hf.mentions_operand (hd _ (.head _)))⟩
      simp only [isPlainText_append, hword]
      decide
  | binary op lhs rhs =>
      have hop : isPlainText (op.mnemonic ++ " ") :=
        isPlainText_append.mpr ⟨isPlainText_mnemonic op, by decide⟩
      have hlhs := (plain _ hop).append_last (hf.mentions_typed m (hd _ (.head _)))
      have hcomma := hlhs.append (plain ", " (by decide)) (by decide)
      exact ⟨_, rfl, hcomma.append_last (hf.mentions_operand (hd _ (.tail _ (.head _))))⟩
  | compare pred lhs rhs =>
      have hop : isPlainText ("icmp " ++ pred.mnemonic ++ " ") := by
        simp only [isPlainText_append, pred.isPlainText_mnemonic]
        decide
      have hlhs := (plain _ hop).append_last (hf.mentions_typed m (hd _ (.head _)))
      have hcomma := hlhs.append (plain ", " (by decide)) (by decide)
      exact ⟨_, rfl, hcomma.append_last (hf.mentions_operand (hd _ (.tail _ (.head _))))⟩
  | widen bit =>
      have hbit := (plain "zext i1 " (by decide)).append_last
        (hf.mentions_operand (hd _ (.head _)))
      have hto := hbit.append (plain " to " (by decide)) (by decide)
      exact ⟨_, rfl, (hto.append (plain _ hword)).last⟩
  | toPointer word =>
      have hw := (plain "inttoptr " (by decide)).append_last
        (hf.mentions_typed m (hd _ (.head _)))
      exact ⟨_, rfl, (hw.append (plain " to ptr" (by decide)) (by decide)).last⟩
  | toWord pointer =>
      have hp := (plain "ptrtoint ptr " (by decide)).append_last
        (hf.mentions_operand (hd _ (.head _)))
      have hto := hp.append (plain " to " (by decide)) (by decide)
      exact ⟨_, rfl, (hto.append (plain _ hword)).last⟩
  | element base index =>
      have hfront : isPlainText ("getelementptr " ++ m.wordType ++ ", ptr ") := by
        simp only [isPlainText_append, hword]
        decide
      have hbase := (plain _ hfront).append_last (hf.mentions_operand (hd _ (.head _)))
      have hcomma := hbase.append (plain ", " (by decide)) (by decide)
      exact ⟨_, rfl, hcomma.append_last (hf.mentions_typed m (hd _ (.tail _ (.head _))))⟩
  | arrayElement base length index =>
      have hfront : isPlainText ("getelementptr " ++ m.arrayType length.toNat ++ ", ptr ") := by
        simp only [isPlainText_append, isPlainText_arrayType]
        decide
      have hbase := (plain _ hfront).append_last (hf.mentions_operand (hd _ (.head _)))
      have hcomma := hbase.append (plain ", " (by decide)) (by decide)
      have hzero := (hcomma.append (plain _ hword)).append (plain " 0, " (by decide))
      have hindex := (hzero.append (plain _ hword)).append (plain " " (by decide))
      exact ⟨_, rfl, (hindex.append (plain _ (isPlainText_toString _))).last⟩
  | call callee arguments => exact ⟨_, rfl, hf.mentions_call m hd hc⟩
  | phi incoming => exact hf.mentions_phi m hd hb

theorem mentions_instr {instr : Instr} (h : instr ∈ f.instrs)
    (hneeds : ∀ need ∈ instr.needs, f.Meets p need) :
    ∃ line, m.instrLine f instr = .ok line ∧ f.IsBodyLine p line := by
  cases instr with
  | define id operation =>
      obtain ⟨text, htext, hmentions⟩ := hf.mentions_operation m hneeds
      refine ⟨"  %v" ++ toString id ++ " = " ++ text, ?_, ?_⟩
      · rw [Module.instrLine, htext]
        rfl
      · have hvalue := (mentions_value "  " rfl (by decide) h).append
          (Mentions.plain (P := f.Refers p) (a := " = ") (by decide)) (by decide)
        exact .indented (hvalue.append_last hmentions)
  | store value address =>
      refine ⟨_, rfl, .indented ?_⟩
      have hvalue := (Mentions.plain (P := f.Refers p) (a := "  store ") (by decide)).append_last
        (hf.mentions_typed m (hneeds _ (.head _)))
      have hcomma := hvalue.append (.plain (a := ", ptr ") (by decide)) (by decide)
      exact hcomma.append_last (hf.mentions_operand (hneeds _ (.tail _ (.head _))))

theorem mentions_label {k : BlockId} (h : f.Meets p (.block k)) :
    ∃ text, Module.labelText f k = .ok text ∧ MentionsLast (f.Refers p) text := by
  obtain ⟨b, hb, hname⟩ := hf.mentions_block "label " rfl (by decide) h
  refine ⟨_, ?_, hname⟩
  unfold Module.labelText
  rw [hb]
  rfl

theorem mentions_case {arm : Word × BlockId} (h : f.Meets p (.block arm.2)) :
    ∃ line, m.caseLine f arm = .ok line ∧ f.IsBodyLine p line := by
  obtain ⟨label, hl, hlabel⟩ := hf.mentions_label h
  refine ⟨"    " ++ m.typed (.const arm.1) ++ ", " ++ label, ?_, .indented ?_⟩
  · unfold Module.caseLine
    rw [hl]
    rfl
  · have hvalue := (Mentions.plain (P := f.Refers p) (a := "    ") (by decide)).append_last
      (hf.mentions_typed m (.const arm.1))
    exact (hvalue.append (.plain (a := ", ") (by decide)) (by decide)).append_last hlabel

theorem mentions_terminator {t : Terminator} (h : ∀ need ∈ t.needs, f.Meets p need) :
    ∃ lines, m.terminatorLines f t = .ok lines ∧ ∀ line ∈ lines, f.IsBodyLine p line := by
  have hd : ∀ x ∈ t.demands, f.Meets p (.operand x.1 x.2) := fun x hx =>
    h _ (List.mem_append_left _ (List.mem_map.mpr ⟨x, hx, rfl⟩))
  have hb : ∀ k ∈ t.successors, f.Meets p (.block k) := fun k hk =>
    h _ (List.mem_append_right _ (List.mem_map.mpr ⟨k, hk, rfl⟩))
  have plain (text : String) (h : isPlainText text) : Mentions (f.Refers p) text := .plain h
  have single {line : String} (h : f.IsBodyLine p line) : ∀ l ∈ [line], f.IsBodyLine p l :=
    fun l hl => List.mem_singleton.mp hl ▸ h
  cases t with
  | branch target =>
      obtain ⟨label, hl, hlabel⟩ := hf.mentions_label (hb target (.head _))
      refine ⟨["  br " ++ label], ?_, single (.indented ?_)⟩
      · rw [Module.terminatorLines, hl]
        rfl
      · exact (plain "  br " (by decide)).append_last hlabel
  | condBranch bit thenBlock elseBlock =>
      obtain ⟨thenLabel, ht, hthen⟩ := hf.mentions_label (hb thenBlock (.head _))
      obtain ⟨elseLabel, he, helse⟩ := hf.mentions_label (hb elseBlock (.tail _ (.head _)))
      refine ⟨["  br i1 " ++ bit.assembly ++ ", " ++ thenLabel ++ ", " ++ elseLabel], ?_,
        single (.indented ?_)⟩
      · rw [Module.terminatorLines, ht, he]
        rfl
      · have hbit := (plain "  br i1 " (by decide)).append_last
          (hf.mentions_operand (hd _ (.head _)))
        have hfirst := (hbit.append (plain ", " (by decide)) (by decide)).append_last hthen
        exact (hfirst.append (plain ", " (by decide)) (by decide)).append_last helse
  | switch value default cases =>
      obtain ⟨label, hl, hlabel⟩ := hf.mentions_label (hb default (.head _))
      have harms : ∀ arm ∈ cases, ∃ line, m.caseLine f arm = .ok line ∧ f.IsBodyLine p line :=
        fun arm harm => hf.mentions_case m (hb _ (.tail _ (List.mem_map.mpr ⟨arm, harm, rfl⟩)))
      obtain ⟨t, ht, hmap⟩ := mapM_eq_ok harms
      refine ⟨("  switch " ++ m.typed value ++ ", " ++ label ++ " [") :: cases.map t ++ ["  ]"],
        ?_, ?_⟩
      · rw [Module.terminatorLines, hl, hmap]
        rfl
      · intro line hline
        rw [List.mem_append, List.mem_cons] at hline
        rcases hline with (rfl | hline) | hline
        · have hvalue := (plain "  switch " (by decide)).append_last
            (hf.mentions_typed m (hd _ (.head _)))
          have hdefault := (hvalue.append (plain ", " (by decide)) (by decide)).append_last hlabel
          exact .indented (hdefault.append (plain " [" (by decide)) (by decide)).last
        · obtain ⟨arm, harm, rfl⟩ := List.mem_map.mp hline
          exact (ht arm harm).2
        · exact single (.indented (plain "  ]" (by decide)).last) line hline
  | ret value =>
      refine ⟨_, rfl, single (.indented ?_)⟩
      exact (plain "  ret " (by decide)).append_last (hf.mentions_typed m (hd _ (.head _)))

theorem mentions_body {b : Block} (h : b ∈ f.blocks) :
    ∃ lines, m.blockLines f b = .ok lines ∧ (∀ line ∈ lines, f.IsBodyLine p line) ∧
      ∀ instr ∈ b.instrs, ∃ line ∈ lines, m.instrLine f instr = .ok line := by
  have hneeds : ∀ need ∈ b.needs, f.Meets p need := fun need hn =>
    hf.met need (List.mem_flatMap.mpr ⟨b, h, hn⟩)
  have hinstrs : ∀ instr ∈ b.instrs, ∃ line, m.instrLine f instr = .ok line ∧
      f.IsBodyLine p line := by
    intro instr hi
    refine hf.mentions_instr m (List.mem_flatMap.mpr ⟨b, h, hi⟩) fun need hn => ?_
    exact hneeds need (List.mem_append_left _ (List.mem_flatMap.mpr ⟨instr, hi, hn⟩))
  obtain ⟨t, ht, hmap⟩ := mapM_eq_ok hinstrs
  have hend : ∃ lines, m.endLines f b.terminator = .ok lines ∧
      ∀ line ∈ lines, f.IsBodyLine p line := by
    cases ht : b.terminator with
    | none =>
        refine ⟨_, rfl, fun line hl => ?_⟩
        rw [List.mem_singleton.mp hl]
        exact .indented (Mentions.plain (by decide)).last
    | some terminator =>
        refine hf.mentions_terminator m fun need hn => hneeds need ?_
        refine List.mem_append_right _ ?_
        rw [ht]
        exact hn
  obtain ⟨last, hlast, hlines⟩ := hend
  refine ⟨(b.name ++ ":") :: b.instrs.map t ++ last, ?_, ?_, ?_⟩
  · unfold Module.blockLines
    rw [hmap, hlast]
    rfl
  · intro line hline
    rw [List.mem_append, List.mem_cons] at hline
    rcases hline with (rfl | hline) | hline
    · have hname : b.name ∈ f.blockNames := List.mem_map.mpr ⟨b, h, rfl⟩
      exact .ofLabel (hf.named _ hname) hname
    · obtain ⟨instr, hi, rfl⟩ := List.mem_map.mp hline
      exact (ht instr hi).2
    · exact hlines line hline
  · intro instr hi
    refine ⟨t instr, ?_, (ht instr hi).1⟩
    exact List.mem_append_left _ (.tail _ (List.mem_map.mpr ⟨instr, hi, rfl⟩))

/-- The lines of a function: one that introduces it, and lines that introduce nothing. -/
theorem mentions_function :
    ∃ head body, m.functionLines f = .ok (head :: body) ∧
      introduction? head = some (.definition, f.name) ∧
      MentionsLast (f.Refers p) head ∧ labelAt? head = none ∧
      (∀ line ∈ body, f.IsBodyLine p line) ∧
      ∀ instr ∈ f.instrs, ∃ line ∈ body, m.instrLine f instr = .ok line := by
  have hblocks : ∀ b ∈ f.blocks, ∃ lines, m.blockLines f b = .ok lines ∧
      (∀ line ∈ lines, f.IsBodyLine p line) ∧
      ∀ instr ∈ b.instrs, ∃ line ∈ lines, m.instrLine f instr = .ok line :=
    fun b hb => hf.mentions_body m hb
  obtain ⟨t, ht, hmap⟩ := mapM_eq_ok hblocks
  have hparams : MentionsLast (f.Refers p)
      (Module.commaList (f.params.map fun x => m.typed (.param x))) := by
    refine .commaList fun text htext => ?_
    obtain ⟨x, hx, rfl⟩ := List.mem_map.mp htext
    exact hf.mentions_typed m (.param hx)
  have hfront : isPlainText ("define " ++ m.wordType ++ " ") := by
    simp only [isPlainText_append, isPlainText_wordType]
    decide
  have hmark : "define " ++ m.wordType ++ " " ++ "@" = "define " ++ m.wordType ++ " @" :=
    String.append_assoc
  refine ⟨"define " ++ m.wordType ++ " @" ++ f.name ++ "(" ++
    Module.commaList (f.params.map fun x => m.typed (.param x)) ++ ") \x7b",
    [""].intercalate (f.blocks.map t) ++ ["\x7d"], ?_, ?_, ?_, ?_, ?_, ?_⟩
  · unfold Module.functionLines
    rw [hmap]
    rfl
  · refine introduction?_eq_some _ ("(" ++ (Module.commaList (f.params.map fun x =>
      m.typed (.param x)) ++ ") \x7b")) ?_ hfront hf.name (isApart_append (by decide) _) ?_
    · rw [hmark]
      simp only [String.append_assoc]
    · simp only [String.append_assoc]
      exact introduced_definition _
  · have hname := MentionsLast.symbol _ hmark hfront hf.name
      (P := f.Refers p) (.inr (.inr rfl))
    have hopen := hname.append (.plain (a := "(") (by decide)) (by decide)
    exact ((hopen.append_last hparams).append (.plain (a := ") \x7b") (by decide))
      (by decide)).last
  · simp only [String.append_assoc]
    exact labelAt?_definition _
  · intro line hline
    rcases List.mem_append.mp hline with hline | hline
    · rcases mem_intercalate_singleton hline with rfl | ⟨lines, hlines, hline⟩
      · exact .bare (by decide) (by decide) fun x hx => by cases hx
      · obtain ⟨b, hb, rfl⟩ := List.mem_map.mp hlines
        exact (ht b hb).2.1 line hline
    · cases List.mem_singleton.mp hline
      exact .bare (by decide) (by decide) fun x hx => by cases hx
  · intro instr hi
    obtain ⟨b, hb, hi⟩ := List.mem_flatMap.mp hi
    obtain ⟨line, hline, hinstr⟩ := (ht b hb).2.2 instr hi
    have hblock : t b ∈ f.blocks.map t := List.mem_map.mpr ⟨b, hb, rfl⟩
    exact ⟨line, List.mem_append_left _ (subset_intercalate hblock hline), hinstr⟩

end Function.Printable
end BCompiler
