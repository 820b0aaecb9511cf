import BCompiler.Proofs.Assembly.Reading

/-!
The instruction that a line tells.

A line settles its operation, its operands and the value it defines. Where it names a block, it
settles which one as soon as the names of all blocks are known.
-/
namespace BCompiler

/-- The names in an operand can be written. -/
def Operand.Named : Operand → Prop
  | const _ | value _ => True
  | param x | symbol x => isSymbol x

/-- An operation whose names can be written and whose calls through pointers show as such. -/
structure Operation.Named (operation : Operation) : Prop where
  operands : ∀ x ∈ operation.demands, x.2.Named
  callees : ∀ x ∈ operation.callees, isSymbol x
  computed : operation.callsComputed

def Instr.Named : Instr → Prop
  | define _ operation => operation.Named
  | store value address => value.Named ∧ address.Named

def Terminator.Named (t : Terminator) : Prop := ∀ x ∈ t.demands, x.2.Named

/-- A function that its lines tell apart from any other. -/
structure Function.Legible (f : Function) : Prop where
  name : isSymbol f.name
  params : ∀ x ∈ f.params, isSymbol x
  labels : ∀ x ∈ f.blockNames, isSymbol x
  distinct : f.blockNames.Nodup
  instrs : ∀ b ∈ f.blocks, ∀ instr ∈ b.instrs, instr.Named
  terminators : ∀ b ∈ f.blocks, ∀ t ∈ b.terminator, t.Named

theorem Operand.isApart_assembly {v : Operand} (h : ∀ w, v ≠ .const w) : isApart v.assembly := by
  cases v with
  | const w => exact absurd rfl (h w)
  | value id => exact @isApart_append "%v" (by decide) (toString id)
  | param name => exact @isApart_append "%p." (by decide) name
  | symbol name => exact @isApart_append "@" (by decide) name

/-- A number and an operand behind a mark. -/
theorem Operand.tells_const (w : Word) {v : Operand} (h : ∀ w, v ≠ .const w) (P : Prop) :
    Tells P w.decimal v.assembly :=
  .symbol_of_isApart (isSymbol_decimal w) w.decimal_ne_empty (isApart_assembly h)

theorem Operand.tells {v w : Operand} (hv : v.Named) (hw : w.Named) :
    TellsLast (v = w) v.assembly w.assembly := by
  cases v with
  | const x =>
      cases w with
      | const y => exact (TellsLast.decimal x y).imp (congrArg _)
      | _ => exact (tells_const x (by simp) _).last
  | value i =>
      cases w with
      | const y => exact (tells_const y (by simp) _).symm.last
      | value j => exact ((TellsLast.number i j).behind "%v").imp (congrArg _)
      | param y => exact (@Tells.of_differ _ "%v" "%p." (by decide) _ _).last
      | symbol y => exact (@Tells.of_differ _ "%v" "@" (by decide) _ _).last
  | param x =>
      cases w with
      | const y => exact (tells_const y (by simp) _).symm.last
      | value j => exact (@Tells.of_differ _ "%p." "%v" (by decide) _ _).last
      | param y => exact ((TellsLast.symbol hv hw).behind "%p.").imp (congrArg _)
      | symbol y => exact (@Tells.of_differ _ "%p." "@" (by decide) _ _).last
  | symbol x =>
      cases w with
      | const y => exact (tells_const y (by simp) _).symm.last
      | value j => exact (@Tells.of_differ _ "@" "%v" (by decide) _ _).last
      | param y => exact (@Tells.of_differ _ "@" "%p." (by decide) _ _).last
      | symbol y => exact ((TellsLast.symbol hv hw).behind "@").imp (congrArg _)

/-- The word that an operation begins with. -/
inductive Keyword where
  | alloca | load | icmp | zext | inttoptr | ptrtoint | getelementptr | call | phi
  | binary (op : BinaryOp)
  deriving DecidableEq

namespace Keyword

def text : Keyword → String
  | alloca => "alloca"
  | load => "load"
  | icmp => "icmp"
  | zext => "zext"
  | inttoptr => "inttoptr"
  | ptrtoint => "ptrtoint"
  | getelementptr => "getelementptr"
  | call => "call"
  | phi => "phi"
  | binary op => op.mnemonic

def all : List Keyword :=
  [alloca, load, icmp, zext, inttoptr, ptrtoint, getelementptr, call, phi, binary .add, binary .sub,
    binary .mul, binary .div, binary .rem, binary .shl, binary .shr, binary .and, binary .or]

theorem mem_all (k : Keyword) : k ∈ all := by
  cases k with
  | binary op => cases op <;> decide
  | _ => decide

theorem text_injective {k k' : Keyword} (h : k.text = k'.text) : k = k' :=
  eq_of_nodup_map (by decide) k.mem_all k'.mem_all h

theorem isSymbol_text (k : Keyword) : isSymbol k.text := by
  cases k with
  | binary op => cases op <;> decide
  | _ => decide

end Keyword

def Operation.keyword : Operation → Keyword
  | alloca _ => .alloca
  | load _ => .load
  | binary op _ _ => .binary op
  | compare _ _ _ => .icmp
  | widen _ => .zext
  | toPointer _ => .inttoptr
  | toWord _ => .ptrtoint
  | element _ _ | arrayElement _ _ _ => .getelementptr
  | call _ _ => .call
  | phi _ => .phi

theorem Predicate.isSymbol_mnemonic (pred : Predicate) : isSymbol pred.mnemonic := by
  cases pred <;> decide

theorem Predicate.mnemonic_injective {a b : Predicate} (h : a.mnemonic = b.mnemonic) : a = b := by
  cases a <;> cases b <;> first | rfl | exact absurd h (by decide)

theorem except_bind_eq_ok {α β : Type} {x : Except Error α} {g : α → Except Error β} {b : β}
    (h : x >>= g = .ok b) : ∃ a, x = .ok a ∧ g a = .ok b := by
  cases x with
  | error e => cases h
  | ok a => exact ⟨a, rfl, h⟩

/-- A step for each item of a list, all of which have succeeded. -/
theorem exists_of_mapM {α β : Type} [Inhabited β] {g : α → Except Error β} {items : List α}
    {results : List β} (h : items.mapM g = .ok results) :
    ∃ t : α → β, (∀ a ∈ items, g a = .ok (t a)) ∧ results = items.map t := by
  have hall : ∀ a ∈ items, ∃ b, g a = .ok b ∧ True := by
    induction items generalizing results with
    | nil => exact fun _ ha => absurd ha List.not_mem_nil
    | cons first items ih =>
        rw [List.mapM_cons] at h
        obtain ⟨value, hfirst, h⟩ := except_bind_eq_ok h
        obtain ⟨values, hrest, _⟩ := except_bind_eq_ok h
        intro a ha
        rcases List.mem_cons.mp ha with rfl | ha
        · exact ⟨value, hfirst, trivial⟩
        · exact ih hrest a ha
  obtain ⟨t, ht, hmap⟩ := mapM_eq_ok hall
  exact ⟨t, fun a ha => (ht a ha).1, Except.ok.inj (h.symm.trans hmap)⟩

/-- Lists that agree item by item under a condition. -/
theorem eq_of_forall₂ {α : Type} {H : Prop} {l l' : List α}
    (h : List.Forall₂ (fun a b => H → a = b) l l') (hH : H) : l = l' := by
  rw [← List.forall₂_eq_eq_eq]
  exact h.imp fun _ _ he => he hH

namespace Module

variable {m m' : Module} {f f' : Function}

/-- Whatever an operation shows, its keyword stands in front. -/
theorem keyword_of_operationText {operation : Operation} {text : String}
    (h : m.operationText f operation = .ok text) :
    ∃ rest, text = operation.keyword.text ++ (" " ++ rest) := by
  have split {word more front rest : String} (hf : word ++ " " ++ more = front) :
      ∃ tail, front ++ rest = word ++ (" " ++ tail) :=
    ⟨more ++ rest, by rw [← hf, String.append_assoc, String.append_assoc]⟩
  cases operation with
  | alloca words => cases words <;> cases h <;> exact @split _ "" _ _ rfl
  | binary op lhs rhs =>
      cases h
      simp only [String.append_assoc]
      exact ⟨_, rfl⟩
  | widen bit =>
      cases h
      simp only [String.append_assoc]
      exact @split _ "i1 " _ _ rfl
  | toWord pointer =>
      cases h
      simp only [String.append_assoc]
      exact @split _ "ptr " _ _ rfl
  | phi incoming =>
      obtain ⟨arms, _, h⟩ := except_bind_eq_ok h
      cases h
      simp only [String.append_assoc]
      exact @split _ "" _ _ rfl
  | _ =>
      cases h
      simp only [String.append_assoc]
      exact @split _ "" _ _ rfl

theorem tells_wordType (m m' : Module) :
    TellsLast (m.wordBits = m'.wordBits) m.wordType m'.wordType :=
  (TellsLast.number m.wordBits m'.wordBits).behind "i"

theorem tells_typed (m m' : Module) {v w : Operand} (hv : v.Named) (hw : w.Named) :
    TellsLast (v = w) (m.typed v) (m'.typed w) := by
  have htype := (tells_wordType m m').before " " (by decide)
  exact (htype.append_last (Operand.tells hv hw)).imp And.right

theorem tells_arrayType (m m' : Module) (n k : Nat) :
    Tells (m.wordBits = m'.wordBits ∧ n = k) (m.arrayType n) (m'.arrayType k) := by
  have hlength := ((TellsLast.number n k).behind "[").before " x " (by decide)
  have htype := (hlength.append_last (tells_wordType m m')).before "]" (by decide)
  exact htype.imp And.symm

/-- The type of a word and that of an array differ in the first character. -/
theorem tells_wordType_arrayType (m m' : Module) (n : Nat) (P : Prop) (rest rest' : String) :
    Tells P (m.wordType ++ rest) (m'.arrayType n ++ rest') := by
  simp only [wordType, arrayType, String.append_assoc]
  exact .of_differ (by decide) _ _

/-- An operand with its type begins with a letter. -/
theorem tells_typed_close (m : Module) (v : Operand) {close : String} (h : differ "i" close) :
    Tells False (m.typed v) close := by
  have hfront : m.typed v = "i" ++ (toString m.wordBits ++ (" " ++ v.assembly)) := by
    simp only [typed, wordType, String.append_assoc]
  rw [hfront]
  simpa using Tells.of_differ (P := False) h _ ""

theorem tells_arguments (m m' : Module) {l l' : List Operand} (h : ∀ v ∈ l, v.Named)
    (h' : ∀ v ∈ l', v.Named) {close : String} (hclose : isApart close)
    (hcomma : differ ", " close) (hletter : differ "i" close) :
    Tells (l = l') (commaList (l.map m.typed) ++ close) (commaList (l'.map m'.typed) ++ close) := by
  have hitem : ∀ v ∈ l, ∀ w ∈ l', TellsLast (v = w) (m.typed v) (m'.typed w) :=
    fun v hv w hw => m.tells_typed m' (h v hv) (h' w hw)
  refine (Tells.commaList hitem hclose hcomma ?_ ?_).imp fun hall => ?_
  · exact fun v _ => m.tells_typed_close v hletter
  · exact fun v _ => (m'.tells_typed_close v hletter).symm
  · rwa [List.forall₂_eq_eq_eq] at hall

theorem calleeText_cases (m : Module) {callee : Callee} (h : callee.isComputed) :
    (∃ name, callee = .direct name ∧
      (m.calleeText callee = "@" ++ name ∨ m.calleeText callee = "(...) @" ++ name)) ∨
    ∃ i, callee = .indirect (.value i) ∧ m.calleeText callee = "(...) %v" ++ toString i := by
  cases callee with
  | direct name =>
      refine .inl ⟨name, rfl, ?_⟩
      rw [calleeText]
      split
      · exact .inl rfl
      · exact .inr rfl
  | indirect pointer =>
      cases pointer with
      | value i =>
          refine .inr ⟨i, rfl, ?_⟩
          rw [calleeText, Operand.assembly, ← String.append_assoc]
          rfl
      | _ => cases h

/-- Whether a callee is defined in the module shows in the text, but it is the same callee. -/
theorem tells_callee {c c' : Callee} (hc : c.isComputed) (hc' : c'.isComputed)
    (hn : ∀ name, c = .direct name → isSymbol name)
    (hn' : ∀ name, c' = .direct name → isSymbol name) :
    TellsLast (c = c') (m.calleeText c) (m'.calleeText c') := by
  rcases m.calleeText_cases hc with ⟨x, rfl, ht⟩ | ⟨i, rfl, ht⟩
  · have hx := hn x rfl
    rcases m'.calleeText_cases hc' with ⟨y, rfl, ht'⟩ | ⟨j, rfl, ht'⟩
    · have hy := hn' y rfl
      have hname := (TellsLast.symbol hx hy).imp (congrArg Callee.direct)
      rcases ht with ht | ht <;> rcases ht' with ht' | ht' <;> rw [ht, ht']
      · exact hname.behind "@"
      · exact (Tells.of_differ (by decide) _ _).last
      · exact (Tells.of_differ (by decide) _ _).last
      · exact hname.behind "(...) @"
    · rcases ht with ht | ht <;> rw [ht, ht'] <;> exact (Tells.of_differ (by decide) _ _).last
  · rw [ht]
    rcases m'.calleeText_cases hc' with ⟨y, rfl, ht'⟩ | ⟨j, rfl, ht'⟩
    · rcases ht' with ht' | ht' <;> rw [ht'] <;> exact (Tells.of_differ (by decide) _ _).last
    · rw [ht']
      exact ((TellsLast.number i j).behind "(...) %v").imp fun he => by rw [he]

theorem labelText_eq_ok {k : BlockId} {text : String} (h : labelText f k = .ok text) :
    ∃ b, f.block k = .ok b ∧ text = "label %" ++ b.name := by
  obtain ⟨b, hb, h⟩ := except_bind_eq_ok h
  cases h
  exact ⟨b, hb, rfl⟩

theorem instrLine_define_eq_ok {id : ValueId} {operation : Operation} {line : String}
    (h : m.instrLine f (.define id operation) = .ok line) :
    ∃ text, m.operationText f operation = .ok text ∧
      line = "  %v" ++ toString id ++ " = " ++ text := by
  obtain ⟨text, ht, h⟩ := except_bind_eq_ok h
  cases h
  exact ⟨text, ht, rfl⟩

theorem phiArm_eq_ok {arm : Operand × BlockId} {text : String} (h : phiArm f arm = .ok text) :
    ∃ b, f.block arm.2 = .ok b ∧
      text = "[ " ++ arm.1.assembly ++ ", %" ++ b.name ++ " ]" := by
  obtain ⟨b, hb, h⟩ := except_bind_eq_ok h
  cases h
  exact ⟨b, hb, rfl⟩

end Module

namespace Function.Legible

variable {f f' : Function} (hf : f.Legible) (hf' : f'.Legible) {m m' : Module}

theorem isSymbol_label {k : BlockId} {b : Block} (hf : f.Legible) (hb : f.block k = .ok b) :
    isSymbol b.name :=
  hf.labels _ (List.mem_map.mpr ⟨b, List.mem_of_getElem? (block_eq_ok_iff.mp hb), rfl⟩)

include hf hf'

/-- Blocks of one name have one place, if the names of all blocks are the same. -/
theorem tells_label {j k : BlockId} {b b' : Block} (hb : f.block j = .ok b)
    (hb' : f'.block k = .ok b') :
    TellsLast (f.blockNames = f'.blockNames → j = k) b.name b'.name := by
  have hsymbol := TellsLast.symbol (hf.isSymbol_label hb) (hf'.isSymbol_label hb')
  refine hsymbol.imp fun hname hsame => ?_
  have hj : f.blockNames[j]? = some b.name := by
    rw [blockNames, List.getElem?_map, block_eq_ok_iff.mp hb]
    rfl
  have hk : f.blockNames[k]? = some b.name := by
    rw [hsame, hname, blockNames, List.getElem?_map, block_eq_ok_iff.mp hb']
    rfl
  have hlt := (List.getElem?_eq_some_iff.mp hj).1
  exact (List.getElem?_inj hlt hf.distinct).mp (hj.trans hk.symm)

theorem tells_labelText {j k : BlockId} {s t : String} (hs : Module.labelText f j = .ok s)
    (ht : Module.labelText f' k = .ok t) :
    TellsLast (f.blockNames = f'.blockNames → j = k) s t := by
  obtain ⟨b, hb, rfl⟩ := Module.labelText_eq_ok hs
  obtain ⟨b', hb', rfl⟩ := Module.labelText_eq_ok ht
  exact (hf.tells_label hf' hb hb').behind "label %"

theorem tells_phiArm {a b : Operand × BlockId} (ha : a.1.Named) (hb : b.1.Named) {s t : String}
    (hs : Module.phiArm f a = .ok s) (ht : Module.phiArm f' b = .ok t) :
    Tells (f.blockNames = f'.blockNames → a = b) s t := by
  obtain ⟨k, hk, rfl⟩ := Module.phiArm_eq_ok hs
  obtain ⟨k', hk', rfl⟩ := Module.phiArm_eq_ok ht
  have hvalue := ((Operand.tells ha hb).behind "[ ").before ", %" (by decide)
  have hboth := (hvalue.append_last (hf.tells_label hf' hk hk')).before " ]" (by decide)
  exact hboth.imp fun h hsame => Prod.ext h.1 (h.2 hsame)

theorem tells_phi {incoming incoming' : List (Operand × BlockId)}
    (h : ∀ arm ∈ incoming, arm.1.Named) (h' : ∀ arm ∈ incoming', arm.1.Named)
    {arms arms' : List String} (hs : incoming.mapM (Module.phiArm f) = .ok arms)
    (ht : incoming'.mapM (Module.phiArm f') = .ok arms') :
    Tells (f.blockNames = f'.blockNames → incoming = incoming') (Module.commaList arms ++ "\n")
      (Module.commaList arms' ++ "\n") := by
  obtain ⟨t, ht₁, rfl⟩ := exists_of_mapM hs
  obtain ⟨t', ht₂, rfl⟩ := exists_of_mapM ht
  have hstart {g : Function} {arm : Operand × BlockId} {text : String}
      (harm : Module.phiArm g arm = .ok text) : Tells False text "\n" := by
    obtain ⟨b, _, rfl⟩ := Module.phiArm_eq_ok harm
    simp only [String.append_assoc]
    simpa using @Tells.of_differ False "[ " "\n" (by decide) _ ""
  have hitem : ∀ a ∈ incoming, ∀ b ∈ incoming',
      TellsLast (f.blockNames = f'.blockNames → a = b) (t a) (t' b) := fun a ha b hb =>
    (hf.tells_phiArm hf' (h a ha) (h' b hb) (ht₁ a ha) (ht₂ b hb)).last
  refine (Tells.commaList hitem (by decide) (by decide) ?_ ?_).imp eq_of_forall₂
  · exact fun a ha => hstart (ht₁ a ha)
  · exact fun b hb => (hstart (ht₂ b hb)).symm

omit hf hf' in
theorem tells_alloca {words words' : Option UInt64} {s t : String}
    (hs : m.operationText f (.alloca words) = .ok s)
    (ht : m'.operationText f' (.alloca words') = .ok t) :
    Tells (words = words') (s ++ "\n") (t ++ "\n") := by
  cases words with
  | none =>
      cases words' with
      | none =>
          cases hs
          cases ht
          exact ((m.tells_wordType m').behind "alloca ").line.imp fun _ => rfl
      | some k =>
          cases hs
          cases ht
          simp only [String.append_assoc]
          exact (m.tells_wordType_arrayType m' _ _ _ _).behind "alloca "
  | some n =>
      cases words' with
      | none =>
          cases hs
          cases ht
          simp only [String.append_assoc]
          exact (m'.tells_wordType_arrayType m _ _ _ _).symm.behind "alloca "
      | some k =>
          cases hs
          cases ht
          refine (((m.tells_arrayType m' _ _).behind "alloca ").before "\n").imp fun h => ?_
          rw [UInt64.toNat_inj.mp h.2]

omit hf hf' in
theorem tells_arrayElement {base base' : Operand} {length length' index index' : UInt64}
    (hv : base.Named) (hv' : base'.Named) {s t : String}
    (hs : m.operationText f (.arrayElement base length index) = .ok s)
    (ht : m'.operationText f' (.arrayElement base' length' index') = .ok t) :
    TellsLast (Operation.arrayElement base length index = .arrayElement base' length' index')
      s t := by
  cases hs
  cases ht
  have htype := m.tells_wordType m'
  have hlength := (m.tells_arrayType m' length.toNat length'.toNat).behind "getelementptr "
  have hbase := (hlength.before ", ptr ").append_last (Operand.tells hv hv')
  have hzero := ((hbase.before ", " (by decide)).append_last htype).before " 0, " (by decide)
  have hindex := ((hzero.append_last htype).before " " (by decide)).append_last
    (TellsLast.number index.toNat index'.toNat)
  refine hindex.imp ?_
  rintro ⟨⟨⟨⟨⟨_, hn⟩, rfl⟩, _⟩, _⟩, hi⟩
  rw [UInt64.toNat_inj.mp hn, UInt64.toNat_inj.mp hi]

omit hf hf' in
theorem tells_call {callee callee' : Callee} {arguments arguments' : List Operand}
    (h : (Operation.call callee arguments).Named) (h' : (Operation.call callee' arguments').Named)
    {s t : String} (hs : m.operationText f (.call callee arguments) = .ok s)
    (ht : m'.operationText f' (.call callee' arguments') = .ok t) :
    Tells (Operation.call callee arguments = .call callee' arguments') s t := by
  cases hs
  cases ht
  have hcallee : TellsLast (callee = callee') (m.calleeText callee) (m'.calleeText callee') := by
    refine Module.tells_callee h.computed h'.computed ?_ ?_
    · rintro name rfl
      exact h.callees name (.head _)
    · rintro name rfl
      exact h'.callees name (.head _)
  have hnamed {c : Callee} {l : List Operand} (hn : (Operation.call c l).Named) :
      ∀ v ∈ l, v.Named := fun v hv =>
    hn.operands (.word, v) (List.mem_append_right _ (List.mem_map.mpr ⟨v, hv, rfl⟩))
  have htype := ((m.tells_wordType m').behind "call ").before " " (by decide)
  have hopen := (htype.append_last hcallee).before "(" (by decide)
  have harguments : Tells (arguments = arguments')
      (Module.commaList (arguments.map m.typed) ++ ")")
      (Module.commaList (arguments'.map m'.typed) ++ ")") :=
    m.tells_arguments m' (hnamed h) (hnamed h') (by decide) (by decide) (by decide)
  have hboth := hopen.append harguments
  rw [← String.append_assoc, ← String.append_assoc] at hboth
  exact hboth.imp fun he => congrArg₂ Operation.call he.1.2 he.2

/-- The text of an operation up to the end of its line. First the keywords are compared; then each
kind of operation reads its own fields. -/
theorem tells_operation {a b : Operation} (ha : a.Named) (hb : b.Named) {s t : String}
    (hs : m.operationText f a = .ok s) (ht : m'.operationText f' b = .ok t) :
    Tells (f.blockNames = f'.blockNames → a = b) (s ++ "\n") (t ++ "\n") := by
  by_cases hk : a.keyword = b.keyword
  case neg =>
    obtain ⟨rest, rfl⟩ := Module.keyword_of_operationText hs
    obtain ⟨rest', rfl⟩ := Module.keyword_of_operationText ht
    have hword := TellsLast.symbol a.keyword.isSymbol_text b.keyword.isSymbol_text
    have hfalse := hword.imp fun he => hk (Keyword.text_injective he)
    refine Tells.before (hfalse.of_false ?_ ?_) "\n"
    · exact isApart_append (by decide) _
    · exact isApart_append (by decide) _
  have htype := m.tells_wordType m'
  cases a <;> cases b <;> first | (cases hk; done) | skip
  case alloca.alloca =>
    exact (tells_alloca hs ht).imp fun he _ => congrArg Operation.alloca he
  case load.load address address' =>
    cases hs
    cases ht
    have haddress := Operand.tells (ha.operands _ (.head _)) (hb.operands _ (.head _))
    have hboth := ((htype.behind "load ").before ", ptr " (by decide)).append_last haddress
    exact (hboth.imp fun h _ => congrArg Operation.load h.2).line
  case binary.binary op lhs rhs op' lhs' rhs' =>
    cases hk
    cases hs
    cases ht
    have hlhs := (m.tells_typed m' (ha.operands _ (.head _)) (hb.operands _ (.head _))).behind
      (op.mnemonic ++ " ")
    have hrhs := Operand.tells (ha.operands _ (.tail _ (.head _)))
      (hb.operands _ (.tail _ (.head _)))
    have hboth := (hlhs.before ", " (by decide)).append_last hrhs
    exact (hboth.imp fun h _ => congrArg₂ (Operation.binary op) h.1 h.2).line
  case compare.compare pred lhs rhs pred' lhs' rhs' =>
    cases hs
    cases ht
    have hpred := ((TellsLast.symbol pred.isSymbol_mnemonic pred'.isSymbol_mnemonic).imp
      Predicate.mnemonic_injective).behind "icmp "
    have hlhs := (hpred.before " " (by decide)).append_last
      (m.tells_typed m' (ha.operands _ (.head _)) (hb.operands _ (.head _)))
    have hrhs := Operand.tells (ha.operands _ (.tail _ (.head _)))
      (hb.operands _ (.tail _ (.head _)))
    have hboth := (hlhs.before ", " (by decide)).append_last hrhs
    refine (hboth.imp fun h _ => ?_).line
    obtain ⟨⟨rfl, hl⟩, hr⟩ := h
    exact congrArg₂ (Operation.compare pred) hl hr
  case widen.widen bit bit' =>
    cases hs
    cases ht
    have hbit := Operand.tells (ha.operands _ (.head _)) (hb.operands _ (.head _))
    have hto := ((hbit.behind "zext i1 ").before " to " (by decide)).append_last htype
    exact hto.line.imp fun h _ => congrArg Operation.widen h.1
  case toPointer.toPointer word word' =>
    cases hs
    cases ht
    have hvalue := m.tells_typed m' (ha.operands _ (.head _)) (hb.operands _ (.head _))
    have hto := (hvalue.behind "inttoptr ").before " to ptr" (by decide)
    exact (hto.before "\n").imp fun h _ => congrArg Operation.toPointer h
  case toWord.toWord pointer pointer' =>
    cases hs
    cases ht
    have hvalue := Operand.tells (ha.operands _ (.head _)) (hb.operands _ (.head _))
    have hto := ((hvalue.behind "ptrtoint ptr ").before " to " (by decide)).append_last htype
    exact hto.line.imp fun h _ => congrArg Operation.toWord h.1
  case element.element base index base' index' =>
    cases hs
    cases ht
    have hfront := (htype.behind "getelementptr ").before ", ptr " (by decide)
    have hbase := hfront.append_last
      (Operand.tells (ha.operands _ (.head _)) (hb.operands _ (.head _)))
    have hindex := m.tells_typed m' (ha.operands _ (.tail _ (.head _)))
      (hb.operands _ (.tail _ (.head _)))
    have hboth := (hbase.before ", " (by decide)).append_last hindex
    exact (hboth.imp fun h _ => congrArg₂ Operation.element h.1.2 h.2).line
  case element.arrayElement =>
    cases hs
    cases ht
    simp only [String.append_assoc]
    exact (m.tells_wordType_arrayType m' _ _ _ _).behind "getelementptr "
  case arrayElement.element =>
    cases hs
    cases ht
    simp only [String.append_assoc]
    exact (m'.tells_wordType_arrayType m _ _ _ _).symm.behind "getelementptr "
  case arrayElement.arrayElement =>
    refine (tells_arrayElement ?_ ?_ hs ht).line.imp fun h _ => h
    · exact ha.operands _ (.head _)
    · exact hb.operands _ (.head _)
  case call.call =>
    exact ((tells_call ha hb hs ht).before "\n").imp fun h _ => h
  case phi.phi =>
    obtain ⟨arms, harms, hs⟩ := except_bind_eq_ok hs
    obtain ⟨arms', harms', ht⟩ := except_bind_eq_ok ht
    cases hs
    cases ht
    have hincoming := hf.tells_phi hf'
      (fun arm harm => ha.operands (.word, arm.1) (List.mem_map.mpr ⟨arm, harm, rfl⟩))
      (fun arm harm => hb.operands (.word, arm.1) (List.mem_map.mpr ⟨arm, harm, rfl⟩))
      harms harms'
    have hline := ((htype.behind "phi ").before " " (by decide)).append hincoming
    rw [← String.append_assoc, ← String.append_assoc] at hline
    exact hline.imp fun h hsame => congrArg Operation.phi (h.2 hsame)

theorem tells_instr {a b : Instr} (ha : a.Named) (hb : b.Named) {s t : String}
    (hs : m.instrLine f a = .ok s) (ht : m'.instrLine f' b = .ok t) :
    Tells (f.blockNames = f'.blockNames → a = b) (s ++ "\n") (t ++ "\n") := by
  cases a with
  | define id operation =>
      obtain ⟨text, htext, rfl⟩ := Module.instrLine_define_eq_ok hs
      cases b with
      | define id' operation' =>
          obtain ⟨text', htext', rfl⟩ := Module.instrLine_define_eq_ok ht
          have hid := ((TellsLast.number id id').behind "  %v").before " = " (by decide)
          have hboth := hid.append (hf.tells_operation hf' ha hb htext htext')
          rw [← String.append_assoc, ← String.append_assoc] at hboth
          exact hboth.imp fun h hsame => congrArg₂ Instr.define h.1 (h.2 hsame)
      | store value address =>
          cases ht
          simp only [String.append_assoc]
          exact .of_differ (by decide) _ _
  | store value address =>
      cases hs
      cases b with
      | define id operation =>
          obtain ⟨text, htext, rfl⟩ := Module.instrLine_define_eq_ok ht
          simp only [String.append_assoc]
          exact .of_differ (by decide) _ _
      | store value' address' =>
          cases ht
          have hvalue := (m.tells_typed m' ha.1 hb.1).behind "  store "
          have hboth := (hvalue.before ", ptr " (by decide)).append_last (Operand.tells ha.2 hb.2)
          exact (hboth.imp fun h _ => congrArg₂ Instr.store h.1 h.2).line

end Function.Legible
end BCompiler
