import BCompiler.Proofs.Assembly.Code
import BCompiler.Proofs.Settled

/-!
The strings and globals that their lines tell.

A string is told by the number of its bytes and by their spellings. A global is told by its
initializer, with the zeros at the end of a buffer written out; but a buffer for which no value is
given is told from one of given zeros.
-/
namespace BCompiler

theorem byteSpelling_append_inj {b b' : UInt8} {r r' : List Char}
    (h : byteSpelling b ++ r = byteSpelling b' ++ r') : b = b' ∧ r = r' := by
  have hcodes := congrArg literalCodes h
  rw [literalCodes_byteSpelling, literalCodes_byteSpelling] at hcodes
  obtain rfl : b = b' := UInt8.toNat_inj.mp (List.cons.inj hcodes).1
  exact ⟨rfl, List.append_cancel_left h⟩

/-- As many bytes on both sides, by induction on both. -/
theorem tells_byteLiteral {bytes bytes' : List UInt8} (h : bytes.length = bytes'.length) :
    Tells (bytes = bytes') (byteLiteral bytes) (byteLiteral bytes') := by
  intro r r' he
  unfold byteLiteral at he
  rw [String.toList_ofList, String.toList_ofList] at he
  induction bytes generalizing bytes' with
  | nil =>
      cases bytes' with
      | nil => exact ⟨rfl, he⟩
      | cons b' bytes' => cases h
  | cons b bytes ih =>
      cases bytes' with
      | nil => cases h
      | cons b' bytes' =>
          rw [List.flatMap_cons, List.flatMap_cons, List.append_assoc, List.append_assoc] at he
          obtain ⟨rfl, hrest⟩ := byteSpelling_append_inj he
          obtain ⟨rfl, hr⟩ := ih (Nat.succ.inj h) hrest
          exact ⟨rfl, hr⟩

theorem tells_stringLine {s s' : StringConstant} (hs : isSymbol s.name) (hs' : isSymbol s'.name) :
    Tells (s = s') (Module.stringLine s ++ "\n") (Module.stringLine s' ++ "\n") := by
  have hname := ((TellsLast.symbol hs hs').behind "@").before
    " = private unnamed_addr constant [" (by decide)
  have hcount := hname.append_last (TellsLast.number (s.bytes.length + 1) (s'.bytes.length + 1))
  have hsize := hcount.before " x i8] c\"" (by decide)
  have hbytes := hsize.append_of fun h => tells_byteLiteral (Nat.succ.inj h.2)
  refine ((hbytes.before "\\00\"").before "\n").imp ?_
  rintro ⟨⟨hnames, _⟩, hall⟩
  cases s
  cases s'
  exact congrArg₂ StringConstant.mk hnames hall

namespace Constant

/-- The values with zeros behind them up to the length. -/
def padded (values : List Constant) (length : Nat) : List Constant :=
  values ++ List.replicate (length - values.length) (.word 0)

def Named (value : Constant) : Prop := ∀ x ∈ value.addresses, isSymbol x

end Constant

namespace GlobalInit

/-- The initializer with the zeros that are written out for it. -/
def padded : GlobalInit → GlobalInit
  | buffer length (value :: values) =>
    buffer length (Constant.padded (value :: values) length.toNat)
  | init => init

def Named (init : GlobalInit) : Prop := ∀ x ∈ init.addresses, isSymbol x

end GlobalInit

namespace Module

variable {m m' : Module}

theorem letter_not_mem_decimal (w : Word) : 'p' ∉ w.decimal.toList := by
  have hdigits (n : Nat) : 'p' ∉ (toString n).toList := by
    intro hc
    have hd : 'p'.isDigit := Nat.isDigit_of_mem_toDigits (by decide) (by decide)
      (Nat.toList_repr (n := n) ▸ hc)
    revert hd
    decide
  unfold Word.decimal
  cases w.toInt with
  | ofNat n => exact hdigits n
  | negSucc n =>
      have htext : toString (Int.negSucc n) = "-" ++ toString (n + 1) := rfl
      have hminus : 'p' ∉ "-".toList := by decide
      rw [htext, String.toList_append, List.mem_append, not_or]
      exact ⟨hminus, hdigits _⟩

theorem tells_word_address (w : Word) (P : Prop) (rest : String) :
    Tells P w.decimal ("ptrtoint (ptr @" ++ rest) := by
  intro r r' he
  cases hw : w.decimal.toList with
  | nil => exact absurd (String.toList_eq_nil_iff.mp hw) w.decimal_ne_empty
  | cons c digits =>
      rw [hw, String.toList_append] at he
      have hc : c = 'p' := (List.cons.inj he).1
      exact absurd (hw ▸ hc ▸ List.mem_cons_self ..) (letter_not_mem_decimal w)

theorem addressText_eq (m : Module) (name : String) :
    m.constantText (.address name) =
      "ptrtoint (ptr @" ++ (name ++ (" to " ++ (m.wordType ++ ")"))) := by
  have hassoc (a b c d e : String) : a ++ b ++ c ++ d ++ e = a ++ (b ++ (c ++ (d ++ e))) := by
    simp only [String.append_assoc]
  exact hassoc _ _ _ _ _

theorem tells_constant (m m' : Module) {c c' : Constant} (hc : c.Named) (hc' : c'.Named) :
    TellsLast (c = c') (m.constantText c) (m'.constantText c') := by
  cases c with
  | word w =>
      cases c' with
      | word w' => exact (TellsLast.decimal w w').imp (congrArg Constant.word)
      | address name =>
          rw [addressText_eq]
          exact (tells_word_address w _ _).last
  | address name =>
      cases c' with
      | word w =>
          rw [addressText_eq]
          exact (tells_word_address w _ _).symm.last
      | address name' =>
          have hname := (TellsLast.symbol (hc name (.head _)) (hc' name' (.head _))).behind
            "ptrtoint (ptr @"
          have hto := (hname.before " to " (by decide)).append_last (m.tells_wordType m')
          exact ((hto.before ")" (by decide)).imp fun h => congrArg Constant.address h.1).last

/-- The zeros behind the values are written as any other. -/
theorem constantList_eq (m : Module) (values : List Constant) (length : Nat) :
    m.constantList values length = "[" ++ (commaList ((Constant.padded values length).map
      fun value => m.wordType ++ " " ++ m.constantText value) ++ "]") := by
  have hzero : m.constantText (.word 0) = "0" := (by decide : Word.decimal 0 = "0")
  unfold constantList Constant.padded
  dsimp only
  rw [List.map_append, List.map_append, List.map_map, List.map_replicate, List.map_replicate, hzero,
    String.append_assoc]
  rfl

theorem tells_constantList (m m' : Module) {values values' : List Constant} (length length' : Nat)
    (h : ∀ v ∈ values, v.Named) (h' : ∀ v ∈ values', v.Named) :
    Tells (Constant.padded values length = Constant.padded values' length')
      (m.constantList values length) (m'.constantList values' length') := by
  have hpadded {values : List Constant} {length : Nat} (h : ∀ v ∈ values, v.Named) :
      ∀ v ∈ Constant.padded values length, v.Named := by
    intro v hv
    rcases List.mem_append.mp hv with hv | hv
    · exact h v hv
    · rw [(List.mem_replicate.mp hv).2]
      exact fun _ hx => absurd hx List.not_mem_nil
  have hletter (m : Module) (v : Constant) :
      Tells False (m.wordType ++ " " ++ m.constantText v) "]" := by
    simp only [wordType, String.append_assoc]
    simpa using @Tells.of_differ False "i" "]" (by decide) _ ""
  have hitem : ∀ v ∈ Constant.padded values length, ∀ w ∈ Constant.padded values' length',
      TellsLast (v = w) (m.wordType ++ " " ++ m.constantText v)
        (m'.wordType ++ " " ++ m'.constantText w) := by
    intro v hv w hw
    have htype := (m.tells_wordType m').before " " (by decide)
    exact (htype.append_last (m.tells_constant m' (hpadded h v hv) (hpadded h' w hw))).imp And.right
  rw [constantList_eq, constantList_eq]
  have hlist := Tells.commaList hitem (by decide) (by decide) (fun v _ => hletter m v)
    fun v _ => (hletter m' v).symm
  exact (hlist.behind "[").imp fun hall => List.forall₂_eq_eq_eq ▸ hall

/-- A list of values is told from the word that stands for none. -/
theorem tells_zeros (m : Module) (values : List Constant) (length : Nat) (P : Prop) :
    Tells P " zeroinitializer" (" " ++ m.constantList values length) := by
  have hfront : " " ++ "[" = " [" := rfl
  rw [constantList_eq, ← String.append_assoc, hfront]
  simpa using @Tells.of_differ P " zeroinitializer" " [" (by decide) "" _

theorem tells_buffer (m m' : Module) {length length' : UInt64} {values values' : List Constant}
    (h : ∀ v ∈ values, v.Named) (h' : ∀ v ∈ values', v.Named) :
    Tells (m.wordBits = m'.wordBits ∧
        (GlobalInit.buffer length values).padded = (GlobalInit.buffer length' values').padded)
      (m.initText (.buffer length values)) (m'.initText (.buffer length' values')) := by
  have hlength := (m.tells_arrayType m' length.toNat length'.toNat).behind "global "
  cases values with
  | nil =>
      cases values' with
      | nil =>
          refine (hlength.before " zeroinitializer").imp fun h => ⟨h.1, ?_⟩
          rw [UInt64.toNat_inj.mp h.2]
      | cons v' values' =>
          have hboth := hlength.append (m'.tells_zeros (v' :: values') length'.toNat False)
          rw [← String.append_assoc] at hboth
          exact hboth.imp fun h => h.2.elim
  | cons v values =>
      cases values' with
      | nil =>
          have hboth := hlength.append (m.tells_zeros (v :: values) length.toNat False).symm
          rw [← String.append_assoc] at hboth
          exact hboth.imp fun h => h.2.elim
      | cons v' values' =>
          have hlist := m.tells_constantList m' length.toNat length'.toNat h h'
          refine ((hlength.before " ").append hlist).imp ?_
          rintro ⟨⟨hwidth, hn⟩, hall⟩
          obtain rfl := UInt64.toNat_inj.mp hn
          exact ⟨hwidth, congrArg (GlobalInit.buffer length) hall⟩

theorem initText_word (m : Module) (value : Constant) :
    m.initText (.word value) = "global " ++ (m.wordType ++ (" " ++ m.constantText value)) := by
  have hassoc (a b c d : String) : a ++ b ++ c ++ d = a ++ (b ++ (c ++ d)) := by
    simp only [String.append_assoc]
  exact hassoc _ _ _ _

/-- An initializer with an array type in front of its values. -/
theorem initText_array (m : Module) (init : GlobalInit) (length : Nat) (values : String)
    (h : m.initText init = "global " ++ m.arrayType length ++ " " ++ values) :
    m.initText init = "global " ++ (m.arrayType length ++ (" " ++ values)) := by
  rw [h, String.append_assoc, String.append_assoc]

/-- A word and several words. -/
theorem tells_word_words (m m' : Module) (value : Constant) (values : List Constant) (P : Prop) :
    Tells P (m.initText (.word value)) (m'.initText (.words values)) := by
  rw [initText_word, initText_array m' _ _ _ rfl]
  exact (m.tells_wordType_arrayType m' _ _ _ _).behind "global "

/-- A placeholder is told by its first word. -/
theorem tells_placeholder (m m' : Module) {init : GlobalInit} (h : init ≠ .placeholder) (P : Prop) :
    Tells P (m.initText .placeholder) (m'.initText init) := by
  have hfront : ∃ rest, m'.initText init = "global " ++ rest := by
    cases init with
    | placeholder => exact absurd rfl h
    | word value => exact ⟨_, initText_word m' value⟩
    | words values => exact ⟨_, initText_array m' _ _ _ rfl⟩
    | buffer length values =>
        cases values with
        | nil => exact ⟨_, String.append_assoc⟩
        | cons value values => exact ⟨_, initText_array m' _ _ _ rfl⟩
  obtain ⟨rest, hrest⟩ := hfront
  have hplaceholder : m.initText .placeholder = "common global " ++ (m.wordType ++ " 0") :=
    String.append_assoc
  rw [hrest, hplaceholder]
  exact .of_differ (by decide) _ _

theorem tells_init (m m' : Module) {init init' : GlobalInit} (h : init.Named) (h' : init'.Named)
    (hkind : init.isBuffer = init'.isBuffer) :
    Tells (m.wordBits = m'.wordBits ∧ init.padded = init'.padded) (m.initText init ++ "\n")
      (m'.initText init' ++ "\n") := by
  have hvalues {values : List Constant} (hv : ∀ x ∈ values.flatMap Constant.addresses, isSymbol x) :
      ∀ v ∈ values, v.Named := fun v hm x hx => hv x (List.mem_flatMap.mpr ⟨v, hm, hx⟩)
  cases init <;> cases init' <;> first | (cases hkind; done) | skip
  case word.word =>
    have htype := ((m.tells_wordType m').behind "global ").before " " (by decide)
    have hboth := htype.append_last (m.tells_constant m' h h')
    exact hboth.line.imp fun he => ⟨he.1, congrArg GlobalInit.word he.2⟩
  case word.words => exact (m.tells_word_words m' _ _ _).before "\n"
  case words.word => exact (m'.tells_word_words m _ _ _).symm.before "\n"
  case words.words values values' =>
    have hlength := (m.tells_arrayType m' values.length values'.length).behind "global "
    have hlist := m.tells_constantList m' 0 0 (hvalues h) (hvalues h')
    refine (((hlength.before " ").append hlist).before "\n").imp fun he => ⟨he.1.1, ?_⟩
    have hall := he.2
    simp only [Constant.padded, Nat.zero_sub, List.replicate_zero, List.append_nil] at hall
    rw [hall]
  case buffer.buffer => exact (m.tells_buffer m' (hvalues h) (hvalues h')).before "\n"
  case placeholder.placeholder =>
    have htype := ((m.tells_wordType m').behind "common global ").before " 0" (by decide)
    exact (htype.before "\n").imp fun he => ⟨he, rfl⟩
  case placeholder.word => exact (m.tells_placeholder m' (by simp) _).before "\n"
  case placeholder.words => exact (m.tells_placeholder m' (by simp) _).before "\n"
  case word.placeholder => exact (m'.tells_placeholder m (by simp) _).symm.before "\n"
  case words.placeholder => exact (m'.tells_placeholder m (by simp) _).symm.before "\n"

end Module

/-- The global with the zeros that are written out for it. -/
def Global.padded (g : Global) : Global := ⟨g.name, g.init.padded⟩

end BCompiler
