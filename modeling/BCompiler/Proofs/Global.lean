import BCompiler.Proofs.Assembly.Data
import BCompiler.Proofs.Phrase.Compile
import BCompiler.Proofs.Procedure
import BCompiler.Proofs.Settled

/-!
Declarations of globals.

A declaration is given as it is written: a name, the brackets of an array, and initial values. What
it adds to a module is said without the steps of the compiler: the strings among its values, and
its globals, each in the place of its namesake. The declaration does just that, unless there is a
function of the name; then its strings are all that is left of it.
-/
namespace BCompiler

open Pass

/-- An initial value as it is written, where a word has `size` bytes. -/
inductive Initializer (size : Nat) where
  | literal (l : Literal size)
  | negated (n : Digits)
  | string (letters : List (Letter '"'))
  deriving DecidableEq

namespace Initializer

variable {size : Nat}

def token : Initializer size → String
  | literal l => l.token
  | negated n => "-" ++ n.text
  | string letters => quoted letters

def tokens (i : Initializer size) : List String := [i.token]

/-- The constants of initial values where the next string has the given number. -/
def constants : Nat → List (Initializer size) → List Constant
  | _, [] => []
  | next, literal l :: rest => .word l.word :: constants next rest
  | next, negated n :: rest => .word (-n.word) :: constants next rest
  | next, string _ :: rest => .address (stringSymbol next) :: constants (next + 1) rest

/-- The strings among initial values where the next string has the given number. -/
def strings : Nat → List (Initializer size) → List StringConstant
  | _, [] => []
  | next, literal _ :: rest => strings next rest
  | next, negated _ :: rest => strings next rest
  | next, string letters :: rest =>
    ⟨stringSymbol next, utf8Bytes (String.ofList (letters.map Letter.char))⟩ ::
      strings (next + 1) rest

/-- The constant of an initial value. A string is added to the program. -/
def value : Initializer size → EStateM Error Program Constant
  | literal l => pure (.word l.word)
  | negated n => pure (.word (-n.word))
  | string letters => fun p =>
    .ok (.address (p.addString (String.ofList (letters.map Letter.char))).1)
      (p.addString (String.ofList (letters.map Letter.char))).2

/-- The values with commas between them. -/
def listTokens : List (Initializer size) → List String
  | [] => []
  | i :: rest => separated tokens i rest

theorem begins (i : Initializer size) :
    ∃ first, Begins i.token first ∧ first ∉ [';', '(', '['] := by
  cases i with
  | literal l =>
      obtain ⟨first, hb, hfirst⟩ := l.begins
      refine ⟨first, hb, fun hm => ?_⟩
      have hnone : [';', '(', '['].all fun mark => !startsLiteral mark := by decide
      have hmark := List.all_eq_true.mp hnone first hm
      rw [hfirst] at hmark
      cases hmark
  | negated n =>
      exact ⟨'-', ⟨n.text.toList, String.toList_append, rfl, fun h => absurd h (by decide)⟩,
        by decide⟩
  | string letters => exact ⟨'"', begins_quoted _ rfl (by decide), by decide⟩

theorem listTokens_cons (i : Initializer size) (rest : List (Initializer size)) :
    ∃ tail, listTokens (i :: rest) = i.token :: tail := by
  cases rest with
  | nil => exact ⟨[], rfl⟩
  | cons next rest => exact ⟨"," :: separated tokens next rest, rfl⟩

theorem length_constants (next : Nat) (values : List (Initializer size)) :
    (constants next values).length = values.length := by
  induction values generalizing next with
  | nil => rfl
  | cons i rest ih =>
      cases i with
      | literal => exact congrArg (· + 1) (ih next)
      | negated => exact congrArg (· + 1) (ih next)
      | string => exact congrArg (· + 1) (ih (next + 1))

end Initializer

/-- The program with more strings behind its own. -/
def Program.withStrings (new : List StringConstant) (p : Program) : Program :=
  { p with module := { p.module with strings := p.module.strings ++ new } }

namespace Initializer

variable {size : Nat}

/-- Values are read one by one, and each string among them gets the next number. -/
theorem mapM_value (values : List (Initializer size)) (p : Program) :
    values.mapM value p = .ok (constants p.module.strings.length values)
      (p.withStrings (strings p.module.strings.length values)) := by
  induction values generalizing p with
  | nil =>
      rw [strings, Program.withStrings, List.append_nil]
      rfl
  | cons i rest ih =>
      rw [List.mapM_cons]
      cases i with
      | literal l => exact (bind_of_ok (x := value (literal l)) rfl).trans (bind_of_ok (ih p))
      | negated n => exact (bind_of_ok (x := value (negated n)) rfl).trans (bind_of_ok (ih p))
      | string letters =>
          have hnext (text : String) :
              (p.addString text).2.module.strings.length = p.module.strings.length + 1 :=
            List.length_append
          refine (bind_of_ok (x := value (string letters)) rfl).trans ((bind_of_ok (ih _)).trans ?_)
          rw [hnext, Program.withStrings, Program.withStrings, strings, List.append_cons]
          rfl

end Initializer

namespace Pass

variable {size : Nat} {rest : List String}

theorem initializer_negated (n : Digits) :
    Mirrors size initializer (("-" ++ n.text) :: rest) (pure (.word (-n.word))) rest := by
  refine .of_ok fun c p hc => ?_
  have hb : Begins ("-" ++ n.text) '-' :=
    ⟨n.text.toList, String.toList_append, rfl, fun h => absurd h (by decide)⟩
  obtain ⟨c₁, h₁, hu⟩ := Scan.constant?_none hb rfl (by decide) c hc.at_tokens
  rw [String.toList_append] at hu
  have hpeek : Scan.peek c₁ = .ok (some '-') c₁ := by
    rw [Scan.peek, hu]
    rfl
  have hnumber : Scan.number.Reads (n.text :: rest) n.word rest := Scan.number_digits n
  obtain ⟨c₃, h₃, hc₃⟩ := hnumber
    { c₁ with unread := n.text.toList ++ spaced rest, line := lineAfter c₁.line '-' }
    (Scan.at_of_unread rfl)
  have hsize : c₃.wordSize = size :=
    (Scan.keepsSize_number _ _ _ h₃).trans ((Scan.keepsSize_constant? _ _ _ h₁).trans hc.wordSize)
  refine ⟨c₃, (bind_of_ok (scan_of_ok h₁)).trans ?_, hc₃, hsize⟩
  refine (bind_of_ok (scan_of_ok hpeek)).trans ?_
  exact (bind_of_ok (scan_of_ok (Scan.read_cons hu))).trans (bind_of_ok (scan_of_ok h₃))

theorem initializer_string (letters : List (Letter '"')) :
    Mirrors size initializer (quoted letters :: rest)
      (Initializer.string letters : Initializer size).value rest := by
  refine .of_ok fun c p hc => ?_
  have hb : Begins (quoted letters) '"' := begins_quoted _ rfl (by decide)
  obtain ⟨c₁, h₁, hu⟩ := Scan.constant?_none hb rfl (by decide) c hc.at_tokens
  have hquoted := Scan.unread_quoted letters hu
  have hpeek : Scan.peek c₁ = .ok (some '"') c₁ := by
    rw [Scan.peek, hquoted]
    rfl
  obtain ⟨c₃, h₃, hu₃⟩ := Scan.stringFrom_letters c₁.wordSize letters [] (lineAfter c₁.line '"')
    (spaced rest)
  have hstring : Scan.string { c₁ with
      unread := letters.flatMap Letter.written ++ '"' :: spaced rest
      line := lineAfter c₁.line '"' } = .ok (String.ofList (letters.map Letter.char)) c₃ := h₃
  have hsize : c₃.wordSize = size :=
    (Scan.wordSize_stringFrom _ _ _ h₃).trans
      ((Scan.keepsSize_constant? _ _ _ h₁).trans hc.wordSize)
  refine ⟨c₃, (bind_of_ok (scan_of_ok h₁)).trans ?_, .inl hu₃, hsize⟩
  refine (bind_of_ok (scan_of_ok hpeek)).trans ?_
  refine (bind_of_ok (scan_of_ok (Scan.read_cons hquoted))).trans ?_
  exact (bind_of_ok (scan_of_ok hstring)).trans (bind_of_ok rfl)

theorem initializer_mirrors (i : Initializer size) (rest : List String) :
    Mirrors size initializer (i.tokens ++ rest) i.value rest := by
  cases i with
  | literal l => exact .scan (Scan.constant?_literal l) (.pure _)
  | negated n => exact initializer_negated n
  | string letters => exact initializer_string letters

/-- Values with commas between them, and the semicolon behind them. -/
theorem initializers_mirrors (values : List (Initializer size)) (rest : List String) :
    Mirrors size initializers (Initializer.listTokens values ++ ";" :: rest)
      (values.mapM Initializer.value) rest := by
  refine .bounded fun n hn => ?_
  cases values with
  | nil => exact .scan ((Scan.accept_token rfl rfl).takes (Scan.keepsSize_accept _)) (.pure _)
  | cons i values =>
      have hlength := length_separated Initializer.tokens i values
      rw [Initializer.listTokens, List.length_append] at hn
      have hmark : ";".toList = [';'] := rfl
      have hitems := items_mirrors hmark rfl (by decide) "after initializer"
        (fun a next rest _ => initializer_mirrors a (next :: rest)) i values rest n (by omega)
      obtain ⟨first, hb, hne⟩ := i.begins
      obtain ⟨tail, htail⟩ := i.listTokens_cons values
      rw [Initializer.listTokens] at htail ⊢
      rw [htail] at hitems ⊢
      have hother : first ≠ ';' := fun he => hne (he ▸ .head _)
      exact .scan ((Scan.accept_other hb hother).takes (Scan.keepsSize_accept _)) hitems

end Pass

theorem toNat_max (a b : UInt64) : (max a b).toNat = max a.toNat b.toNat := by
  change (if a ≤ b then b else a).toNat = _
  split
  · next h => exact (Nat.max_eq_right (UInt64.le_iff_toNat_le.mp h)).symm
  · next h =>
      have hlt : ¬a.toNat ≤ b.toNat := fun hle => h (UInt64.le_iff_toNat_le.mpr hle)
      exact (Nat.max_eq_left (by omega)).symm

/-- A word that counts something is less than half of all words. -/
theorem Word.toInt_toNat_lt (w : Word) : 2 * w.toInt.toNat < UInt64.size := by
  have := w.toInt_lt
  have : UInt64.size = 2 ^ 64 := rfl
  omega

theorem Word.toNat_count (w : Word) : w.count.toNat = w.toInt.toNat := by
  have hlt := w.toInt_toNat_lt
  exact UInt64.toNat_ofNat_of_lt' (by omega)

/-- The length of an array is computed without overflow. -/
theorem Program.toNat_arrayLength (size : UInt64) {values : List Constant}
    (h : values.length < UInt64.size) :
    (arrayLength size values).toNat = max (max size.toNat values.length) 1 := by
  rw [arrayLength, toNat_max, toNat_max, UInt64.toNat_ofNat_of_lt' h]
  rfl

/-- Put a global in the place of its namesake, or behind all others. -/
def Global.placed (globals : List Global) (g : Global) : List Global :=
  if globals.any (·.name == g.name) then
    globals.map fun other => if other.name = g.name then g else other
  else globals ++ [g]

theorem Global.mem_placed {x g : Global} {globals : List Global} (h : x ∈ placed globals g) :
    x ∈ globals ∨ x = g := by
  unfold placed at h
  split at h
  · obtain ⟨other, ho, rfl⟩ := List.mem_map.mp h
    split
    · exact .inr rfl
    · exact .inl ho
  · exact (List.mem_append.mp h).imp_right List.mem_singleton.mp

theorem Global.mem_foldl_placed {x : Global} {new globals : List Global}
    (h : x ∈ new.foldl placed globals) : x ∈ globals ∨ x ∈ new := by
  induction new generalizing globals with
  | nil => exact .inl h
  | cons g new ih =>
      rcases ih h with h | h
      · rcases mem_placed h with h | rfl
        · exact .inl h
        · exact .inr (.head _)
      · exact .inr (.tail _ h)

/-- Where names are distinct, only one entry is replaced. -/
theorem Global.set_eq_map {globals : List Global} (h : (globals.map Global.name).Nodup) {i : Nat}
    {other : Global} (hi : globals[i]? = some other) {g : Global} (hname : other.name = g.name) :
    globals.set i g = globals.map fun o => if o.name = g.name then g else o := by
  induction globals generalizing i with
  | nil => cases hi
  | cons first rest ih =>
      obtain ⟨hnew, hrest⟩ := List.nodup_cons.mp h
      cases i with
      | zero =>
          cases hi
          have hkept : ∀ o ∈ rest, (if o.name = g.name then g else o) = o := by
            intro o ho
            refine if_neg fun he => hnew ?_
            exact List.mem_map.mpr ⟨o, ho, he.trans hname.symm⟩
          rw [List.set_cons_zero, List.map_cons, if_pos hname, List.map_congr_left hkept,
            List.map_id']
      | succ i =>
          have hne : first.name ≠ g.name := by
            intro he
            refine hnew (List.mem_map.mpr ⟨other, List.mem_of_getElem? hi, hname.trans he.symm⟩)
          rw [List.set_cons_succ, List.map_cons, if_neg hne, ih hrest hi]

theorem Module.defineGlobal_placed {m : Module} (hnames : m.globalNames.Nodup) {name : String}
    (hf : m.hasFunction name = false) (init : GlobalInit) :
    ∃ id, m.defineGlobal name init =
      .ok (id, { m with globals := Global.placed m.globals ⟨name, init⟩ }) := by
  unfold defineGlobal Global.placed
  rw [hf, if_neg Bool.false_ne_true]
  have hany : m.globals.any (·.name == name) = m.hasGlobal name := by
    rw [Bool.eq_iff_iff, hasGlobal_iff]
    simp
  cases hid : m.globalId? name with
  | some id =>
      obtain ⟨hlt, hname, _⟩ := List.findIdx?_eq_some_iff_getElem.mp hid
      refine ⟨id, ?_⟩
      rw [hany, hasGlobal, hid, Option.isSome_some, if_pos rfl, ← Global.set_eq_map hnames
        (List.getElem?_eq_getElem hlt) (g := ⟨name, init⟩) (by simpa using hname)]
  | none =>
      refine ⟨m.globals.length, ?_⟩
      rw [hany, hasGlobal, hid, Option.isSome_none, if_neg Bool.false_ne_true]

/-- A declaration of a global as it is written, where a word has `size` bytes. -/
structure GlobalDeclaration (size : Nat) where
  name : Name
  /-- The brackets of an array, with its size if one is given. -/
  brackets : Option (Option Digits)
  values : List (Initializer size)
  /-- No list that can be held has more values than can be counted. -/
  countable : values.length < UInt64.size

namespace GlobalDeclaration

variable {size : Nat}

def bracketTokens : Option (Option Digits) → List String
  | none => []
  | some none => ["[", "]"]
  | some (some n) => ["[", n.text, "]"]

def tokens (g : GlobalDeclaration size) : List String :=
  g.name.text :: (bracketTokens g.brackets ++ (Initializer.listTokens g.values ++ [";"]))

def text (g : GlobalDeclaration size) : String := " ".intercalate g.tokens

/-- The size of an array as a word, zero if none is given. -/
def sizeWord (g : GlobalDeclaration size) : Word := ((g.brackets.bind id).map Digits.word).getD 0

/-- The words of an array: as many as its size tells, and enough for the values and for one word.
A negative size tells nothing. -/
def length (g : GlobalDeclaration size) : Nat :=
  max (max g.sizeWord.toInt.toNat g.values.length) 1

theorem length_lt (g : GlobalDeclaration size) : g.length < UInt64.size := by
  have := g.sizeWord.toInt_toNat_lt
  have := g.countable
  have : UInt64.size = 2 ^ 64 := rfl
  unfold length
  omega

/-- The contents of a scalar with the given values. -/
def scalarInit : List Constant → GlobalInit
  | [] => .word (.word 0)
  | [value] => .word value
  | values => .words values

/-- The globals that are declared, where the next string has the given number. -/
def globals (next : Nat) (g : GlobalDeclaration size) : List Global :=
  if g.brackets.isSome then
    [⟨g.name.text ++ ".data",
      .buffer (.ofNatLT g.length g.length_lt) (Initializer.constants next g.values)⟩,
    ⟨g.name.text, .word (.address (g.name.text ++ ".data"))⟩]
  else [⟨g.name.text, scalarInit (Initializer.constants next g.values)⟩]

/-- The strings that are declared, where the next string has the given number. -/
def strings (next : Nat) (g : GlobalDeclaration size) : List StringConstant :=
  Initializer.strings next g.values

end GlobalDeclaration

/-- Change a program, or leave it as it is if that fails. -/
def Program.attempt (change : Program → Except Error Program) : EStateM Error Program Unit :=
  fun p =>
    match change p with
    | .ok p' => .ok () p'
    | .error e => .error e p

theorem Program.attempt_of_ok {change : Program → Except Error Program} {p p' : Program}
    (h : change p = .ok p') : attempt change p = .ok () p' := by
  rw [attempt, h]

theorem Program.attempt_of_error {change : Program → Except Error Program} {p : Program} {e : Error}
    (h : change p = .error e) : attempt change p = .error e p := by
  rw [attempt, h]

/-- The program with other globals. -/
def Program.withGlobals (globals : List Global) (p : Program) : Program :=
  { p with module := { p.module with globals } }

theorem Program.defineGlobal_placed {p : Program} (hnames : p.module.globalNames.Nodup)
    {name : String} (hf : p.module.hasFunction name = false) (init : GlobalInit) :
    p.defineGlobal name init =
      .ok (p.withGlobals (Global.placed p.module.globals ⟨name, init⟩)) := by
  obtain ⟨id, h⟩ := Module.defineGlobal_placed hnames hf init
  rw [defineGlobal, h]
  rfl

namespace GlobalDeclaration

variable {size : Nat} (g : GlobalDeclaration size)

/-- What is done to a program once the values are known. -/
def declare (values : List Constant) (p : Program) : Except Error Program :=
  if g.brackets.isSome then p.declareArray g.name.text g.sizeWord.count values
  else p.declareScalar g.name.text values

theorem arrayLength_eq (next : Nat) :
    Program.arrayLength g.sizeWord.count (Initializer.constants next g.values) =
      .ofNatLT g.length g.length_lt := by
  have hlength := Initializer.length_constants next g.values
  refine UInt64.toNat_inj.mp ?_
  rw [Program.toNat_arrayLength _ (hlength ▸ g.countable), hlength, Word.toNat_count,
    UInt64.toNat_ofNatLT]
  rfl

/-- No function has the name of the buffer, since there is a point in it. -/
theorem hasFunction_data {m : Module} (hm : m.WellNamed) :
    m.hasFunction (g.name.text ++ ".data") = false := by
  rw [Bool.eq_false_iff, ne_eq, Module.hasFunction_iff_mem]
  intro hmem
  refine dot_not_mem_of_isName (hm.functionNamed _ hmem) ?_
  rw [String.toList_append]
  exact List.mem_append.mpr (.inr (.head _))

variable {p : Program}

theorem declareScalar_ok (hnames : p.module.globalNames.Nodup)
    (hf : p.module.hasFunction g.name.text = false) (values : List Constant) :
    p.declareScalar g.name.text values = .ok (p.withGlobals
      (Global.placed p.module.globals ⟨g.name.text, scalarInit values⟩)) := by
  have hdefine := Program.defineGlobal_placed hnames hf
  match values with
  | [] => exact hdefine _
  | [_] => exact hdefine _
  | _ :: _ :: _ => exact hdefine _

theorem declareArray_ok (hnames : p.module.globalNames.Nodup)
    (hf : p.module.hasFunction g.name.text = false)
    (hfree : p.module.hasFunction (g.name.text ++ ".data") = false) (next : Nat) :
    p.declareArray g.name.text g.sizeWord.count (Initializer.constants next g.values) =
      .ok (p.withGlobals (Global.placed (Global.placed p.module.globals
        ⟨g.name.text ++ ".data",
          .buffer (.ofNatLT g.length g.length_lt) (Initializer.constants next g.values)⟩)
        ⟨g.name.text, .word (.address (g.name.text ++ ".data"))⟩)) := by
  have hdata := Program.defineGlobal_placed hnames hfree
    (.buffer (.ofNatLT g.length g.length_lt) (Initializer.constants next g.values))
  obtain ⟨i, m, hm, hprogram⟩ := Program.defineGlobal_eq_ok hdata
  obtain rfl := congrArg Program.module hprogram
  obtain ⟨_, _, _, hincluding, _⟩ := Module.defineGlobal_eq_ok hm
  have hnames₁ := @nodup_including (g.name.text ++ ".data") _ hnames
  rw [← hincluding] at hnames₁
  have hword := Program.defineGlobal_placed hnames₁ hf (.word (.address (g.name.text ++ ".data")))
  unfold Program.declareArray
  rw [hf, if_neg Bool.false_ne_true, g.arrayLength_eq]
  dsimp only
  rw [hdata]
  exact hword

theorem declare_ok (hnames : p.module.globalNames.Nodup)
    (hf : p.module.hasFunction g.name.text = false)
    (hfree : p.module.hasFunction (g.name.text ++ ".data") = false) (next : Nat) :
    g.declare (Initializer.constants next g.values) p =
      .ok (p.withGlobals ((g.globals next).foldl Global.placed p.module.globals)) := by
  unfold declare globals
  split
  · exact g.declareArray_ok hnames hf hfree next
  · exact g.declareScalar_ok hnames hf _

theorem declare_conflict (hf : p.module.hasFunction g.name.text = true)
    (values : List Constant) :
    g.declare values p = .error (.symbolConflict g.name.text .function) := by
  have hdefine (init : GlobalInit) :
      p.defineGlobal g.name.text init = .error (.symbolConflict g.name.text .function) := by
    rw [Program.defineGlobal, Module.defineGlobal, if_pos hf]
    rfl
  unfold declare
  split
  · rw [Program.declareArray, if_pos hf]
    rfl
  · match values with
    | [] => exact hdefine _
    | [_] => exact hdefine _
    | _ :: _ :: _ => exact hdefine _

end GlobalDeclaration

namespace Pass

variable {size : Nat} {between after : List String}

/-- A bracket behind the name opens an array. -/
theorem declaration_bracket (name : String) {act : EStateM Error Program Unit}
    (h : Mirrors size (array name) between act after) :
    Mirrors size (declaration name) ("[" :: between) act after := by
  refine .of_reach (fun c p hc => ?_) h
  have hb : Begins "[" '[' := begins_of_mark rfl rfl
  obtain ⟨c₁, h₁, hu⟩ := Scan.peekMark_solid hb c hc.at_tokens
  obtain ⟨c₂, h₂, hc₂⟩ := Scan.read_mark rfl hu
  have hsize : c₂.wordSize = size :=
    (Scan.keepsSize_read _ _ _ h₂).trans ((Scan.keepsSize_peekMark _ _ _ h₁).trans hc.wordSize)
  exact ⟨c₂, ⟨hc₂, hsize⟩, (bind_of_ok (scan_of_ok h₁)).trans (bind_of_ok (scan_of_ok h₂))⟩

/-- Anything else than a parenthesis or a bracket behind the name belongs to a scalar. -/
theorem declaration_scalar (name : String) {token : String} {first : Char} (hb : Begins token first)
    (hne : first ∉ ['(', '[']) {act : EStateM Error Program Unit}
    (h : Mirrors size (scalar name) (token :: between) act after) :
    Mirrors size (declaration name) (token :: between) act after := by
  have hparen : first ≠ '(' := fun he => hne (he ▸ .head _)
  have hbracket : first ≠ '[' := fun he => hne (he ▸ .tail _ (.head _))
  refine .scan ((Scan.peekMark_token hb).takes Scan.keepsSize_peekMark) ?_
  split
  · next he => exact absurd (Option.some.inj he) hparen
  · next he => exact absurd (Option.some.inj he) hbracket
  · exact h

end Pass

namespace GlobalDeclaration

variable {size : Nat} (g : GlobalDeclaration size)

/-- What the declaration does to a program. -/
def define : EStateM Error Program Unit := do
  let values ← g.values.mapM Initializer.value
  Program.attempt (g.declare values)

/-- The brackets of an array give its size. -/
theorem arraySize_takes (hg : g.brackets.isSome) :
    ∃ tail, bracketTokens g.brackets = "[" :: tail ∧ ∀ rest,
      Scan.Takes size (Scan.arraySize Scan.number) (tail ++ rest) g.sizeWord rest := by
  unfold sizeWord
  cases hb : g.brackets with
  | none =>
      rw [hb] at hg
      cases hg
  | some given =>
      cases given with
      | none =>
          refine ⟨["]"], rfl, fun rest => ?_⟩
          exact .bind ((Scan.accept_token rfl rfl).takes (Scan.keepsSize_accept _)) (.pure _)
      | some n =>
          obtain ⟨first, hfirst, hd⟩ := n.begins
          have hne : first ≠ ']' := by
            rintro rfl
            cases hd
          refine ⟨[n.text, "]"], rfl, fun rest => ?_⟩
          refine .bind ((Scan.accept_other hfirst hne).takes (Scan.keepsSize_accept _)) ?_
          exact .bind ((Scan.number_digits n).takes Scan.keepsSize_number)
            (.expect rfl rfl (.pure _))

theorem array_mirrors (hg : g.brackets.isSome) (rest : List String) :
    Mirrors size (Pass.declaration g.name.text)
      (bracketTokens g.brackets ++ (Initializer.listTokens g.values ++ ";" :: rest)) g.define
      rest := by
  have hvalues : Mirrors size (do
      let values ← initializers
      update (Program.declareArray g.name.text g.sizeWord.count values))
      (Initializer.listTokens g.values ++ ";" :: rest) g.define rest := by
    refine .bind (initializers_mirrors g.values rest) fun values => ?_
    have hdeclare : g.declare values = Program.declareArray g.name.text g.sizeWord.count values :=
      funext fun p => if_pos hg
    rw [hdeclare]
    exact .build _
  obtain ⟨tail, htail, hsize⟩ := g.arraySize_takes hg
  rw [htail, List.cons_append]
  exact declaration_bracket _ (.scan (hsize _) hvalues)

theorem scalar_mirrors (hg : g.brackets.isSome = false) (rest : List String) :
    Mirrors size (Pass.declaration g.name.text)
      (bracketTokens g.brackets ++ (Initializer.listTokens g.values ++ ";" :: rest)) g.define
      rest := by
  have hvalues : Mirrors size (Pass.scalar g.name.text)
      (Initializer.listTokens g.values ++ ";" :: rest) g.define rest := by
    refine .bind (initializers_mirrors g.values rest) fun values => ?_
    have hdeclare : g.declare values = Program.declareScalar g.name.text values :=
      funext fun p => if_neg (by rw [hg]; exact Bool.false_ne_true)
    rw [hdeclare]
    exact .build _
  rw [Option.isSome_eq_false_iff, Option.isNone_iff_eq_none] at hg
  rw [hg, bracketTokens, List.nil_append]
  cases hv : g.values with
  | nil =>
      rw [hv] at hvalues
      exact declaration_scalar _ (begins_of_mark rfl rfl) (by decide) hvalues
  | cons i values =>
      obtain ⟨first, hb, hne⟩ := i.begins
      obtain ⟨tail, htail⟩ := i.listTokens_cons values
      rw [hv, htail, List.cons_append] at hvalues
      rw [htail, List.cons_append]
      exact declaration_scalar _ hb (fun hm => hne (.tail _ hm)) hvalues

theorem declaration_mirrors (rest : List String) :
    Mirrors size (Pass.declaration g.name.text)
      (bracketTokens g.brackets ++ (Initializer.listTokens g.values ++ ";" :: rest)) g.define
      rest := by
  cases hg : g.brackets.isSome with
  | true => exact g.array_mirrors hg rest
  | false => exact g.scalar_mirrors hg rest

variable {c : Cursor} {p p' : Program}

theorem declarations_ok (hc : c.Faces size g.tokens) (h : g.define p = .ok () p') :
    ∃ c', Pass.declarations ⟨c, p⟩ = .ok () ⟨c', p'.clearScope⟩ := by
  obtain ⟨c₁, h₁, hc₁⟩ := (Scan.name_token g.name).takes Scan.keepsSize_name c hc
  obtain ⟨c₂, h₂, hc₂⟩ := (g.declaration_mirrors []).ok hc₁ h
  obtain ⟨c₃, h₃⟩ := Procedure.declarationsAt_nil hc₂.at_tokens (4 * c.unread.length + 6)
    p'.clearScope
  refine ⟨c₃, bind_eq_ok_iff.mpr ⟨g.name.text, ⟨c₁, p⟩, scan_of_ok h₁, ?_⟩⟩
  rw [if_neg g.name.text_ne_empty]
  refine bind_eq_ok_iff.mpr ⟨(), ⟨c₂, p'⟩, h₂, ?_⟩
  exact bind_eq_ok_iff.mpr ⟨(), ⟨c₂, p'.clearScope⟩, rfl, h₃⟩

theorem declarations_error (hc : c.Faces size g.tokens) {e : Error} (h : g.define p = .error e p') :
    ∃ c', Pass.declarations ⟨c, p⟩ = .error e ⟨c', p'⟩ := by
  obtain ⟨c₁, h₁, hc₁⟩ := (Scan.name_token g.name).takes Scan.keepsSize_name c hc
  obtain ⟨c₂, h₂⟩ := (g.declaration_mirrors []).error hc₁ h
  refine ⟨c₂, (bind_of_ok (scan_of_ok h₁)).trans ?_⟩
  rw [if_neg g.name.text_ne_empty]
  exact bind_of_error h₂

theorem define_ok (hp : p.module.WellNamed) (hf : p.module.hasFunction g.name.text = false) :
    g.define p = .ok () ((p.withStrings (g.strings p.module.strings.length)).withGlobals
      ((g.globals p.module.strings.length).foldl Global.placed p.module.globals)) := by
  have hfree := g.hasFunction_data hp
  have hdeclare := g.declare_ok (p := p.withStrings (g.strings p.module.strings.length))
    hp.globals hf hfree p.module.strings.length
  exact (bind_of_ok (Initializer.mapM_value g.values p)).trans (Program.attempt_of_ok hdeclare)

theorem define_conflict (hf : p.module.hasFunction g.name.text = true) :
    g.define p = .error (.symbolConflict g.name.text .function)
      (p.withStrings (g.strings p.module.strings.length)) := by
  have hconflict := g.declare_conflict (p := p.withStrings (g.strings p.module.strings.length)) hf
    (Initializer.constants p.module.strings.length g.values)
  exact (bind_of_ok (Initializer.mapM_value g.values p)).trans (Program.attempt_of_error hconflict)

end GlobalDeclaration

/-- The constants that are given for a global. -/
def GlobalInit.values : GlobalInit → List Constant
  | .word value => [value]
  | .words values => values
  | .buffer _ values => values
  | .placeholder => []

/-- A buffer has room for its values, unless there are more of them than a length can count. -/
def GlobalInit.Fits (init : GlobalInit) : Prop :=
  ∀ length values, init = .buffer length values → values.length < UInt64.size →
    values.length ≤ length.toNat

theorem Global.innate_fits : Innate fun g => g.init.Fits where
  word _ init h := by
    rintro length values rfl
    cases h
  buffer x size values := by
    intro length values' heq hcountable
    cases heq
    rw [Program.toNat_arrayLength size hcountable]
    omega

/-- If the contents of a global are printed as an array, then with as many elements as the printed
length says. -/
def Module.Measured (m : Module) (init : GlobalInit) : Prop :=
  ∀ (length : Nat) (rest : String),
    m.initText init = "global " ++ m.arrayType length ++ " " ++ rest →
    rest = "zeroinitializer" ∨ ∃ elements : List Constant, elements.length = length ∧
      rest = "[" ++ commaList (elements.map fun value =>
        m.wordType ++ " " ++ m.constantText value) ++ "]"

namespace Module

variable {m : Module}

theorem eq_of_tells {P : Prop} {a b r r' : String} (h : Tells P a b) (he : a ++ r = b ++ r') :
    P ∧ r = r' := by
  have htext := congrArg String.toList he
  rw [String.toList_append, String.toList_append] at htext
  exact (h htext).imp_right String.toList_injective

theorem length_padded (values : List Constant) (length : Nat) :
    (Constant.padded values length).length = max values.length length := by
  simp only [Constant.padded, List.length_append, List.length_replicate]
  omega

/-- The printed length and what stands behind it can be read off the text. -/
theorem eq_of_arrayType {length length' : Nat} {rest rest' : String}
    (h : "global " ++ m.arrayType length ++ " " ++ rest =
      "global " ++ m.arrayType length' ++ " " ++ rest') : length = length' ∧ rest = rest' := by
  have htells := ((m.tells_arrayType m length length').behind "global ").before " "
  exact (eq_of_tells htells h).imp_left And.right

theorem measured_list {init : GlobalInit} {n k : Nat} {values : List Constant}
    (hk : max values.length k = n)
    (h : m.initText init = "global " ++ m.arrayType n ++ " " ++ m.constantList values k) :
    m.Measured init := by
  intro length rest htext
  obtain ⟨rfl, rfl⟩ := eq_of_arrayType (h.symm.trans htext)
  refine .inr ⟨Constant.padded values k, (length_padded values k).trans hk, ?_⟩
  rw [constantList_eq, String.append_assoc]

theorem measured_words (values : List Constant) : m.Measured (.words values) :=
  measured_list (Nat.max_zero values.length) rfl

theorem measured_buffer {length : UInt64} {values : List Constant}
    (h : values.length ≤ length.toNat) : m.Measured (.buffer length values) := by
  cases values with
  | nil =>
      intro n rest htext
      have hzero : m.initText (.buffer length []) =
          "global " ++ m.arrayType length.toNat ++ " " ++ "zeroinitializer" := by
        rw [String.append_assoc]
        rfl
      exact .inl (eq_of_arrayType (hzero.symm.trans htext)).2.symm
  | cons value values => exact measured_list (Nat.max_eq_right h) rfl

/-- A single word is not printed as an array. -/
theorem measured_word (value : Constant) : m.Measured (.word value) := by
  intro length rest htext
  have htells := (m.tells_wordType_arrayType m length False (" " ++ m.constantText value)
    (" " ++ rest)).behind "global "
  have hnone : "global " ++ (m.wordType ++ (" " ++ m.constantText value)) ++ "" =
      "global " ++ (m.arrayType length ++ (" " ++ rest)) ++ "" := by
    rw [initText_word] at htext
    simpa only [String.append_empty, String.append_assoc] using htext
  exact (eq_of_tells htells hnone).1.elim

theorem measured_placeholder : m.Measured .placeholder := by
  intro length rest htext
  have hfirst := congrArg (fun text => text.toList.head?) htext
  simp [initText] at hfirst

theorem measured_of_fits {init : GlobalInit} (h : init.Fits)
    (hcountable : init.values.length < UInt64.size) : m.Measured init := by
  cases init with
  | word value => exact measured_word value
  | words values => exact measured_words values
  | buffer length values => exact measured_buffer (h length values rfl hcountable)
  | placeholder => exact measured_placeholder

end Module

namespace GlobalDeclaration

variable {size : Nat} (g : GlobalDeclaration size)

/-- The program after the declaration, which ends the bindings of the one before it. -/
def declared (p : Program) : Program :=
  ⟨{ p.module with
      globals := (g.globals p.module.strings.length).foldl Global.placed p.module.globals
      strings := p.module.strings ++ g.strings p.module.strings.length }, []⟩

theorem measured (m : Module) (next : Nat) {x : Global} (hx : x ∈ g.globals next) :
    m.Measured x.init := by
  unfold globals at hx
  split at hx
  · rcases List.mem_cons.mp hx with rfl | hx
    · refine Module.measured_buffer ?_
      rw [UInt64.toNat_ofNatLT, Initializer.length_constants, length]
      omega
    · rw [List.mem_singleton.mp hx]
      exact Module.measured_word _
  · rw [List.mem_singleton.mp hx]
    dsimp only
    unfold scalarInit
    split
    · exact Module.measured_word _
    · exact Module.measured_word _
    · exact Module.measured_words _

end GlobalDeclaration

/-- A declaration of a global does what it says, whatever was compiled before it. Only where there
is a function of the name it fails, and then all globals stay as they were. Each global is then
printed with as many elements as the printed length says, whether the declaration has added it or it
was there before; only the values of an old one might be too many to be counted. -/
theorem Session.declarations_define (moduleName : String) (wordSize : Nat)
    (before : List (String × String)) (g : GlobalDeclaration wordSize) :
    (∃ c, Pass.declarations
        ⟨.ofText g.text wordSize, ((new moduleName wordSize).history before).program⟩ =
      if ((new moduleName wordSize).history before).module.hasFunction g.name.text then
        .error (.symbolConflict g.name.text .function)
          ⟨c, ((new moduleName wordSize).history before).program.withStrings
            (g.strings ((new moduleName wordSize).history before).module.strings.length)⟩
      else .ok () ⟨c, g.declared ((new moduleName wordSize).history before).program⟩) ∧
    ∀ x ∈ (g.declared ((new moduleName wordSize).history before).program).module.globals,
      (x ∈ ((new moduleName wordSize).history before).module.globals →
        x.init.values.length < UInt64.size) →
      (g.declared ((new moduleName wordSize).history before).program).module.Measured x.init := by
  have hnamed := (closed_history moduleName wordSize before).named
  have hfits := eachGlobal_history Global.innate_fits moduleName wordSize before
  generalize ((new moduleName wordSize).history before) = s at hnamed hfits ⊢
  have hc : (Cursor.ofText g.text wordSize).Faces wordSize g.tokens :=
    ⟨.inr (spaced_intercalate ..), rfl⟩
  constructor
  · cases hf : s.module.hasFunction g.name.text with
    | true => exact g.declarations_error hc (g.define_conflict hf)
    | false => exact g.declarations_ok hc (g.define_ok hnamed hf)
  · intro x hx hcountable
    rcases Global.mem_foldl_placed hx with hold | hnew
    · exact Module.measured_of_fits (hfits x hold) (hcountable hold)
    · exact g.measured _ _ hnew

end BCompiler
