import BCompiler.Proofs.Expression.Tree
import BCompiler.Proofs.Source.Literal

/-!
The trees of the whole expression language: their code and how they may be spelled.

A tree stands for a word, for a place that can be assigned to, or for the arguments of a call. The
code of a tree is generated after that of its parts, from left to right. Its spellings have
parentheses around a part that stands for a word wherever the levels need them, and as many more as
one likes; a place is never put in parentheses.
-/
namespace BCompiler

/-- What a tree stands for. -/
inductive Kind where
  | word
  /-- A place, and whether it is written with a sign in front. -/
  | place (signed : Bool)
  | list
  deriving DecidableEq, Repr

/-- What the code of a tree gives. -/
abbrev Kind.Result : Kind → Type
  | word => Operand
  | place _ => Denotation
  | list => List Operand

/-- Expression trees where a word has `size` bytes. -/
inductive Tree (size : Nat) : Kind → Type
  | constant (n : Numeral) : Tree size .word
  | character (l : CharacterLiteral size) : Tree size .word
  | string (letters : List (Letter '"')) : Tree size .word
  /-- The word at a place. -/
  | read {signed : Bool} (p : Tree size (.place signed)) : Tree size .word
  | addressOf {signed : Bool} (p : Tree size (.place signed)) : Tree size .word
  | negate (e : Tree size .word) : Tree size .word
  | not (e : Tree size .word) : Tree size .word
  | stepAfter (k : Count) (p : Tree size (.place false)) : Tree size .word
  /-- A call whose callee is a name. -/
  | call (f : Name) (arguments : Tree size .list) : Tree size .word
  /-- A call of the function at the address that a word is. -/
  | callThrough (callee : Tree size .word) (arguments : Tree size .list) : Tree size .word
  | binary (op : Op) (l r : Tree size .word) : Tree size .word
  | conditional (c t e : Tree size .word) : Tree size .word
  /-- An assignment, compound if it has an operator. -/
  | assign {signed : Bool} (op : Option Op) (p : Tree size (.place signed))
      (e : Tree size .word) : Tree size .word
  | name (x : Name) : Tree size (.place false)
  | subscript (base index : Tree size .word) : Tree size (.place false)
  | dereference (e : Tree size .word) : Tree size (.place true)
  | stepBefore {signed : Bool} (k : Count) (p : Tree size (.place signed)) :
      Tree size (.place true)
  | none : Tree size .list
  | cons (e : Tree size .word) (rest : Tree size .list) : Tree size .list

/-- The address of what can be assigned to. -/
def Build.lvalue (spelling : String) : Denotation → Build Operand
  | .address address => return address
  | _ => throw (.notAnLvalue spelling)

/-- The token of an assignment. -/
def equals (op : Option Op) : String := "=" ++ (op.map Op.symbol).getD ""

namespace Tree

variable {size : Nat}

/-- The code of a tree, with that of its parts first, from left to right. -/
@[simp] def code : {k : Kind} → Tree size k → Build k.Result
  | _, constant n => return Operand.const n.word
  | _, character l => return Operand.const l.word
  | _, string letters => Build.string (String.ofList (letters.map Letter.char))
  | _, read p => do Build.rvalue (← p.code)
  | _, addressOf p => do Build.toWord (← Build.lvalue "&" (← p.code))
  | _, negate e => do Build.binary .sub (.const 0) (← e.code)
  | _, not e => do Build.compare .eq (← e.code) (.const 0)
  | _, stepAfter k p => do
    let (old, _) ← Build.step k.op k.symbol (← p.code)
    return old
  | _, call f arguments => do
    let callee ← Build.callee (← Build.resolveCallee f.text)
    Build.call callee (← arguments.code)
  | _, callThrough callee arguments => do
    let pointer ← Build.toPointer (← callee.code)
    Build.call (.indirect pointer) (← arguments.code)
  | _, binary op l r => do
    let lhs ← l.code
    let rhs ← r.code
    op.apply lhs rhs
  | _, conditional c t e => do
    let group ← Build.fork "cond" (← c.code)
    let thenValue ← t.code
    let thenExit ← Build.leave group.last
    Build.switchTo group.second
    let elseValue ← e.code
    Build.join group.last thenValue thenExit elseValue
  | _, assign op p e => do
    let address ← Build.lvalue (equals op) (← p.code)
    Build.assign op address (← e.code)
  | _, name x => Build.resolve x.text
  | _, subscript base index => do
    let pointer ← Build.toPointer (← base.code)
    return Denotation.address (← Build.element pointer (← index.code))
  | _, dereference e => do return Denotation.address (← Build.toPointer (← e.code))
  | _, stepBefore k p => do
    let (_, address) ← Build.step k.op k.symbol (← p.code)
    return Denotation.address address
  | _, none => return ([] : List Operand)
  | _, cons e rest => do
    let value ← e.code
    return value :: (← rest.code)

end Tree

/-- The tokens spell the tree where the level is admitted. A part stands at the level that the table
of levels gives it; parentheses admit every level. -/
inductive Spelled {size : Nat} : {k : Kind} → Nat → Tree size k → List String → Prop
  | constant {level : Nat} (n : Numeral) : Spelled level (.constant n) [n.word.decimal]
  | octal {level : Nat} (n : Numeral) : Spelled level (.constant n) [n.octal]
  | character {level : Nat} (l : CharacterLiteral size) :
      Spelled level (.character l) [quoted l.letters]
  | string {level : Nat} (letters : List (Letter '"')) :
      Spelled level (.string letters) [quoted letters]
  | group {level : Nat} {e : Tree size .word} {tokens : List String} :
      Spelled fullLevel e tokens → Spelled level e ("(" :: tokens ++ [")"])
  | read {level : Nat} {signed : Bool} {p : Tree size (.place signed)} {tokens : List String} :
      Spelled level p tokens → Spelled level (.read p) tokens
  | addressOf {level : Nat} {signed : Bool} {p : Tree size (.place signed)}
      {tokens : List String} : 2 ≤ level → Spelled 2 p tokens →
      Spelled level (.addressOf p) ("&" :: tokens)
  | negate {level : Nat} {e : Tree size .word} {tokens : List String} : 2 ≤ level →
      Spelled 2 e tokens → Spelled level e.negate ("-" :: tokens)
  | not {level : Nat} {e : Tree size .word} {tokens : List String} : 2 ≤ level →
      Spelled 2 e tokens → Spelled level e.not ("!" :: tokens)
  | stepAfter {level : Nat} {p : Tree size (.place false)} {tokens : List String} (k : Count) :
      Spelled 1 p tokens → Spelled level (.stepAfter k p) (tokens ++ [k.symbol])
  | call {level : Nat} {arguments : Tree size .list} {tokens : List String} (f : Name) :
      Spelled fullLevel arguments tokens →
      Spelled level (.call f arguments) (f.text :: "(" :: tokens ++ [")"])
  /-- A callee that is only a name would be called by its name. -/
  | callThrough {level : Nat} {callee : Tree size .word} {arguments : Tree size .list}
      {tokens inner : List String} : Spelled 1 callee tokens → (∀ x : Name, tokens ≠ [x.text]) →
      Spelled fullLevel arguments inner →
      Spelled level (.callThrough callee arguments) (tokens ++ "(" :: inner ++ [")"])
  | binary {level : Nat} {l r : Tree size .word} {left right : List String} (op : Op) :
      op.level ≤ level → Spelled op.level l left → Spelled (op.level - 1) r right →
      Spelled level (.binary op l r) (left ++ op.symbol :: right)
  | conditional {level : Nat} {c t e : Tree size .word}
      {condition thenArm elseArm : List String} : conditionalLevel ≤ level →
      Spelled (conditionalLevel - 1) c condition → Spelled (conditionalLevel - 1) t thenArm →
      Spelled conditionalLevel e elseArm →
      Spelled level (.conditional c t e) (condition ++ "?" :: thenArm ++ ":" :: elseArm)
  | assign {level : Nat} {signed : Bool} {p : Tree size (.place signed)} {e : Tree size .word}
      {left right : List String} (op : Option Op) : assignmentLevel ≤ level →
      Spelled 2 p left → Spelled assignmentLevel e right →
      Spelled level (.assign op p e) (left ++ equals op :: right)
  | name {level : Nat} (x : Name) : Spelled level (.name x) [x.text]
  | subscript {level : Nat} {base index : Tree size .word} {tokens inner : List String} :
      Spelled 1 base tokens → Spelled fullLevel index inner →
      Spelled level (.subscript base index) (tokens ++ "[" :: inner ++ ["]"])
  | dereference {level : Nat} {e : Tree size .word} {tokens : List String} : 2 ≤ level →
      Spelled 2 e tokens → Spelled level e.dereference ("*" :: tokens)
  | stepBefore {level : Nat} {signed : Bool} {p : Tree size (.place signed)}
      {tokens : List String} (k : Count) : 2 ≤ level → Spelled 2 p tokens →
      Spelled level (.stepBefore k p) (k.symbol :: tokens)
  | none {level : Nat} : Spelled level .none []
  | one {level : Nat} {e : Tree size .word} {tokens : List String} :
      Spelled fullLevel e tokens → Spelled level (.cons e .none) tokens
  | more {level : Nat} {e next : Tree size .word} {rest : Tree size .list}
      {tokens others : List String} : Spelled fullLevel e tokens →
      Spelled level (.cons next rest) others →
      Spelled level (.cons e (.cons next rest)) (tokens ++ "," :: others)

namespace Tree

variable {size : Nat}

/-- The least level that admits the tree without parentheses. -/
def level : {k : Kind} → Tree size k → Nat
  | _, none | _, cons _ _ => 0
  | _, constant _ | _, character _ | _, string _ | _, stepAfter _ _ | _, call _ _
  | _, callThrough _ _ | _, name _ | _, subscript _ _ => 1
  | _, addressOf _ | _, negate _ | _, not _ | _, dereference _ | _, stepBefore _ _ => 2
  | _, read p => p.level
  | _, binary op _ _ => op.level
  | _, conditional _ _ _ => conditionalLevel
  | _, assign _ _ _ => assignmentLevel

/-- Whether the tree is the word of a name. -/
def isName : {k : Kind} → Tree size k → Bool
  | _, read (name _) => true
  | _, _ => false

/-- The tokens of a tree without parentheses around it, and inside it only where they are
needed. -/
def bare : {k : Kind} → Tree size k → List String
  | _, constant n => [n.word.decimal]
  | _, character l => [quoted l.letters]
  | _, string letters => [quoted letters]
  | _, read p => p.bare
  | _, addressOf p => "&" :: p.bare
  | _, negate e => "-" :: Expr.enclosed (2 < e.level) e.bare
  | _, not e => "!" :: Expr.enclosed (2 < e.level) e.bare
  | _, stepAfter k p => p.bare ++ [k.symbol]
  | _, call f arguments => f.text :: "(" :: arguments.bare ++ [")"]
  | _, callThrough callee arguments =>
    Expr.enclosed (1 < callee.level || callee.isName) callee.bare ++ "(" :: arguments.bare ++ [")"]
  | _, binary op l r =>
    Expr.enclosed (op.level < l.level) l.bare ++ op.symbol ::
      Expr.enclosed (op.level - 1 < r.level) r.bare
  | _, conditional c t e =>
    Expr.enclosed (conditionalLevel - 1 < c.level) c.bare ++ "?" ::
      Expr.enclosed (conditionalLevel - 1 < t.level) t.bare ++ ":" ::
      Expr.enclosed (conditionalLevel < e.level) e.bare
  | _, assign op p e => p.bare ++ equals op :: Expr.enclosed (assignmentLevel < e.level) e.bare
  | _, name x => [x.text]
  | _, subscript base index =>
    Expr.enclosed (1 < base.level) base.bare ++ "[" :: index.bare ++ ["]"]
  | _, dereference e => "*" :: Expr.enclosed (2 < e.level) e.bare
  | _, stepBefore k p => k.symbol :: p.bare
  | _, none => []
  | _, cons e none => e.bare
  | _, cons e rest => e.bare ++ "," :: rest.bare

theorem level_place {signed : Bool} (p : Tree size (.place signed)) :
    p.level = if signed then 2 else 1 := by
  cases p <;> rfl

theorem level_place_le {signed : Bool} (p : Tree size (.place signed)) : p.level ≤ 2 := by
  rw [level_place]
  cases signed <;> decide

theorem level_le {k : Kind} (e : Tree size k) : e.level ≤ fullLevel := by
  cases e with
  | read p => exact Nat.le_trans p.level_place_le (by decide)
  | binary op l r => exact Nat.le_trans (Nat.le_of_lt op.level_bounds.2) (by decide)
  | _ => exact Nat.le_of_ble_eq_true rfl

end Tree

theorem Begins.isName_eq_false {token : String} {first : Char} (h : Begins token first)
    (hf : isNameStart first = false) : isName token = false := by
  obtain ⟨rest, he, _⟩ := h
  rw [isName, he]
  exact Bool.and_eq_false_iff.mpr (.inl hf)

theorem ne_name_of_mem {tokens : List String} (token : String) (hm : token ∈ tokens)
    (h : isName token = false) (x : Name) : tokens ≠ [x.text] := by
  rintro rfl
  have hx := x.isName
  rw [← List.mem_singleton.mp hm, h] at hx
  cases hx

theorem Op.isName_symbol (op : Op) : isName op.symbol = false := by
  rcases op with op | op <;> cases op <;> rfl

theorem Count.isName_symbol (k : Count) : isName k.symbol = false := by
  cases k <;> rfl

theorem isName_quoted {quote : Char} (letters : List (Letter quote)) (hb : isBlank quote = false)
    (hq : quote ≠ '/') (hs : isNameStart quote = false) : isName (quoted letters) = false :=
  (begins_quoted letters hb hq).isName_eq_false hs

theorem isName_equals (op : Option Op) : isName (equals op) = false :=
  (Scan.begins_equals op).isName_eq_false rfl

namespace Tree

variable {size : Nat}

/-- Only a name is spelled as one. -/
theorem bare_ne_name {e : Tree size .word} (h : e.isName = false) (x : Name) :
    e.bare ≠ [x.text] := by
  cases e with
  | constant n =>
      obtain ⟨first, hb, hd⟩ := n.begins
      refine ne_name_of_mem _ (.head _) (hb.isName_eq_false ?_) x
      rw [Bool.eq_false_iff]
      intro hs
      rw [isDigit_eq_false_of_isNameStart hs] at hd
      cases hd
  | character l => exact ne_name_of_mem _ (.head _) (isName_quoted _ rfl (by decide) rfl) x
  | string letters => exact ne_name_of_mem _ (.head _) (isName_quoted _ rfl (by decide) rfl) x
  | read p =>
      cases p with
      | name y => cases h
      | subscript base index => exact ne_name_of_mem "[" (by simp [bare]) rfl x
      | dereference e => exact ne_name_of_mem "*" (.head _) rfl x
      | stepBefore k p => exact ne_name_of_mem k.symbol (.head _) k.isName_symbol x
  | addressOf p => exact ne_name_of_mem "&" (.head _) rfl x
  | negate e => exact ne_name_of_mem "-" (.head _) rfl x
  | not e => exact ne_name_of_mem "!" (.head _) rfl x
  | stepAfter k p => exact ne_name_of_mem k.symbol (by simp [bare]) k.isName_symbol x
  | call f arguments => exact ne_name_of_mem "(" (by simp [bare]) rfl x
  | callThrough callee arguments => exact ne_name_of_mem "(" (by simp [bare]) rfl x
  | binary op l r => exact ne_name_of_mem op.symbol (by simp [bare]) op.isName_symbol x
  | conditional c t e => exact ne_name_of_mem "?" (by simp [bare]) rfl x
  | assign op p e => exact ne_name_of_mem (equals op) (by simp [bare]) (isName_equals op) x

theorem enclosed_ne_name {e : Tree size .word} {needed : Bool}
    (h : needed = false → e.isName = false) (x : Name) :
    Expr.enclosed needed e.bare ≠ [x.text] := by
  cases needed with
  | true => exact ne_name_of_mem "(" (.head _) rfl x
  | false => exact bare_ne_name (h rfl) x

end Tree

namespace Spelled

variable {size : Nat} {e : Tree size .word}

theorem enclosed (h : ∀ level, e.level ≤ level → Spelled level e e.bare) {level : Nat}
    {needed : Bool} (hn : needed = false → e.level ≤ level) :
    Spelled level e (Expr.enclosed needed e.bare) := by
  cases needed with
  | true => exact .group (h fullLevel e.level_le)
  | false => exact h level (hn rfl)

theorem tokens (h : ∀ level, e.level ≤ level → Spelled level e e.bare) (level : Nat) :
    Spelled level e (Expr.enclosed (level < e.level) e.bare) :=
  enclosed h fun hn => Nat.le_of_not_lt (of_decide_eq_false hn)

end Spelled

/-- Every tree can be spelled with parentheses only where they are needed. -/
theorem Tree.spelled_bare {size : Nat} {k : Kind} (e : Tree size k) (level : Nat)
    (h : e.level ≤ level) : Spelled level e e.bare := by
  induction e generalizing level with
  | constant n => exact .constant n
  | character l => exact .character l
  | string letters => exact .string letters
  | read p ih => exact .read (ih level h)
  | addressOf p ih => exact .addressOf h (ih 2 p.level_place_le)
  | negate e ih => exact .negate h (.tokens ih 2)
  | not e ih => exact .not h (.tokens ih 2)
  | stepAfter k p ih => exact .stepAfter k (ih 1 (Nat.le_of_eq p.level_place))
  | call f arguments ih => exact .call f (ih fullLevel arguments.level_le)
  | callThrough callee arguments ihc iha =>
      refine .callThrough (.enclosed ihc fun hn => ?_) (enclosed_ne_name fun hn => ?_)
        (iha fullLevel arguments.level_le)
      · exact Nat.le_of_not_lt (of_decide_eq_false (Bool.or_eq_false_iff.mp hn).1)
      · exact (Bool.or_eq_false_iff.mp hn).2
  | binary op l r ihl ihr => exact .binary op h (.tokens ihl _) (.tokens ihr _)
  | conditional c t e ihc iht ihe =>
      exact .conditional h (.tokens ihc _) (.tokens iht _) (.tokens ihe _)
  | assign op p e ihp ihe =>
      exact .assign op h (ihp 2 p.level_place_le) (.tokens ihe _)
  | name x => exact .name x
  | subscript base index ihb ihi =>
      exact .subscript (.tokens ihb 1) (ihi fullLevel index.level_le)
  | dereference e ih => exact .dereference h (.tokens ih 2)
  | stepBefore k p ih => exact .stepBefore k h (ih 2 p.level_place_le)
  | none => exact .none
  | cons e rest ihe ihr =>
      cases rest with
      | none => exact .one (ihe fullLevel e.level_le)
      | cons next rest => exact .more (ihe fullLevel e.level_le) (ihr level (Nat.zero_le _))

end BCompiler
