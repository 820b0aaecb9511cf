import BCompiler.Grammar.Statement
import BCompiler.Proofs.Phrase.Term

/-!
Statements as they are written.

A statement is a tree whose tokens put braces around a part only where its text would be read
otherwise: an arm that would take the next `else` for its own, a label that has no statement behind
it and is not the last thing in a block, and an expression behind the value of a switch. The code of
a statement is built part by part, and hands on the innermost enclosing switch with its cases so
far.
-/
namespace BCompiler

/-- Where a statement stands: alone, in front of the rest of a block, behind a label, or as the
other arm of a conditional statement. -/
inductive Shape where
  | single
  | block
  | labelled
  | alternative
  deriving DecidableEq, Repr

/-- A name in an auto declaration. -/
inductive AutoItem (size : Nat) where
  | scalar (x : Name)
  | array (x : Name) (length : Option (Literal size))

inductive Statement (size : Nat) : Shape → Type
  | null : Statement size .single
  | expression (t : Term size (.level fullLevel)) (h : t.isPlain) : Statement size .single
  | compound (body : Statement size .block) : Statement size .single
  | ifElse (c : Term size (.level fullLevel)) (t : Statement size .single)
      (e : Statement size .alternative) : Statement size .single
  | whileLoop (c : Term size (.level fullLevel)) (body : Statement size .single) :
      Statement size .single
  | switch (value : Term size (.level fullLevel)) (body : Statement size .single) :
      Statement size .single
  | case (value : Literal size) (body : Statement size .labelled) : Statement size .single
  | label (x : Name) (h : x.isPlain) (body : Statement size .labelled) : Statement size .single
  | goto (x : Name) : Statement size .single
  | auto (item : AutoItem size) (items : List (AutoItem size)) : Statement size .single
  | extrn (x : Name) (xs : List Name) : Statement size .single
  | ret (value : Option (Term size (.level fullLevel))) : Statement size .single
  /-- The end of a block. -/
  | done : Statement size .block
  | cons (s : Statement size .single) (rest : Statement size .block) : Statement size .block
  /-- No statement behind a label. -/
  | nothing : Statement size .labelled
  | stated (s : Statement size .single) : Statement size .labelled
  | noElse : Statement size .alternative
  | otherwise (s : Statement size .single) : Statement size .alternative

namespace AutoItem

variable {size : Nat}

def tokens : AutoItem size → List String
  | scalar x => [x.text]
  | array x none => [x.text, "[", "]"]
  | array x (some length) => [x.text, "[", length.token, "]"]

/-- The name, with the size of an array; no size counts as zero. -/
def entry : AutoItem size → String × Option Word
  | scalar x => (x.text, none)
  | array x length => (x.text, some ((length.map Literal.word).getD 0))

def declare (item : AutoItem size) : Build Unit := Build.declareAuto item.entry.1 item.entry.2

end AutoItem

/-- Items with commas between them. -/
def separated {α : Type} (tokens : α → List String) (a : α) : List α → List String
  | [] => tokens a
  | b :: rest => tokens a ++ "," :: separated tokens b rest

/-- Tokens with braces around them where they are needed. -/
def fenced (needed : Bool) (tokens : List String) : List String :=
  if needed then "\x7b" :: tokens ++ ["\x7d"] else tokens

theorem length_le_fenced (needed : Bool) (tokens : List String) :
    tokens.length ≤ (fenced needed tokens).length := by
  unfold fenced
  split
  · simp only [List.length_append, List.length_cons]
    omega
  · exact Nat.le_refl _

namespace Statement

variable {size : Nat}

/-- Whether no statement stands here. -/
def isEmpty : {f : Shape} → Statement size f → Bool
  | _, done | _, nothing | _, noElse => true
  | _, _ => false

def isExpression : {f : Shape} → Statement size f → Bool
  | _, expression _ _ => true
  | _, _ => false

/-- Whether the text ends with a label, behind which a block must end. -/
def endsBare : {f : Shape} → Statement size f → Bool
  | _, ifElse _ t e => if e.isEmpty then t.endsBare else e.endsBare
  | _, whileLoop _ b | _, switch _ b | _, case _ b | _, label _ _ b | _, stated b
  | _, otherwise b => b.endsBare
  | _, nothing => true
  | _, _ => false

/-- Whether the text would take an `else` behind it for its own. -/
def endsOpen : {f : Shape} → Statement size f → Bool
  | _, ifElse _ _ e => e.endsOpen
  | _, whileLoop _ b | _, switch _ b | _, case _ b | _, label _ _ b | _, stated b
  | _, otherwise b => b.endsOpen
  | _, noElse => true
  | _, _ => false

def tokens : {f : Shape} → Statement size f → List String
  | _, null => [";"]
  | _, expression t _ => t.tokens ++ [";"]
  | _, compound body => "\x7b" :: body.tokens
  | _, ifElse c t e =>
    "if" :: "(" :: c.tokens ++
      ")" :: fenced (!e.isEmpty && (t.endsBare || t.endsOpen)) t.tokens ++ e.tokens
  | _, whileLoop c body => "while" :: "(" :: c.tokens ++ ")" :: body.tokens
  | _, switch value body => "switch" :: value.tokens ++ fenced body.isExpression body.tokens
  | _, case value body => "case" :: value.token :: ":" :: body.tokens
  | _, label x _ body => x.text :: ":" :: body.tokens
  | _, goto x => ["goto", x.text, ";"]
  | _, auto item items => "auto" :: separated AutoItem.tokens item items ++ [";"]
  | _, extrn x xs => "extrn" :: separated (fun x => [x.text]) x xs ++ [";"]
  | _, ret none => ["return", ";"]
  | _, ret (some t) => "return" :: "(" :: t.tokens ++ [")", ";"]
  | _, done => ["\x7d"]
  | _, cons s rest => fenced (s.endsBare && !rest.isEmpty) s.tokens ++ rest.tokens
  | _, nothing | _, noElse => []
  | _, stated s => s.tokens
  | _, otherwise s => "else" :: s.tokens

/-- Only what may be left out has no tokens. -/
theorem length_tokens_pos {f : Shape} (t : Statement size f) (hf : f = .single ∨ f = .block) :
    0 < t.tokens.length := by
  induction t with
  | nothing | stated | noElse | otherwise => simp at hf
  | ret value => cases value <;> simp [tokens]
  | cons s rest _ ih =>
      rw [tokens, List.length_append]
      exact Nat.add_pos_right _ (ih (.inr rfl))
  | _ => simp [tokens]

/-- The text of a statement that stands alone. -/
def text (t : Statement size .single) : String :=
  " ".intercalate (fenced t.endsBare t.tokens)

/-- The code of a statement inside the innermost enclosing switch, if any; gives that switch with
the cases of the statement. -/
def emit : {f : Shape} → Statement size f → Option Switch → Build (Option Switch)
  | _, null, enclosing | _, done, enclosing | _, nothing, enclosing | _, noElse, enclosing =>
    return enclosing
  | _, expression t _, enclosing => do
    let _ ← t.value
    return enclosing
  | _, compound b, enclosing | _, stated b, enclosing | _, otherwise b, enclosing =>
    b.emit enclosing
  | _, ifElse c t e, enclosing => do
    let group ← Build.fork "if" (← c.value)
    let enclosing ← t.emit enclosing
    Build.fallInto group.last group.second
    let enclosing ← e.emit enclosing
    Build.enter group.last
    return enclosing
  | _, whileLoop c b, enclosing => do
    let group ← Build.loop
    let word ← c.value
    Build.test word group
    let enclosing ← b.emit enclosing
    Build.fallInto group.first group.last
    return enclosing
  | _, switch value b, enclosing => do
    let word ← value.value
    let group ← Build.select
    let inner ← b.emit (some ⟨group.number, []⟩)
    Build.settle word ((inner.map Switch.cases).getD []) group
    return enclosing
  | _, case _ _, none => throw .caseOutsideSwitch
  | _, case value b, some enclosing =>
    if enclosing.cases.any fun arm => arm.1 == value.word then
      throw (.duplicateCase value.word)
    else do
      let block ← Build.caseBlock enclosing.group value.word
      b.emit (some { enclosing with cases := enclosing.cases ++ [(value.word, block)] })
  | _, label x _ b, enclosing => do
    Build.placeLabel x.text
    b.emit enclosing
  | _, goto x, enclosing => do
    Build.goto x.text
    return enclosing
  | _, auto item items, enclosing => do
    let _ ← (item :: items).mapM AutoItem.declare
    return enclosing
  | _, extrn x xs, enclosing => do
    let _ ← (x :: xs).mapM fun x => Build.bindExternal x.text
    return enclosing
  | _, ret none, enclosing => do
    Build.ret (.const 0)
    return enclosing
  | _, ret (some t), enclosing => do
    Build.ret (← t.value)
    return enclosing
  | _, cons s rest, enclosing => do
    let enclosing ← s.emit enclosing
    rest.emit enclosing

/-- The cases whose innermost enclosing switch is the one around the statement, in the order of the
text, with the statements behind them. -/
def ownCases : {f : Shape} → Statement size f → List (Literal size × Statement size .labelled)
  | _, case value b => (value, b) :: b.ownCases
  | _, compound b | _, whileLoop _ b | _, label _ _ b | _, stated b | _, otherwise b => b.ownCases
  | _, ifElse _ t e => t.ownCases ++ e.ownCases
  | _, cons s rest => s.ownCases ++ rest.ownCases
  | _, _ => []

/-- The values of those cases. -/
def labels {f : Shape} (t : Statement size f) : List Word := t.ownCases.map fun c => c.1.word

/-- All switches in the order of the text: their values and bodies. -/
def switches : {f : Shape} → Statement size f →
    List (Term size (.level fullLevel) × Statement size .single)
  | _, switch value b => (value, b) :: b.switches
  | _, compound b | _, whileLoop _ b | _, case _ b | _, label _ _ b | _, stated b
  | _, otherwise b => b.switches
  | _, ifElse _ t e => t.switches ++ e.switches
  | _, cons s rest => s.switches ++ rest.switches
  | _, _ => []

end Statement
end BCompiler
