import BCompiler.Grammar.Declaration
import BCompiler.Proofs.Source.Reader

/-!
Relations between steps that go through the grammar.

The grammar is made of readers and of steps that build, put together by binds. A relation between
steps that these keep to holds between any two bounds on the same construct, the greater one on the
right. So what does not depend on how a construct is nested is proved without another induction on
the grammar.
-/
namespace BCompiler

/-- The marks that the grammar looks for by themselves. -/
def marks : List Char := ['(', ')', '[', ']', '\x7d', ';', ':', ',']

/-- The readers that expressions and statements are made of. -/
inductive Token : {α : Type} → Scan α → Prop
  | connective (level : Nat) : Token (Scan.connective level)
  | sign : Token Scan.sign
  | suffix : Token Scan.suffix
  | atom : Token Scan.atom
  | accept {mark : Char} : mark ∈ marks → Token (Scan.accept mark)
  | expect {mark : Char} (place : String) : mark ∈ marks → Token (Scan.expect mark place)
  | another {close : Char} (place : String) : close ∈ marks → Token (Scan.another close place)
  | caseConstant : Token Scan.caseConstant
  | elseKeyword : Token (Scan.keyword "else")
  | someName (what : String) : Token (Scan.someName what)
  | autoItem : Token Scan.autoItem
  | arraySize : Token (Scan.arraySize Scan.number)

theorem Token.reader {α : Type} {step : Scan α} (h : Token step) : Reader step := by
  cases h with
  | connective level => exact .connective level
  | sign => exact .sign
  | suffix => exact .suffix
  | atom => exact .atom
  | accept _ => exact .accept _
  | expect place _ => exact .expect _ place
  | another place _ => exact .another _ place
  | caseConstant => exact .caseConstant
  | elseKeyword => exact .keyword (by decide)
  | someName what => exact .someName what
  | autoItem => exact .autoItem
  | arraySize => exact .arraySize

/-- The steps on a draft that expressions and statements are made of. -/
inductive Construction : {α : Type} → Build α → Prop
  | rvalue (a : Denotation) : Construction (Build.rvalue a)
  | apply (op : Op) (lhs rhs : Operand) : Construction (op.apply lhs rhs)
  | assign (op : Option Op) (address value : Operand) :
      Construction (Build.assign op address value)
  | choose (a : Denotation) : Construction (do Build.fork "cond" (← Build.rvalue a))
  | fork (construct : String) (word : Operand) : Construction (Build.fork construct word)
  | leave (last : BlockId) : Construction (Build.leave last)
  | switchTo (block : BlockId) : Construction (Build.switchTo block)
  | join (last : BlockId) (thenValue : Operand) (thenExit : BlockId) (elseValue : Operand) :
      Construction (Build.join last thenValue thenExit elseValue)
  | sign (sign : Sign) (a : Denotation) : Construction (sign.apply a)
  | base (a : Denotation) : Construction (Build.base a)
  | element (base index : Operand) : Construction (Build.element base index)
  | callee (a : Denotation) : Construction (Build.callee a)
  | call (callee : Callee) (arguments : List Operand) : Construction (Build.call callee arguments)
  | step (op : BinaryOp) (spelling : String) (a : Denotation) :
      Construction (Build.step op spelling a)
  | string (text : String) : Construction (Build.string text)
  | resolve (name : String) : Construction (Build.resolve name)
  | resolveCallee (name : String) : Construction (Build.resolveCallee name)
  | fallInto (target next : BlockId) : Construction (Build.fallInto target next)
  | enter (block : BlockId) : Construction (Build.enter block)
  | loop : Construction Build.loop
  | test (word : Operand) (group : BlockGroup) : Construction (Build.test word group)
  | select : Construction Build.select
  | settle (value : Operand) (cases : List (Word × BlockId)) (group : BlockGroup) :
      Construction (Build.settle value cases group)
  | caseBlock (group : Nat) (value : Word) : Construction (Build.caseBlock group value)
  | goto (name : String) : Construction (Build.goto name)
  | placeLabel (name : String) : Construction (Build.placeLabel name)
  | declareAuto (name : String) (size : Option Word) : Construction (Build.declareAuto name size)
  | bindExternal (name : String) : Construction (Build.bindExternal name)
  | ret (value : Operand) : Construction (Build.ret value)
  | finish : Construction Build.finish

/-- The steps on a draft that expressions are made of. -/
inductive Computation : {α : Type} → Build α → Prop
  | rvalue (a : Denotation) : Computation (Build.rvalue a)
  | apply (op : Op) (lhs rhs : Operand) : Computation (op.apply lhs rhs)
  | assign (op : Option Op) (address value : Operand) : Computation (Build.assign op address value)
  | choose (a : Denotation) : Computation (do Build.fork "cond" (← Build.rvalue a))
  | leave (last : BlockId) : Computation (Build.leave last)
  | switchTo (block : BlockId) : Computation (Build.switchTo block)
  | join (last : BlockId) (thenValue : Operand) (thenExit : BlockId) (elseValue : Operand) :
      Computation (Build.join last thenValue thenExit elseValue)
  | sign (sign : Sign) (a : Denotation) : Computation (sign.apply a)
  | base (a : Denotation) : Computation (Build.base a)
  | element (base index : Operand) : Computation (Build.element base index)
  | callee (a : Denotation) : Computation (Build.callee a)
  | call (callee : Callee) (arguments : List Operand) : Computation (Build.call callee arguments)
  | step (op : BinaryOp) (spelling : String) (a : Denotation) :
      Computation (Build.step op spelling a)
  | string (text : String) : Computation (Build.string text)
  | resolve (name : String) : Computation (Build.resolve name)
  | resolveCallee (name : String) : Computation (Build.resolveCallee name)

theorem Computation.construction {α : Type} {step : Build α} (h : Computation step) :
    Construction step := by
  cases h with
  | rvalue a => exact .rvalue a
  | apply op lhs rhs => exact .apply op lhs rhs
  | assign op address value => exact .assign op address value
  | choose a => exact .choose a
  | leave last => exact .leave last
  | switchTo block => exact .switchTo block
  | join last thenValue thenExit elseValue => exact .join last thenValue thenExit elseValue
  | sign sign a => exact .sign sign a
  | base a => exact .base a
  | element base index => exact .element base index
  | callee a => exact .callee a
  | call callee arguments => exact .call callee arguments
  | step op spelling a => exact .step op spelling a
  | string text => exact .string text
  | resolve name => exact .resolve name
  | resolveCallee name => exact .resolveCallee name

namespace Pass

variable {σ α : Type}

/-- A relation between steps that sequences of steps keep to. -/
structure Congruence (T : {α : Type} → Pass σ α → Pass σ α → Prop) : Prop where
  pure {α : Type} (a : α) : T (Pure.pure a) (Pure.pure a)
  throw {α : Type} {e : Error} : e.isCause →
    T (MonadExcept.throw e : Pass σ α) (MonadExcept.throw e)
  bind {α β : Type} {x y : Pass σ α} {f g : α → Pass σ β} :
    T x y → (∀ a, T (f a) (g a)) → T (x >>= f) (y >>= g)

/-- A property of a step, as a relation that asks nothing of the other step. -/
def Alone (P : {α : Type} → Pass σ α → Prop) {α : Type} (x _ : Pass σ α) : Prop := P x

/-- A construct that is nested too deep is in relation to any other. -/
def Deep (T : {α : Type} → Pass σ α → Pass σ α → Prop) : Prop :=
  ∀ {α : Type} (y : Pass σ α), T (throw (.internal .tooDeep)) y

namespace Congruence

variable {T : {α : Type} → Pass σ α → Pass σ α → Prop}

theorem items (h : Congruence T) (hdeep : Deep T) {close : Char} {place : String}
    (hanother : T (scan (Scan.another close place)) (scan (Scan.another close place)))
    {item item' : Pass σ α} (hitem : T item item') {d d' : Nat} (hd : d ≤ d') :
    T (items close place item d) (items close place item' d') := by
  induction d generalizing d' with
  | zero => exact hdeep _
  | succ d ih =>
      cases d' with
      | zero => cases hd
      | succ d' =>
          refine h.bind hitem fun a => h.bind hanother fun more => ?_
          cases more with
          | true => exact h.bind (ih (Nat.le_of_succ_le_succ hd)) fun _ => h.pure _
          | false => exact h.pure _

theorem anyItems (h : Congruence T) (hdeep : Deep T) {close : Char} {place : String}
    (haccept : T (scan (Scan.accept close)) (scan (Scan.accept close)))
    (hanother : T (scan (Scan.another close place)) (scan (Scan.another close place)))
    {item item' : Pass σ α} (hitem : T item item') {d d' : Nat} (hd : d ≤ d') :
    T (anyItems close place item d) (anyItems close place item' d') := by
  refine h.bind haccept fun none => ?_
  cases none with
  | true => exact h.pure _
  | false => exact h.items hdeep hanother hitem hd

end Congruence

/-- What a reader of tokens leaves of the text once it has succeeded. -/
theorem at_of_scan {step : Scan α} {before after : List String} {a b : α} {s t : Site σ}
    (hr : step.Reads before a after) (hs : s.cursor.At before) (h : scan step s = .ok b t) :
    b = a ∧ t.cursor.At after := by
  obtain ⟨c, hc, hat⟩ := hr s.cursor hs
  have hstep := (scan_eq_ok_iff.mp h).1
  rw [hc] at hstep
  cases hstep
  exact ⟨rfl, hat⟩

theorem at_of_build {step : EStateM Error σ α} {tokens : List String} {a : α} {s t : Site σ}
    (hs : s.cursor.At tokens) (h : build step s = .ok a t) : t.cursor.At tokens :=
  (build_eq_ok_iff.mp h).2 ▸ hs

section Stub

variable {s t : Site Draft} {d : Nat} {x : Name}

theorem primary_stub {a : Denotation} (hs : s.cursor.At [x.text]) (h : primary d s = .ok a t) :
    t.cursor.At [] := by
  cases d with
  | zero => cases throw_ne_ok h
  | succ d =>
      obtain ⟨atom, s₁, hatom, h⟩ := bind_eq_ok_iff.mp h
      obtain ⟨rfl, h₁⟩ := at_of_scan (Scan.atom_name x (Stops.done : Stops 0 []).uncalled) hs hatom
      exact at_of_build h₁ h

theorem suffixes_stub {a b : Denotation} (hs : s.cursor.At []) (h : suffixes d a s = .ok b t) :
    t.cursor.At [] := by
  cases d with
  | zero => cases throw_ne_ok h
  | succ d =>
      obtain ⟨suffix, s₁, hsuffix, h⟩ := bind_eq_ok_iff.mp h
      obtain ⟨rfl, h₁⟩ := at_of_scan (Scan.suffix_stops (.done : Stops 0 [])) hs hsuffix
      obtain ⟨_, rfl⟩ := pure_eq_ok_iff.mp h
      exact h₁

theorem unary_stub {a : Denotation} (hs : s.cursor.At [x.text]) (h : unary d s = .ok a t) :
    t.cursor.At [] := by
  cases d with
  | zero => cases throw_ne_ok h
  | succ d =>
      obtain ⟨sign, s₁, hsign, h⟩ := bind_eq_ok_iff.mp h
      obtain ⟨first, hb, hstart⟩ := x.begins
      have hnone : Scan.sign.Reads [x.text] none [x.text] := by
        refine Scan.sign_none hb fun hm => ?_
        simp only [List.mem_cons, List.not_mem_nil, or_false] at hm
        rcases hm with rfl | rfl | rfl | rfl | rfl <;> cases hstart
      obtain ⟨rfl, h₁⟩ := at_of_scan hnone hs hsign
      obtain ⟨b, s₂, hprimary, h⟩ := bind_eq_ok_iff.mp h
      exact suffixes_stub (primary_stub h₁ hprimary) h

theorem climb_stub {a : Denotation} {level : Nat} {v : Operand} (hs : s.cursor.At [])
    (h : climb d level a s = .ok v t) : t.cursor.At [] := by
  cases d with
  | zero => cases throw_ne_ok h
  | succ d =>
      obtain ⟨connective, s₁, hconnective, h⟩ := bind_eq_ok_iff.mp h
      obtain ⟨rfl, h₁⟩ := at_of_scan (Scan.connective_stops .done) hs hconnective
      exact at_of_build h₁ h

/-- A name that ends the text is no expression statement: nothing closes it. -/
theorem expressionStatement_stub {level : Nat} {e e' : Option Switch} (hs : s.cursor.At [x.text]) :
    (do let _ ← expressionAt d level
        scan (Scan.expect ';' "after expression statement")
        return e : Pass Draft (Option Switch)) s ≠ .ok e' t := by
  intro h
  obtain ⟨v, s₁, hexpression, h⟩ := bind_eq_ok_iff.mp h
  obtain ⟨_, s₂, hexpect, h⟩ := bind_eq_ok_iff.mp h
  have h₁ : s₁.cursor.At [] := by
    cases d with
    | zero => cases throw_ne_ok hexpression
    | succ d =>
        obtain ⟨a, s₁', hunary, hclimb⟩ := bind_eq_ok_iff.mp hexpression
        exact climb_stub (unary_stub hs hunary) hclimb
  obtain ⟨found, c, hread, hexpect⟩ := bind_eq_ok_iff.mp (scan_eq_ok_iff.mp hexpect).1
  obtain ⟨_, c₁, hb, hread⟩ := bind_eq_ok_iff.mp hread
  obtain ⟨hb', hempty⟩ := Scan.blanks_nil s₁.cursor h₁
  cases hb'.symm.trans hb
  rw [Scan.read, hempty] at hread
  cases hread
  cases throw_ne_ok hexpect

end Stub

/-- A relation between steps that the grammar of expressions keeps to. -/
structure Expressive (T : {α : Type} → Pass Draft α → Pass Draft α → Prop) : Prop
    extends Congruence T where
  token {α : Type} {step : Scan α} : Token step → T (scan step) (scan step)
  compute {α : Type} {step : Build α} : Computation step → T (build step) (build step)

namespace Expressive

variable {T : {α : Type} → Pass Draft α → Pass Draft α → Prop}

theorem assign (h : Expressive T) {right right' : Pass Draft Operand} (hr : T right right')
    (op : Option Op) (a : Denotation) : T (assign right op a) (assign right' op a) := by
  cases a with
  | word value => exact h.throw rfl
  | function name => exact h.throw rfl
  | address address => exact h.bind hr fun value => h.compute (.assign op address value)

theorem conditional (h : Expressive T) {thenArm thenArm' elseArm elseArm' : Pass Draft Operand}
    (ht : T thenArm thenArm') (he : T elseArm elseArm') (a : Denotation) :
    T (conditional thenArm elseArm a) (conditional thenArm' elseArm' a) := by
  refine h.bind (h.compute (.choose a)) fun group => h.bind ht fun thenValue => ?_
  refine h.bind (h.compute (.leave group.last)) fun thenExit => ?_
  refine h.bind (h.token (.expect _ (by decide))) fun _ => ?_
  refine h.bind (h.compute (.switchTo group.second)) fun _ => h.bind he fun elseValue => ?_
  exact h.compute (.join group.last thenValue thenExit elseValue)

/-- The five levels of the grammar of expressions together, by induction on the lesser bound. -/
theorem expressions (h : Expressive T) (hdeep : Deep T) {d d' : Nat} (hd : d ≤ d') :
    (∀ level, T (expressionAt d level) (expressionAt d' level)) ∧
    (∀ level a, T (climb d level a) (climb d' level a)) ∧
    T (unary d) (unary d') ∧ (∀ a, T (suffixes d a) (suffixes d' a)) ∧
    T (primary d) (primary d') := by
  induction d generalizing d' with
  | zero =>
      exact ⟨fun _ => hdeep _, fun _ _ => hdeep _, hdeep _, fun _ => hdeep _, hdeep _⟩
  | succ d ih =>
      cases d' with
      | zero => cases hd
      | succ d' =>
          obtain ⟨hexpr, hclimb, hunary, hsuffixes, hprimary⟩ := ih (Nat.le_of_succ_le_succ hd)
          refine ⟨?_, ?_, ?_, ?_, ?_⟩
          · intro level
            exact h.bind hunary fun a => hclimb level a
          · intro level a
            refine h.bind (h.token (.connective level)) fun connective => ?_
            rcases connective with _ | op | _ | op
            · exact h.compute (.rvalue a)
            · refine h.bind (h.compute (.rvalue a)) fun lhs => h.bind (hexpr _) fun rhs => ?_
              exact h.bind (h.compute (.apply op lhs rhs)) fun value => hclimb level (.word value)
            · exact h.conditional (hexpr _) (hexpr _) a
            · exact h.assign (hexpr _) op a
          · refine h.bind (h.token .sign) fun sign => ?_
            cases sign with
            | some sign => exact h.bind hunary fun a => h.compute (.sign sign a)
            | none => exact h.bind hprimary fun a => hsuffixes a
          · intro a
            refine h.bind (h.token .suffix) fun suffix => ?_
            rcases suffix with _ | _ | _ | _ | _
            · exact h.pure a
            · refine h.bind (h.compute (.base a)) fun base => h.bind (hexpr _) fun index => ?_
              refine h.bind (h.token (.expect _ (by decide))) fun _ => ?_
              exact h.bind (h.compute (.element base index)) fun address => hsuffixes _
            · refine h.bind (h.compute (.callee a)) fun callee => ?_
              refine h.bind (h.anyItems hdeep (h.token (.accept (by decide)))
                (h.token (.another _ (by decide))) (hexpr _) (Nat.le_of_succ_le_succ hd)) ?_
              exact fun arguments =>
                h.bind (h.compute (.call callee arguments)) fun value => hsuffixes _
            · exact h.bind (h.compute (.step .add "++" a)) fun r => hsuffixes _
            · exact h.bind (h.compute (.step .sub "--" a)) fun r => hsuffixes _
          · refine h.bind (h.token .atom) fun atom => ?_
            rcases atom with value | text | _ | ⟨name, called⟩
            · exact h.pure _
            · exact h.bind (h.compute (.string text)) fun _ => h.pure _
            · refine h.bind (hexpr _) fun value => ?_
              exact h.bind (h.token (.expect _ (by decide))) fun _ => h.pure _
            · cases called with
              | true => exact h.compute (.resolveCallee name)
              | false => exact h.compute (.resolve name)

end Expressive

/-- A relation between steps that the grammar of statements keeps to. -/
structure Grammatical (T : {α : Type} → Pass Draft α → Pass Draft α → Prop) : Prop
    extends Congruence T where
  token {α : Type} {step : Scan α} : Token step → T (scan step) (scan step)
  build {α : Type} {step : Build α} : Construction step → T (build step) (build step)
  labelled {body body' : Body} (e : Option Switch) :
    T (body e) (body' e) → T (labelled body e) (labelled body' e)
  ret {value value' : Pass Draft Operand} : T value value' → T (ret value) (ret value')
  /-- Another statement, unless the block is closed or the text ends. -/
  another {α : Type} {a : α} {e : Error} {x y : Pass Draft α} : e.isCause → T x y →
    T (do if ← scan (Scan.accept '\x7d') then return a
          else if ← scan Scan.atEnd then MonadExcept.throw e else x)
      (do if ← scan (Scan.accept '\x7d') then return a
          else if ← scan Scan.atEnd then MonadExcept.throw e else y)
  /-- A statement by its form. No expression statement is only a name. -/
  head {α : Type} {f g : StatementHead → Pass Draft α} : (∀ head, T (f head) (g head)) →
    (∀ (x : Name) s a t, s.cursor.At [x.text] → f .expression s ≠ .ok a t) →
    T (scan Scan.statementHead >>= f) (scan Scan.statementHead >>= g)

namespace Grammatical

variable {T : {α : Type} → Pass Draft α → Pass Draft α → Prop}

theorem expressive (h : Grammatical T) : Expressive T :=
  { h with compute := fun hc => h.build hc.construction }

/-- A step that leaves the enclosing switch alone. -/
theorem beside (h : Grammatical T) {α : Type} {x y : Pass Draft α} (hx : T x y)
    (e : Option Switch) :
    T (do let _ ← x; return e : Pass Draft (Option Switch)) (do let _ ← y; return e) :=
  h.bind hx fun _ => h.pure e

theorem ifElse (h : Grammatical T) {condition condition' : Pass Draft Operand} {body body' : Body}
    (hc : T condition condition') (hb : ∀ e, T (body e) (body' e)) (e : Option Switch) :
    T (ifElse condition body e) (ifElse condition' body' e) := by
  refine h.bind (h.token (.expect _ (by decide))) fun _ => h.bind hc fun word => ?_
  refine h.bind (h.token (.expect _ (by decide))) fun _ => ?_
  refine h.bind (h.build (.fork "if" word)) fun group => h.bind (hb e) fun e₁ => ?_
  refine h.bind (h.build (.fallInto group.last group.second)) fun _ => ?_
  have helse : T (elsePart body e₁) (elsePart body' e₁) := by
    refine h.bind (h.token .elseKeyword) fun found => ?_
    cases found with
    | true => exact hb e₁
    | false => exact h.pure e₁
  exact h.bind helse fun e₂ => h.bind (h.build (.enter group.last)) fun _ => h.pure e₂

theorem whileLoop (h : Grammatical T) {condition condition' : Pass Draft Operand}
    {body body' : Body} (hc : T condition condition') (hb : ∀ e, T (body e) (body' e))
    (e : Option Switch) : T (whileLoop condition body e) (whileLoop condition' body' e) := by
  refine h.bind (h.build .loop) fun group => ?_
  refine h.bind (h.token (.expect _ (by decide))) fun _ => h.bind hc fun word => ?_
  refine h.bind (h.token (.expect _ (by decide))) fun _ => ?_
  refine h.bind (h.build (.test word group)) fun _ => h.bind (hb e) fun e₁ => ?_
  exact h.bind (h.build (.fallInto group.first group.last)) fun _ => h.pure e₁

theorem switch (h : Grammatical T) {value value' : Pass Draft Operand} {body body' : Body}
    (hv : T value value') (hb : ∀ e, T (body e) (body' e)) :
    T (switch value body) (switch value' body') := by
  refine h.bind hv fun word => h.bind (h.build .select) fun group => ?_
  exact h.bind (hb _) fun inner => h.build (.settle word _ group)

theorem case (h : Grammatical T) {body body' : Body} (hb : ∀ e, T (body e) (body' e))
    (e : Option Switch) : T (case body e) (case body' e) := by
  cases e with
  | none => exact h.throw rfl
  | some enclosing =>
      refine h.bind (h.token .caseConstant) fun value => ?_
      split
      · exact h.throw rfl
      · exact h.bind (h.build (.caseBlock enclosing.group value)) fun block =>
          h.labelled _ (hb _)

theorem label (h : Grammatical T) (name : String) {body body' : Body}
    (hb : ∀ e, T (body e) (body' e)) (e : Option Switch) :
    T (label name body e) (label name body' e) :=
  h.bind (h.build (.placeLabel name)) fun _ => h.labelled e (hb e)

theorem goto (h : Grammatical T) : T goto goto := by
  refine h.bind (h.token (.someName _)) fun name => h.bind (h.build (.goto name)) fun _ => ?_
  exact h.token (.expect _ (by decide))

theorem auto (h : Grammatical T) : T auto auto :=
  h.bind (h.token .autoItem) fun item => h.build (.declareAuto item.1 item.2)

theorem extrn (h : Grammatical T) : T extrn extrn :=
  h.bind (h.token (.someName _)) fun name => h.build (.bindExternal name)

/-- A statement and the statements of a block together, by induction on the lesser bound. -/
theorem statements (h : Grammatical T) (hdeep : Deep T) {d d' : Nat} (hd : d ≤ d') :
    (∀ e, T (statementAt d e) (statementAt d' e)) ∧ ∀ e, T (statements d e) (statements d' e) := by
  induction d generalizing d' with
  | zero => exact ⟨fun _ => hdeep _, fun _ => hdeep _⟩
  | succ d ih =>
      cases d' with
      | zero => cases hd
      | succ d' =>
          have hd := Nat.le_of_succ_le_succ hd
          obtain ⟨hstatement, hstatements⟩ := ih hd
          have hvalue := (h.expressive.expressions hdeep hd).1 fullLevel
          constructor
          · intro e
            refine h.head (fun head => ?_) fun _ _ _ _ hs => expressionStatement_stub hs
            cases head with
            | compound => exact hstatements e
            | empty => exact h.pure e
            | ifElse => exact h.ifElse hvalue hstatement e
            | whileLoop => exact h.whileLoop hvalue hstatement e
            | case => exact h.case hstatement e
            | label name => exact h.label name hstatement e
            | switch => exact h.beside (h.switch hvalue hstatement) e
            | goto => exact h.beside h.goto e
            | auto => exact h.beside (h.items hdeep (h.token (.another _ (by decide))) h.auto hd) e
            | extrn =>
                exact h.beside (h.items hdeep (h.token (.another _ (by decide))) h.extrn hd) e
            | ret => exact h.beside (h.ret hvalue) e
            | expression =>
                refine h.bind hvalue fun _ => ?_
                exact h.bind (h.token (.expect _ (by decide))) fun _ => h.pure e
          · exact fun e => h.another rfl (h.bind (hstatement e) fun e₁ => hstatements e₁)

/-- A relation that keeps to all readers need not know where the text ends. -/
theorem of_readers (h : Congruence T)
    (hr : ∀ {α : Type} {step : Scan α}, Reader step → T (scan step) (scan step))
    (hb : ∀ {α : Type} {step : Build α}, Construction step →
      T (Pass.build step) (Pass.build step)) : Grammatical T where
  toCongruence := h
  token ht := hr ht.reader
  build := hb
  labelled e hbody := by
    refine h.bind (hr .peekMark) fun mark => ?_
    split
    · exact h.pure e
    · exact hbody
  ret hvalue := by
    refine h.bind (hr .readMark) fun found => ?_
    split
    · exact hb (.ret _)
    · refine h.bind hvalue fun word => h.bind (hr (.expect _ _)) fun _ => ?_
      exact h.bind (hr (.expect _ _)) fun _ => hb (.ret word)
    · exact h.throw rfl
  another he hx := by
    refine h.bind (hr (.accept _)) fun closed => ?_
    cases closed with
    | true => exact h.pure _
    | false =>
        refine h.bind (hr .atEnd) fun ended => ?_
        cases ended with
        | true => exact h.throw he
        | false => exact hx
  head hf _ := h.bind (hr .statementHead) hf

end Grammatical

/-- A relation between steps that a declaration keeps to. -/
structure Declarative (U : {α : Type} → Pass Program α → Pass Program α → Prop) : Prop
    extends Congruence U where
  size : U (scan (Scan.arraySize Scan.number)) (scan (Scan.arraySize Scan.number))
  initializers : U initializers initializers
  parameters : U parameters parameters
  array (name : String) (size : UInt64) (values : List Constant) :
    U (update (Program.declareArray name size values))
      (update (Program.declareArray name size values))
  scalar (name : String) (values : List Constant) :
    U (update (Program.declareScalar name values)) (update (Program.declareScalar name values))
  drafted (name : String) (params : List String) :
    U (drafted name params functionBody) (drafted name params functionBody)
  /-- What comes after a name tells what it declares. -/
  form {x y z : Pass Program Unit} : U x x → U y y → U z z →
    U (do match ← scan Scan.peekMark with
          | some '(' => let _ ← scan Scan.read; x
          | some '[' => let _ ← scan Scan.read; y
          | _ => z)
      (do match ← scan Scan.peekMark with
          | some '(' => let _ ← scan Scan.read; x
          | some '[' => let _ ← scan Scan.read; y
          | _ => z)

namespace Declarative

variable {U : {α : Type} → Pass Program α → Pass Program α → Prop}

theorem declaration (h : Declarative U) (name : String) :
    U (declaration name) (declaration name) := by
  refine h.form ?_ ?_ ?_
  · exact h.bind h.parameters fun params => h.drafted name params
  · refine h.bind h.size fun size => h.bind h.initializers fun values => ?_
    exact h.array name size.count values
  · exact h.bind h.initializers fun values => h.scalar name values

theorem initializer (h : Congruence U)
    (hr : ∀ {α : Type} {step : Scan α}, Reader step → U (scan step) (scan step))
    (hstring : ∀ text, U (addString text) (addString text)) : U initializer initializer := by
  refine h.bind (hr .constant?) fun found => ?_
  cases found with
  | some value => exact h.pure _
  | none =>
      refine h.bind (hr .peek) fun next => ?_
      split
      · exact h.bind (hr .name) fun name => h.throw rfl
      · refine h.bind (hr .read) fun mark => ?_
        split
        · refine h.bind (hr .string) fun text => h.bind (hstring text) fun name => ?_
          exact h.pure _
        · exact h.bind (hr .number) fun value => h.pure _
        · exact h.throw rfl

/-- A relation that keeps to all readers, and to lists of what it keeps to. -/
theorem of_readers (h : Congruence U)
    (hr : ∀ {α : Type} {step : Scan α}, Reader step → U (scan step) (scan step))
    (hitems : ∀ {α : Type} {close : Char} {place : String} {item : Pass Program α}, U item item →
      U (bounded (anyItems close place item)) (bounded (anyItems close place item)))
    (hstring : ∀ text, U (addString text) (addString text))
    (harray : ∀ name size values, U (update (Program.declareArray name size values))
      (update (Program.declareArray name size values)))
    (hscalar : ∀ name values, U (update (Program.declareScalar name values))
      (update (Program.declareScalar name values)))
    (hdrafted : ∀ name params, U (Pass.drafted name params functionBody)
      (Pass.drafted name params functionBody)) : Declarative U where
  toCongruence := h
  size := hr .arraySize
  initializers := hitems (initializer h hr hstring)
  parameters := hitems (hr (.someName _))
  array := harray
  scalar := hscalar
  drafted := hdrafted
  form hx hy hz := by
    refine h.bind (hr .peekMark) fun mark => ?_
    split
    · exact h.bind (hr .read) fun _ => hx
    · exact h.bind (hr .read) fun _ => hy
    · exact hz

/-- One declaration after the other, by induction on the lesser bound. -/
theorem declarationsAt (h : Declarative U) (hdeep : Deep U)
    (hr : ∀ {α : Type} {step : Scan α}, Reader step → U (scan step) (scan step))
    (hclear : U (update fun p => .ok p.clearScope) (update fun p => .ok p.clearScope))
    {d d' : Nat} (hd : d ≤ d') : U (declarationsAt d) (declarationsAt d') := by
  induction d generalizing d' with
  | zero => exact hdeep _
  | succ d ih =>
      cases d' with
      | zero => cases hd
      | succ d' =>
          refine h.bind (hr .name) fun name => ?_
          split
          · refine h.bind (hr .peek) fun next => ?_
            cases next with
            | none => exact h.pure ()
            | some c => exact h.throw rfl
          · refine h.bind (h.declaration name) fun _ => h.bind hclear fun _ => ?_
            exact ih (Nat.le_of_succ_le_succ hd)

end Declarative
end Pass
end BCompiler
