import BCompiler.Proofs.Expression.Parse
import BCompiler.Proofs.Phrase.Compile
import BCompiler.Proofs.Statement.Tree

/-!
Reading the text of statements.

Statements are a block of the whole language, with the same text and the same code, so their text is
read as that of the block. The bodies of conditional statements and loops are blocks themselves, and
no other braces are needed.
-/
namespace BCompiler

/-- Names with commas between them and a mark behind them. -/
def listed (close : String) (x : Name) : List Name → List String
  | [] => [x.text, close]
  | y :: ys => x.text :: "," :: listed close y ys

theorem listed_eq (close : String) (x : Name) (xs : List Name) :
    listed close x xs = separated (fun x => [x.text]) x xs ++ [close] := by
  induction xs generalizing x with
  | nil => rfl
  | cons y ys ih =>
      rw [listed, ih, separated, List.append_assoc]
      rfl

namespace Statement

variable {size : Nat}

/-- The block has the tokens, with the brace that ends it, and does what the code does. -/
structure Writes (t : Statement size .block) (tokens : List String) (code : Build Unit) : Prop where
  tokens : t.tokens = tokens ++ ["\x7d"]
  emit : ∀ enclosing, t.emit enclosing = do code; return enclosing

namespace Writes

variable {t b : Statement size .block} {u : Statement size .single} {tokens : List String}
  {code : Build Unit}

theorem congr {tokens' : List String} {code' : Build Unit} (h : t.Writes tokens code)
    (ht : tokens' = tokens) (hc : code' = code) : t.Writes tokens' code' := by
  rwa [ht, hc]

theorem done : (done : Statement size .block).Writes [] (return) := ⟨rfl, fun _ => rfl⟩

theorem cons (h : t.Writes tokens code) (act : Build Unit) (hbare : u.endsBare = false)
    (hu : ∀ enclosing, u.emit enclosing = do act; return enclosing) :
    (cons u t).Writes (u.tokens ++ tokens) (do act; code) := by
  refine ⟨?_, fun enclosing => ?_⟩
  · rw [Statement.tokens, h.tokens, hbare, Bool.false_and, fenced, if_neg Bool.false_ne_true,
      List.append_assoc]
  · simp only [Statement.emit, hu, h.emit, bind_assoc, pure_bind]

theorem tokens_compound (h : b.Writes tokens code) :
    (compound b).tokens = Statements.braced tokens := by
  rw [Statement.tokens, h.tokens]
  rfl

end Writes
end Statement

namespace Statements

open Statement (Writes)

variable {size : Nat}

/-- Every variable has a name that begins no statement. -/
def IsPlain (s : Statements) : Prop := ∀ x ∈ s.names, x.isPlain

/-- Statements are a block. -/
theorem exists_block (size : Nat) {s : Statements} (hp : s.IsPlain) :
    ∃ t : Statement size .block, t.Writes s.tokens s.emit := by
  induction s with
  | done => exact ⟨.done, .done⟩
  | null s ih =>
      obtain ⟨t, ht⟩ := ih hp
      exact ⟨.cons .null t, ht.cons (pure ()) rfl fun _ => rfl⟩
  | expression e s ih =>
      obtain ⟨he, hs⟩ := List.forall_mem_append.mp hp
      obtain ⟨t, ht⟩ := ih hs
      obtain ⟨v, hv, hvalue, hplain⟩ := e.exists_term size
      refine ⟨.cons (.expression v (hplain he)) t,
        (ht.cons (do let _ ← e.value) rfl fun enclosing => ?_).congr ?_ ?_⟩
      · simp only [Statement.emit, hvalue, bind_assoc, pure_bind]
      · simp only [tokens, Statement.tokens, hv, List.append_assoc, List.cons_append,
          List.nil_append]
      · simp only [emit, bind_assoc, pure_bind]
  | compound body s ihb ihs =>
      obtain ⟨hb, hs⟩ := List.forall_mem_append.mp hp
      obtain ⟨b, hb⟩ := ihb hb
      obtain ⟨t, ht⟩ := ihs hs
      refine ⟨.cons (.compound b) t, (ht.cons body.emit rfl hb.emit).congr ?_ rfl⟩
      rw [hb.tokens_compound]
      rfl
  | ifThen c body s ihb ihs =>
      obtain ⟨hp', hs⟩ := List.forall_mem_append.mp hp
      obtain ⟨_, hb⟩ := List.forall_mem_append.mp hp'
      obtain ⟨b, hb⟩ := ihb hb
      obtain ⟨t, ht⟩ := ihs hs
      obtain ⟨v, hv, hvalue, _⟩ := c.exists_term size
      refine ⟨.cons (.ifElse v (.compound b) .noElse) t, (ht.cons (do
          let group ← Build.fork "if" (← c.value)
          body.emit
          Build.fallInto group.last group.second
          Build.enter group.last) rfl fun enclosing => ?_).congr ?_ ?_⟩
      · simp only [Statement.emit, hvalue, hb.emit, bind_assoc, pure_bind]
      · have harm : (Statement.ifElse v (.compound b) .noElse).tokens =
            "if" :: "(" :: v.tokens ++ ")" :: (Statement.compound b).tokens ++ [] := rfl
        rw [tokens, harm, hv, hb.tokens_compound, List.append_nil]
      · simp only [emit, bind_assoc]
  | ifElse c t e s iht ihe ihs =>
      obtain ⟨hp', hs⟩ := List.forall_mem_append.mp hp
      obtain ⟨hp', he⟩ := List.forall_mem_append.mp hp'
      obtain ⟨_, ht⟩ := List.forall_mem_append.mp hp'
      obtain ⟨b, hb⟩ := iht ht
      obtain ⟨b', hb'⟩ := ihe he
      obtain ⟨t', ht'⟩ := ihs hs
      obtain ⟨v, hv, hvalue, _⟩ := c.exists_term size
      refine ⟨.cons (.ifElse v (.compound b) (.otherwise (.compound b'))) t', (ht'.cons (do
          let group ← Build.fork "if" (← c.value)
          t.emit
          Build.fallInto group.last group.second
          e.emit
          Build.enter group.last) rfl fun enclosing => ?_).congr ?_ ?_⟩
      · simp only [Statement.emit, hvalue, hb.emit, hb'.emit, bind_assoc, pure_bind]
      · have harms : (Statement.ifElse v (.compound b) (.otherwise (.compound b'))).tokens =
            "if" :: "(" :: v.tokens ++ ")" :: (Statement.compound b).tokens ++
              "else" :: (Statement.compound b').tokens := rfl
        rw [tokens, harms, hv, hb.tokens_compound, hb'.tokens_compound]
      · simp only [emit, bind_assoc]
  | whileLoop c body s ihb ihs =>
      obtain ⟨hp', hs⟩ := List.forall_mem_append.mp hp
      obtain ⟨_, hb⟩ := List.forall_mem_append.mp hp'
      obtain ⟨b, hb⟩ := ihb hb
      obtain ⟨t, ht⟩ := ihs hs
      obtain ⟨v, hv, hvalue, _⟩ := c.exists_term size
      refine ⟨.cons (.whileLoop v (.compound b)) t, (ht.cons (do
          let group ← Build.loop
          let word ← c.value
          Build.test word group
          body.emit
          Build.fallInto group.first group.last) rfl fun enclosing => ?_).congr ?_ ?_⟩
      · simp only [Statement.emit, hvalue, hb.emit, bind_assoc, pure_bind]
      · rw [tokens, Statement.tokens, hv, hb.tokens_compound]
      · simp only [emit, bind_assoc]
  | ret value s ih =>
      cases value with
      | none =>
          obtain ⟨t, ht⟩ := ih hp
          exact ⟨.cons (.ret none) t, ht.cons (Build.ret (.const 0)) rfl fun _ => rfl⟩
      | some e =>
          obtain ⟨_, hs⟩ := List.forall_mem_append.mp hp
          obtain ⟨t, ht⟩ := ih hs
          obtain ⟨v, hv, hvalue, _⟩ := e.exists_term size
          refine ⟨.cons (.ret (some v)) t,
            (ht.cons (do Build.ret (← e.value)) rfl fun enclosing => ?_).congr ?_ ?_⟩
          · simp only [Statement.emit, hvalue, bind_assoc]
          · simp only [tokens, Statement.tokens, hv, List.append_assoc, List.cons_append,
              List.nil_append]
          · simp only [emit, bind_assoc]

end Statements
end BCompiler
