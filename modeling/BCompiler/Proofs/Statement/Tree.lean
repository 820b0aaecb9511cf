import BCompiler.Proofs.Expression.Tree

/-!
Statements as trees: their text, their meaning and their code.

The meaning of statements is a relation between the variables before them and how they end. A run
with a bound on the iterations of each loop computes it, and tells a division by zero from a loop
that has not ended yet.
-/
namespace BCompiler

/-- A sequence of statements, given by its first statement and the rest. -/
inductive Statements where
  | done
  | expression (e : Expr) (rest : Statements)
  | null (rest : Statements)
  | compound (body rest : Statements)
  | ifThen (c : Expr) (body rest : Statements)
  | ifElse (c : Expr) (thenBody elseBody rest : Statements)
  | whileLoop (c : Expr) (body rest : Statements)
  | ret (value : Option Expr) (rest : Statements)
  deriving DecidableEq

/-- How statements end. -/
inductive Ending where
  /-- The next statement follows. -/
  | next (env : Env)
  | returned (word : Word)

/-- What a function returns whose body ends so. -/
def Ending.word : Ending → Word
  | next _ => 0
  | returned w => w

/-- What a bounded run comes to. -/
inductive Result where
  | done (o : Ending)
  /-- Something was divided by zero. -/
  | stuck
  /-- The bound of a loop was reached. -/
  | unfinished

namespace Result

def andThen (f : Env → Result) : Result → Result
  | done (.next env) => f env
  | done (.returned w) => done (.returned w)
  | stuck => stuck
  | unfinished => unfinished

/-- Go on with the word and the variables after an expression. -/
def ofEval (f : Word → Env → Result) : Option (Word × Env) → Result
  | some (w, env) => f w env
  | none => stuck

theorem andThen_eq_done_iff {r : Result} {f : Env → Result} {o : Ending} :
    r.andThen f = done o ↔
      (∃ env, r = done (.next env) ∧ f env = done o) ∨
        ∃ w, r = done (.returned w) ∧ o = .returned w := by
  rcases r with (env | w) | _ | _ <;> simp [andThen, eq_comm]

theorem ofEval_eq_done_iff {r : Option (Word × Env)} {f : Word → Env → Result} {o : Ending} :
    ofEval f r = done o ↔ ∃ w env, r = some (w, env) ∧ f w env = done o := by
  constructor
  · intro h
    rcases r with _ | ⟨w, env⟩
    · cases h
    · exact ⟨w, env, rfl, h⟩
  · rintro ⟨w, env, rfl, h⟩
    exact h

theorem andThen_next (r : Result) : (r.andThen fun env => done (.next env)) = r := by
  rcases r with (env | w) | _ | _ <;> rfl

theorem andThen_assoc (r : Result) (f g : Env → Result) :
    (r.andThen f).andThen g = r.andThen fun env => (f env).andThen g := by
  rcases r with (env | w) | _ | _ <;> rfl

end Result

namespace Statements

/-- The meaning of statements. What follows a body is entered from its end. -/
inductive Exec : Statements → Env → Ending → Prop
  | done {env : Env} : Exec done env (.next env)
  | expression {e : Expr} {rest : Statements} {env env₁ : Env} {w : Word} {o : Ending} :
      e.eval env = some (w, env₁) → Exec rest env₁ o → Exec (expression e rest) env o
  | null {rest : Statements} {env : Env} {o : Ending} :
      Exec rest env o → Exec (null rest) env o
  | compound {body rest : Statements} {env env₁ : Env} {o : Ending} :
      Exec body env (.next env₁) → Exec rest env₁ o → Exec (compound body rest) env o
  | compoundReturn {body rest : Statements} {env : Env} {w : Word} :
      Exec body env (.returned w) → Exec (compound body rest) env (.returned w)
  | ifThen {c : Expr} {body rest : Statements} {env env₁ : Env} {w : Word} {o : Ending} :
      c.eval env = some (w, env₁) → w ≠ 0 → Exec (compound body rest) env₁ o →
        Exec (ifThen c body rest) env o
  | ifThenSkip {c : Expr} {body rest : Statements} {env env₁ : Env} {o : Ending} :
      c.eval env = some (0, env₁) → Exec rest env₁ o → Exec (ifThen c body rest) env o
  | ifElseThen {c : Expr} {t e rest : Statements} {env env₁ : Env} {w : Word} {o : Ending} :
      c.eval env = some (w, env₁) → w ≠ 0 → Exec (compound t rest) env₁ o →
        Exec (ifElse c t e rest) env o
  | ifElseElse {c : Expr} {t e rest : Statements} {env env₁ : Env} {o : Ending} :
      c.eval env = some (0, env₁) → Exec (compound e rest) env₁ o → Exec (ifElse c t e rest) env o
  | whileStep {c : Expr} {body rest : Statements} {env env₁ : Env} {w : Word} {o : Ending} :
      c.eval env = some (w, env₁) → w ≠ 0 → Exec (compound body (whileLoop c body rest)) env₁ o →
        Exec (whileLoop c body rest) env o
  | whileEnd {c : Expr} {body rest : Statements} {env env₁ : Env} {o : Ending} :
      c.eval env = some (0, env₁) → Exec rest env₁ o → Exec (whileLoop c body rest) env o
  | ret {rest : Statements} {env : Env} : Exec (ret none rest) env (.returned 0)
  | retValue {e : Expr} {rest : Statements} {env env₁ : Env} {w : Word} :
      e.eval env = some (w, env₁) → Exec (ret (some e) rest) env (.returned w)

/-- At most the given number of iterations. -/
def iterate (test : Env → Option (Word × Env)) (body : Env → Result) : Nat → Env → Result
  | 0, _ => .unfinished
  | n + 1, env => .ofEval (fun w env =>
      if w = 0 then .done (.next env) else (body env).andThen (iterate test body n)) (test env)

/-- Run statements with at most the given number of iterations of each loop. -/
def run (n : Nat) : Statements → Env → Result
  | done, env => .done (.next env)
  | expression e rest, env => .ofEval (fun _ env => rest.run n env) (e.eval env)
  | null rest, env => rest.run n env
  | compound body rest, env => (body.run n env).andThen (rest.run n)
  | ifThen c body rest, env => .ofEval (fun w env =>
      (if w = 0 then .done (.next env) else body.run n env).andThen (rest.run n)) (c.eval env)
  | ifElse c t e rest, env => .ofEval (fun w env =>
      (if w = 0 then e.run n env else t.run n env).andThen (rest.run n)) (c.eval env)
  | whileLoop c body rest, env => (iterate c.eval (body.run n) n env).andThen (rest.run n)
  | ret none _, _ => .done (.returned 0)
  | ret (some e) _, env => .ofEval (fun w _ => .done (.returned w)) (e.eval env)

/-- The variables that statements name. -/
def names : Statements → List Name
  | done => []
  | expression e rest => e.names ++ rest.names
  | null rest => rest.names
  | compound body rest => body.names ++ rest.names
  | ifThen c body rest | whileLoop c body rest =>
    c.names ++ body.names ++ rest.names
  | ifElse c t e rest => c.names ++ t.names ++ e.names ++ rest.names
  | ret none rest => rest.names
  | ret (some e) rest => e.names ++ rest.names

/-- Tokens between braces. -/
def braced (tokens : List String) : List String := "\x7b" :: tokens ++ ["\x7d"]

def tokens : Statements → List String
  | done => []
  | expression e rest => e.tokens fullLevel ++ ";" :: rest.tokens
  | null rest => ";" :: rest.tokens
  | compound body rest => braced body.tokens ++ rest.tokens
  | ifThen c body rest =>
    "if" :: "(" :: c.tokens fullLevel ++ ")" :: braced body.tokens ++ rest.tokens
  | ifElse c t e rest =>
    "if" :: "(" :: c.tokens fullLevel ++ ")" :: braced t.tokens ++ "else" :: braced e.tokens ++
      rest.tokens
  | whileLoop c body rest =>
    "while" :: "(" :: c.tokens fullLevel ++ ")" :: braced body.tokens ++ rest.tokens
  | ret none rest => "return" :: ";" :: rest.tokens
  | ret (some e) rest => "return" :: "(" :: e.tokens fullLevel ++ ")" :: ";" :: rest.tokens

/-- The code that statements stand for. -/
def emit : Statements → Build Unit
  | done => return
  | expression e rest => do
    let _ ← e.value
    rest.emit
  | null rest => rest.emit
  | compound body rest => do
    body.emit
    rest.emit
  | ifThen c body rest => do
    let group ← Build.fork "if" (← c.value)
    body.emit
    Build.fallInto group.last group.second
    Build.enter group.last
    rest.emit
  | ifElse c t e rest => do
    let group ← Build.fork "if" (← c.value)
    t.emit
    Build.fallInto group.last group.second
    e.emit
    Build.enter group.last
    rest.emit
  | whileLoop c body rest => do
    let group ← Build.loop
    let word ← c.value
    Build.test word group
    body.emit
    Build.fallInto group.first group.last
    rest.emit
  | ret none rest => do
    Build.ret (.const 0)
    rest.emit
  | ret (some e) rest => do
    let word ← e.value
    Build.ret word
    rest.emit

section Run

variable {n k : Nat} {c : Expr} {s body rest : Statements} {env : Env} {o : Ending}

theorem exec_compound (hb : ∀ {env o}, body.run n env = .done o → body.Exec env o)
    (hr : ∀ {env o}, rest.run n env = .done o → rest.Exec env o)
    (h : (body.run n env).andThen (rest.run n) = .done o) : (compound body rest).Exec env o := by
  rcases Result.andThen_eq_done_iff.mp h with ⟨env₁, hbody, hrest⟩ | ⟨w, hbody, rfl⟩
  · exact .compound (hb hbody) (hr hrest)
  · exact .compoundReturn (hb hbody)

/-- By induction on the iterations that are left; the bound of the loops inside stays. -/
theorem exec_iterate (hb : ∀ {env o}, body.run n env = .done o → body.Exec env o)
    (hr : ∀ {env o}, rest.run n env = .done o → rest.Exec env o) (k : Nat) {env : Env}
    (h : (iterate c.eval (body.run n) k env).andThen (rest.run n) = .done o) :
    (whileLoop c body rest).Exec env o := by
  induction k generalizing env with
  | zero => cases h
  | succ k ih =>
      rw [iterate] at h
      cases hc : c.eval env with
      | none =>
          rw [hc] at h
          cases h
      | some r =>
          rw [hc, Result.ofEval] at h
          by_cases h0 : r.1 = 0
          · rw [if_pos h0] at h
            exact .whileEnd (h0 ▸ hc) (hr h)
          · rw [if_neg h0, Result.andThen_assoc] at h
            refine .whileStep hc h0 ?_
            rcases Result.andThen_eq_done_iff.mp h with ⟨env₁, hbody, hrest⟩ | ⟨w, hbody, rfl⟩
            · exact .compound (hb hbody) (ih hrest)
            · exact .compoundReturn (hb hbody)

theorem exec_of_run (h : s.run n env = .done o) : s.Exec env o := by
  induction s generalizing env o with
  | done =>
      cases h
      exact .done
  | expression e rest ih =>
      obtain ⟨w, env₁, he, h⟩ := Result.ofEval_eq_done_iff.mp h
      exact .expression he (ih h)
  | null rest ih => exact .null (ih h)
  | compound body rest ihb ihr => exact exec_compound ihb ihr h
  | ifThen c body rest ihb ihr =>
      obtain ⟨w, env₁, hc, h⟩ := Result.ofEval_eq_done_iff.mp h
      by_cases h0 : w = 0
      · rw [if_pos h0] at h
        exact .ifThenSkip (h0 ▸ hc) (ihr h)
      · rw [if_neg h0] at h
        exact .ifThen hc h0 (exec_compound ihb ihr h)
  | ifElse c t e rest iht ihe ihr =>
      obtain ⟨w, env₁, hc, h⟩ := Result.ofEval_eq_done_iff.mp h
      by_cases h0 : w = 0
      · rw [if_pos h0] at h
        exact .ifElseElse (h0 ▸ hc) (exec_compound ihe ihr h)
      · rw [if_neg h0] at h
        exact .ifElseThen hc h0 (exec_compound iht ihr h)
  | whileLoop c body rest ihb ihr => exact exec_iterate ihb ihr n h
  | ret value rest ih =>
      cases value with
      | none =>
          cases h
          exact .ret
      | some e =>
          obtain ⟨w, env₁, he, h⟩ := Result.ofEval_eq_done_iff.mp h
          cases h
          exact .retValue he

theorem andThen_mono {r r' : Result} {f f' : Env → Result} (h : r.andThen f = .done o)
    (hr : ∀ {o}, r = .done o → r' = .done o)
    (hf : ∀ {env o}, f env = .done o → f' env = .done o) : r'.andThen f' = .done o := by
  rcases Result.andThen_eq_done_iff.mp h with ⟨env, he, h⟩ | ⟨w, he, rfl⟩
  · rw [hr he]
    exact hf h
  · rw [hr he]
    rfl

theorem iterate_mono {test : Env → Option (Word × Env)} {f f' : Env → Result} (hle : n ≤ k)
    (hf : ∀ {env o}, f env = .done o → f' env = .done o) (h : iterate test f n env = .done o) :
    iterate test f' k env = .done o := by
  induction n generalizing k env o with
  | zero => cases h
  | succ n ih =>
      obtain ⟨k, rfl⟩ : ∃ j, k = j + 1 := ⟨k - 1, by omega⟩
      obtain ⟨w, env₁, ht, h⟩ := Result.ofEval_eq_done_iff.mp h
      refine Result.ofEval_eq_done_iff.mpr ⟨w, env₁, ht, ?_⟩
      by_cases h0 : w = 0
      · rwa [if_pos h0] at h ⊢
      · rw [if_neg h0] at h ⊢
        exact andThen_mono h hf (ih (Nat.le_of_succ_le_succ hle))

/-- A run that has ended is not changed by a higher bound. -/
theorem run_mono (hle : n ≤ k) (h : s.run n env = .done o) : s.run k env = .done o := by
  induction s generalizing env o with
  | done => exact h
  | null rest ih => exact ih h
  | compound body rest ihb ihr => exact andThen_mono h ihb ihr
  | whileLoop c body rest ihb ihr => exact andThen_mono h (iterate_mono hle ihb) ihr
  | expression e rest ih =>
      obtain ⟨w, env₁, he, h⟩ := Result.ofEval_eq_done_iff.mp h
      exact Result.ofEval_eq_done_iff.mpr ⟨w, env₁, he, ih h⟩
  | ifThen c body rest ihb ihr =>
      obtain ⟨w, env₁, hc, h⟩ := Result.ofEval_eq_done_iff.mp h
      refine Result.ofEval_eq_done_iff.mpr ⟨w, env₁, hc, andThen_mono h (fun {o} hb => ?_) ihr⟩
      by_cases h0 : w = 0
      · rwa [if_pos h0] at hb ⊢
      · rw [if_neg h0] at hb ⊢
        exact ihb hb
  | ifElse c t e rest iht ihe ihr =>
      obtain ⟨w, env₁, hc, h⟩ := Result.ofEval_eq_done_iff.mp h
      refine Result.ofEval_eq_done_iff.mpr ⟨w, env₁, hc, andThen_mono h (fun {o} hb => ?_) ihr⟩
      by_cases h0 : w = 0
      · rw [if_pos h0] at hb ⊢
        exact ihe hb
      · rw [if_neg h0] at hb ⊢
        exact iht hb
  | ret value rest =>
      cases value with
      | none => exact h
      | some e => exact h

theorem exists_run_of_exec (h : s.Exec env o) : ∃ n, s.run n env = .done o := by
  induction h with
  | done => exact ⟨0, rfl⟩
  | expression he _ ih =>
      obtain ⟨n, hn⟩ := ih
      exact ⟨n, Result.ofEval_eq_done_iff.mpr ⟨_, _, he, hn⟩⟩
  | null _ ih => exact ih
  | compound _ _ ihb ihr =>
      obtain ⟨n, hn⟩ := ihb
      obtain ⟨k, hk⟩ := ihr
      exact ⟨max n k, Result.andThen_eq_done_iff.mpr (.inl ⟨_, run_mono (Nat.le_max_left n k) hn,
        run_mono (Nat.le_max_right n k) hk⟩)⟩
  | compoundReturn _ ih =>
      obtain ⟨n, hn⟩ := ih
      exact ⟨n, Result.andThen_eq_done_iff.mpr (.inr ⟨_, hn, rfl⟩)⟩
  | ifThen hc h0 _ ih | ifElseThen hc h0 _ ih =>
      obtain ⟨n, hn⟩ := ih
      refine ⟨n, Result.ofEval_eq_done_iff.mpr ⟨_, _, hc, ?_⟩⟩
      rw [if_neg h0]
      exact hn
  | ifThenSkip hc _ ih | ifElseElse hc _ ih =>
      obtain ⟨n, hn⟩ := ih
      exact ⟨n, Result.ofEval_eq_done_iff.mpr ⟨_, _, hc, hn⟩⟩
  | whileStep hc h0 _ ih =>
      obtain ⟨n, hn⟩ := ih
      refine ⟨n + 1, ?_⟩
      rw [run, iterate, hc, Result.ofEval, if_neg h0, Result.andThen_assoc]
      exact andThen_mono hn (run_mono (Nat.le_succ n)) fun hrest =>
        andThen_mono hrest (iterate_mono (Nat.le_refl n) (run_mono (Nat.le_succ n)))
          (run_mono (Nat.le_succ n))
  | whileEnd hc _ ih =>
      obtain ⟨n, hn⟩ := ih
      refine ⟨n + 1, ?_⟩
      rw [run, iterate, hc]
      exact run_mono (Nat.le_succ n) hn
  | ret => exact ⟨0, rfl⟩
  | retValue he => exact ⟨0, Result.ofEval_eq_done_iff.mpr ⟨_, _, he, rfl⟩⟩

theorem exec_iff : s.Exec env o ↔ ∃ n, s.run n env = .done o :=
  ⟨exists_run_of_exec, fun ⟨_, h⟩ => exec_of_run h⟩

end Run

end Statements
end BCompiler
