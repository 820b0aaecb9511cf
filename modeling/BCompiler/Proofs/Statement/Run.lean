import BCompiler.Proofs.Expression.Run
import BCompiler.Proofs.Statement.Tree

/-!
Running the code of statements.

The machine follows a bounded run of the statements: it comes to the end of their code with the same
words in the variables, returns the same word or gets stuck, and where the bound was reached it has
made at least as many steps. So it returns a word exactly if some bounded run does.
-/
namespace BCompiler

namespace Draft

variable {d₁ d₂ d₃ d₄ d₅ : Draft} {g : BlockGroup}

theorem group_ne (d : Draft) :
    d.group.second ≠ d.group.first ∧ d.group.last ≠ d.group.first ∧ d.group.last ≠ d.group.second :=
  ⟨Nat.succ_ne_self _, Nat.ne_of_gt (Nat.lt_add_of_pos_right Nat.two_pos), Nat.succ_ne_self _⟩

/-- The arms of a conditional statement and what follows it begin in empty blocks. -/
theorem branches {construct : String} {word : Operand} (hv : d₁.Valid)
    (hf : Build.fork construct word d₁ = .ok g d₂)
    (hb₃ : Beside d₂.function.blocks.length d₂.current d₂ d₃)
    (hd₄ : d₄ = d₃.fallenInto g.last g.second)
    (hb₅ : Beside d₄.function.blocks.length d₄.current d₄ d₅) :
    d₂.current = g.first ∧ (∃ name, d₂.function.blocks[g.first]? = some (.empty name)) ∧
      (∃ name, d₄.function.blocks[g.second]? = some (.empty name)) ∧
      ∃ name, (d₅.fallenInto g.last g.last).function.blocks[g.last]? = some (.empty name) := by
  have hnew := getElem?_fork hv hf
  obtain ⟨_, rfl, hd₂⟩ := Build.fork_eq_ok_iff.mp hf
  have hcurrent : d₂.current = d₁.group.first := hd₂ ▸ rfl
  obtain ⟨hfs, hfl, hsl⟩ := d₁.group_ne
  obtain ⟨_, nf, hfirst⟩ := hnew _ (.head _)
  obtain ⟨_, ns, hsecond⟩ := hnew _ (.tail _ (.head _))
  obtain ⟨_, nl, hlast⟩ := hnew _ (.tail _ (.tail _ (.head _)))
  have hsecond₄ := (hb₃.kept hsecond (List.getElem?_eq_some_iff.mp hsecond).1 (hcurrent ▸ hfs)
    (.branch d₁.group.last)).2
  have hlast₄ := (hb₃.kept hlast (List.getElem?_eq_some_iff.mp hlast).1 (hcurrent ▸ hfl)
    (.branch d₁.group.last)).2
  subst hd₄
  have hlast₅ := (hb₅.kept hlast₄ (List.getElem?_eq_some_iff.mp hlast₄).1 hsl
    (.branch d₁.group.last)).2
  exact ⟨hcurrent, ⟨nf, hfirst⟩, ⟨ns, hsecond₄⟩, ⟨nl, hlast₅⟩⟩

/-- The condition and the body of a loop and what follows it begin in empty blocks. -/
structure Loop (g : BlockGroup) (d₁ d₃ d₅ : Draft) : Prop where
  current : d₁.current = g.first
  first : ∃ name, d₁.function.blocks[g.first]? = some (.empty name)
  bodyCurrent : d₃.current = g.second
  second : ∃ name, d₃.function.blocks[g.second]? = some (.empty name)
  last : ∃ name, d₅.function.blocks[g.last]? = some (.empty name)

theorem loops {d : Draft} {word : Operand} {u : Unit} (hv : d.Valid)
    (hl : Build.loop d = .ok g d₁) (hb₂ : Beside d₁.function.blocks.length d₁.current d₁ d₂)
    (ht : Build.test word g d₂ = .ok u d₃)
    (hb₄ : Beside d₃.function.blocks.length d₃.current d₃ d₄) :
    Loop g d₁ d₃ (d₄.fallenInto g.first g.last) := by
  obtain ⟨_, rfl, hd₁⟩ := Build.loop_eq_ok_iff.mp hl
  obtain ⟨hfs, hfl, hsl⟩ := d.group_ne
  -- the new blocks are empty behind the branch to the first of them
  have hnew : ∀ k, d.function.blocks.length ≤ k → k ≤ d.function.blocks.length + 2 →
      ∃ name, d₁.function.blocks[k]? = some (.empty name) := by
    intro k hk hk'
    obtain ⟨name, hb⟩ := getElem?_addGroup (d := d) "while" "cond" "body" "end" hk hk'
    have hbeside := Beside.refl (d.addGroup "while" "cond" "body" "end")
    have hne : k ≠ d.current := Nat.ne_of_gt (Nat.lt_of_lt_of_le hv hk)
    exact ⟨name, hd₁ ▸ (hbeside.kept hb (List.getElem?_eq_some_iff.mp hb).1 hne _).2⟩
  have hcurrent : d₁.current = d.group.first := hd₁ ▸ rfl
  obtain ⟨nf, hfirst⟩ := hnew d.group.first (Nat.le_refl _) (Nat.le_add_right _ _)
  obtain ⟨ns, hsecond⟩ := hnew d.group.second (Nat.le_succ _) (Nat.le_succ _)
  obtain ⟨nl, hlast⟩ := hnew d.group.last (Nat.le_add_right _ _) (Nat.le_refl _)
  obtain ⟨_, hd₃⟩ := Build.test_eq_ok_iff.mp ht
  have htested : ∀ {k name}, d₁.function.blocks[k]? = some (.empty name) → k ≠ d.group.first →
      d₃.function.blocks[k]? = some (.empty name) := by
    intro k name hb hk
    have hlt := (List.getElem?_eq_some_iff.mp hb).1
    have hne := (hb₂.kept hb hlt (hcurrent ▸ hk) (.branch 0)).1
    have hb' := hb₂.blocks k hlt (hcurrent ▸ hk)
    rw [hd₃]
    change (d₂.branched _ _ _).function.blocks[k]? = _
    rw [getElem?_branched (Nat.lt_of_lt_of_le hlt hb₂.length) hne, hb', hb]
  have hcurrent₃ : d₃.current = d.group.second := hd₃ ▸ rfl
  have hlast₃ := htested hlast hfl
  have hlast₄ := (hb₄.kept hlast₃ (List.getElem?_eq_some_iff.mp hlast₃).1 (hcurrent₃ ▸ hsl)
    (.branch d.group.first)).2
  exact ⟨hcurrent, ⟨nf, hfirst⟩, hcurrent₃, ⟨ns, htested hsecond hfs⟩, ⟨nl, hlast₄⟩⟩

end Draft

namespace Statements

variable {s : Statements} {d d' : Draft} {u : Unit}

/-- Every variable of the statements is a local name. -/
def ClosedIn (locals : List (String × Operand)) (s : Statements) : Prop :=
  ∀ x ∈ s.names, (locals.lookup x.text).isSome

theorem emit_ifThen (c : Expr) (body rest : Statements) :
    (ifThen c body rest).emit = (ifElse c body done rest).emit := rfl

theorem emit_beside (hs : s.emit d = .ok u d') :
    d.Beside d.function.blocks.length d.current d' := by
  induction s generalizing d d' with
  | done =>
      obtain ⟨_, rfl⟩ := pure_eq_ok_iff.mp hs
      exact .refl d'
  | expression e rest ih =>
      obtain ⟨_, d₁, hv, hs⟩ := bind_eq_ok_iff.mp hs
      exact (Expr.value_beside hv).1.within (ih hs)
  | null rest ih => exact ih hs
  | compound body rest ihb ihr =>
      obtain ⟨_, d₁, hb, hs⟩ := bind_eq_ok_iff.mp hs
      exact (ihb hb).within (ihr hs)
  | ifThen c body rest ihb ihr =>
      obtain ⟨word, d₁, hv, hs⟩ := bind_eq_ok_iff.mp hs
      obtain ⟨g, d₂, hf, hs⟩ := bind_eq_ok_iff.mp hs
      obtain ⟨_, d₃, hb, hs⟩ := bind_eq_ok_iff.mp hs
      obtain ⟨_, d₄, hfall, hs⟩ := bind_eq_ok_iff.mp hs
      obtain ⟨_, d₅, henter, hs⟩ := bind_eq_ok_iff.mp hs
      obtain ⟨hb₂, hsecond, hlast⟩ := (Expr.value_beside hv).1.fork hf
      have hb₄ := (hb₂.within (ihb hb)).fallInto hlast hsecond hfall
      exact (hb₄.fallInto hlast hlast henter).within (ihr hs)
  | ifElse c t e rest iht ihe ihr =>
      obtain ⟨word, d₁, hv, hs⟩ := bind_eq_ok_iff.mp hs
      obtain ⟨g, d₂, hf, hs⟩ := bind_eq_ok_iff.mp hs
      obtain ⟨_, d₃, ht, hs⟩ := bind_eq_ok_iff.mp hs
      obtain ⟨_, d₄, hfall, hs⟩ := bind_eq_ok_iff.mp hs
      obtain ⟨_, d₅, he, hs⟩ := bind_eq_ok_iff.mp hs
      obtain ⟨_, d₆, henter, hs⟩ := bind_eq_ok_iff.mp hs
      obtain ⟨hb₂, hsecond, hlast⟩ := (Expr.value_beside hv).1.fork hf
      have hb₄ := (hb₂.within (iht ht)).fallInto hlast hsecond hfall
      exact ((hb₄.within (ihe he)).fallInto hlast hlast henter).within (ihr hs)
  | whileLoop c body rest ihb ihr =>
      obtain ⟨g, d₁, hl, hs⟩ := bind_eq_ok_iff.mp hs
      obtain ⟨word, d₂, hv, hs⟩ := bind_eq_ok_iff.mp hs
      obtain ⟨_, d₃, ht, hs⟩ := bind_eq_ok_iff.mp hs
      obtain ⟨_, d₄, hb, hs⟩ := bind_eq_ok_iff.mp hs
      obtain ⟨_, d₅, hfall, hs⟩ := bind_eq_ok_iff.mp hs
      obtain ⟨hb₁, hfirst, hsecond, hlast⟩ := (Draft.Beside.refl d).loop hl
      have hb₃ := (hb₁.within (Expr.value_beside hv).1).test hsecond hlast ht
      exact ((hb₃.within (ihb hb)).fallInto hfirst hlast hfall).within (ihr hs)
  | ret value rest ih =>
      cases value with
      | none =>
          obtain ⟨_, d₁, ht, hs⟩ := bind_eq_ok_iff.mp hs
          exact ((Draft.Beside.refl d).terminate (fun _ hk => (List.not_mem_nil hk).elim) ht).within
            (ih hs)
      | some e =>
          obtain ⟨word, d₁, hv, hs⟩ := bind_eq_ok_iff.mp hs
          obtain ⟨_, d₂, ht, hs⟩ := bind_eq_ok_iff.mp hs
          exact ((Expr.value_beside hv).1.terminate (fun _ hk => (List.not_mem_nil hk).elim)
            ht).within (ih hs)

section Sure

variable {locals : List (String × Operand)}

theorem ifElse_sure {c : Build Operand} {t e rest : Build Unit} {n : Nat}
    (hc : Build.Sure locals n c) (ht : ∀ k, Build.Sure locals k t)
    (he : ∀ k, Build.Sure locals k e) (hr : ∀ k, Build.Sure locals k rest) :
    Build.Sure locals n (do
      let group ← Build.fork "if" (← c)
      t
      Build.fallInto group.last group.second
      e
      Build.enter group.last
      rest) := by
  intro d hd
  obtain ⟨word, d₁, hword, hd₁⟩ := hc d hd
  obtain ⟨d₂, hfork, hd₂⟩ := Build.fork_sure "if" word hd₁
  have hblocks : d₁.group.second < d₁.function.blocks.length + 3 ∧
      d₁.group.last < d₁.function.blocks.length + 3 := by
    unfold Draft.group
    exact ⟨by simp, by simp⟩
  have hrest := (ht _).bind fun _ => (Build.fallInto_sure d₁.group.last hblocks.1).bind fun _ =>
    (he _).bind fun _ => (Build.fallInto_sure d₁.group.last hblocks.2).bind fun _ => hr _
  obtain ⟨a, d', ha, hd'⟩ := hrest d₂ hd₂
  refine ⟨a, d', ?_, hd'.lower (Nat.le_add_right_of_le hd₁.length)⟩
  exact bind_eq_ok_iff.mpr ⟨_, _, hword, bind_eq_ok_iff.mpr ⟨_, _, hfork, ha⟩⟩

theorem whileLoop_sure {c : Build Operand} {body rest : Build Unit} {n : Nat}
    (hc : ∀ k, Build.Sure locals k c) (hb : ∀ k, Build.Sure locals k body)
    (hr : ∀ k, Build.Sure locals k rest) :
    Build.Sure locals n (do
      let group ← Build.loop
      let word ← c
      Build.test word group
      body
      Build.fallInto group.first group.last
      rest) := by
  intro d hd
  obtain ⟨hgroup, hd₁⟩ := Build.newGroup_sure "while" "cond" "body" "end" hd
  have hblocks : d.group.first < d.function.blocks.length + 3 ∧
      d.group.second < d.function.blocks.length + 3 ∧
      d.group.last < d.function.blocks.length + 3 := by
    unfold Draft.group
    exact ⟨by simp, by simp, by simp⟩
  obtain ⟨_, d₁, henter, hd₁⟩ := Build.fallInto_sure d.group.first hblocks.1 _ hd₁
  have hloop : Build.loop d = .ok d.group d₁ :=
    bind_eq_ok_iff.mpr ⟨_, _, hgroup, bind_eq_ok_iff.mpr ⟨_, _, henter, rfl⟩⟩
  have htest : ∀ word, Build.Sure locals (d.function.blocks.length + 3) (Build.test word d.group) :=
    fun word => (Build.condBranch_sure word _ _).bind fun _ => Build.switchTo_sure hblocks.2.1
  have hrest := (hc _).bind fun word => (htest word).bind fun _ => (hb _).bind fun _ =>
    (Build.fallInto_sure d.group.first hblocks.2.2).bind fun _ => hr _
  obtain ⟨a, d', ha, hd'⟩ := hrest d₁ hd₁
  refine ⟨a, d', ?_, hd'.lower (Nat.le_add_right_of_le hd.length)⟩
  exact bind_eq_ok_iff.mpr ⟨_, _, hloop, ha⟩

/-- The code of statements can be added wherever their variables are local names. -/
theorem emit_sure (s : Statements) (hc : s.ClosedIn locals) (n : Nat) :
    Build.Sure locals n s.emit := by
  induction s generalizing n with
  | done => exact .pure ()
  | expression e rest ih =>
      obtain ⟨hce, hcr⟩ := List.forall_mem_append.mp hc
      exact (e.value_sure hce n).bind fun _ => ih hcr n
  | null rest ih => exact ih hc n
  | compound body rest ihb ihr =>
      obtain ⟨hcb, hcr⟩ := List.forall_mem_append.mp hc
      exact (ihb hcb n).bind fun _ => ihr hcr n
  | ifThen c body rest ihb ihr =>
      obtain ⟨hc, hcr⟩ := List.forall_mem_append.mp hc
      obtain ⟨hcc, hcb⟩ := List.forall_mem_append.mp hc
      rw [emit_ifThen]
      exact ifElse_sure (c.value_sure hcc n) (ihb hcb) (fun _ => .pure ()) (ihr hcr)
  | ifElse c t e rest iht ihe ihr =>
      obtain ⟨hc, hcr⟩ := List.forall_mem_append.mp hc
      obtain ⟨hc, hce⟩ := List.forall_mem_append.mp hc
      obtain ⟨hcc, hct⟩ := List.forall_mem_append.mp hc
      exact ifElse_sure (c.value_sure hcc n) (iht hct) (ihe hce) (ihr hcr)
  | whileLoop c body rest ihb ihr =>
      obtain ⟨hc, hcr⟩ := List.forall_mem_append.mp hc
      obtain ⟨hcc, hcb⟩ := List.forall_mem_append.mp hc
      exact whileLoop_sure (c.value_sure hcc) (ihb hcb) (ihr hcr)
  | ret value rest ih =>
      cases value with
      | none => exact (Build.terminate_sure _).bind fun _ => ih hc n
      | some e =>
          obtain ⟨hce, hcr⟩ := List.forall_mem_append.mp hc
          exact (e.value_sure hce n).bind fun _ => (Build.terminate_sure _).bind fun _ => ih hcr n

end Sure

end Statements

namespace Machine

/-- The machine does what a bounded run came to. If the run comes to the end of the code, so does
the machine; if a loop was not done, the machine has made at least `k` steps. -/
def Follows (m : Machine) (c : Config) (d : Draft) (k : Nat) : Result → Prop
  | .done (.next env) =>
    d.isOpen ∧ ∃ n origin s, m.Steps n c (d.point origin s) ∧ Holds d.locals env s
  | .done (.returned w) => ∃ n, m.run n c = some w
  | .stuck => m.Fails c
  | .unfinished => ∃ n c', k ≤ n ∧ m.Steps n c c'

variable {m : Machine} {d d₁ d₂ : Draft} {c c' : Config} {j k n : Nat} {r : Result}

namespace Follows

theorem of_steps (h : m.Follows c' d k r) (hs : m.Steps n c c') (hj : j ≤ n + k) :
    m.Follows c d j r := by
  rcases r with (env | w) | _ | _
  · obtain ⟨ho, i, origin, s, hs', hh⟩ := h
    exact ⟨ho, n + i, origin, s, hs.trans hs', hh⟩
  · obtain ⟨i, hi⟩ := h
    exact ⟨n + i, (hs.run_add i).trans hi⟩
  · exact Fails.of_steps hs h
  · obtain ⟨i, c'', hk, hs'⟩ := h
    exact ⟨n + i, c'', by omega, hs.trans hs'⟩

theorem mono (h : m.Follows c d k r) (hj : j ≤ k) : m.Follows c d j r :=
  h.of_steps (.refl c) (Nat.le_add_left_of_le hj)

theorem andThen {f : Env → Result} (h : m.Follows c d₁ k r)
    (hf : ∀ env origin s, d₁.isOpen → Holds d₁.locals env s →
      m.Follows (d₁.point origin s) d₂ k (f env)) :
    m.Follows c d₂ k (r.andThen f) := by
  rcases r with (env | w) | _ | _
  · obtain ⟨ho, n, origin, s, hs, hh⟩ := h
    exact (hf env origin s ho hh).of_steps hs (Nat.le_add_left k n)
  · exact h
  · exact h
  · exact h

/-- More code that keeps the result. -/
theorem extend (h : m.Follows c d₁ k r)
    (hf : ∀ env origin s, d₁.isOpen → Holds d₁.locals env s →
      m.Follows (d₁.point origin s) d₂ k (.done (.next env))) : m.Follows c d₂ k r :=
  r.andThen_next ▸ h.andThen hf

theorem ofEval {f : Word → Env → Result} {r : Option (Word × Env)}
    {after : Word × Env → State → Prop} (h : m.Computes c d₁ r after)
    (hf : ∀ w env origin s, after (w, env) s → m.Follows (d₁.point origin s) d₂ k (f w env)) :
    m.Follows c d₂ k (.ofEval f r) := by
  rcases r with _ | ⟨w, env⟩
  · exact h
  · obtain ⟨n, origin, s, hs, ha⟩ := h
    exact (hf w env origin s ha).of_steps hs (Nat.le_add_left k n)

end Follows

/-- An open block that falls into another goes on there. -/
theorem step_fallenInto {target next : BlockId} (ho : d.isOpen)
    (hx : (d.fallenInto target next).function.Extends m.function) (origin : Option BlockId)
    (s : State) : m.step (d.point origin s) = .next ⟨target, 0, some d.current, s⟩ := by
  have hended : (d.endedBy (.branch target)).function.Extends m.function := by
    rw [← Draft.endedIfOpen_of_isOpen ho]
    exact hx
  exact step_endedBy ho hended origin s

/-- A loop begins with its condition. -/
theorem loop_steps {g : BlockGroup} {s : State} (origin : Option BlockId) (ho : d.isOpen)
    (hs : Build.loop d = .ok g d₁) (hx : d₁.function.Extends m.function)
    (hfirst : ∃ name, d₁.function.blocks[d₁.current]? = some (.empty name)) :
    m.Steps 1 (d.point origin s) (d₁.point (some d.current) s) := by
  obtain ⟨_, hfirst⟩ := hfirst
  obtain ⟨_, rfl, rfl⟩ := Build.loop_eq_ok_iff.mp hs
  have hopen : (d.addGroup "while" "cond" "body" "end").isOpen :=
    Draft.isOpen_addBlock (Draft.isOpen_addBlock (Draft.isOpen_addBlock ho _) _) _
  have hstep := step_fallenInto hopen hx origin s
  rw [Draft.point_addGroup (.of_isOpen ho)] at hstep
  rw [Draft.point_of_empty hfirst]
  exact .one hstep

theorem ret_follows {word : Operand} {u : Unit} {s : State} {w : Word} (origin : Option BlockId)
    (ho : d.isOpen) (hs : Build.ret word d = .ok u d₁) (hx : d₁.function.Extends m.function)
    (hw : m.operand s word = some w) : m.Follows (d.point origin s) d₂ k (.done (.returned w)) := by
  obtain ⟨_, rfl⟩ := Build.terminate_eq_ok_iff.mp hs
  rw [Draft.opened_of_isOpen ho] at hx
  have hret : m.step (d.point origin s) = .returned w := by
    rw [step_endedBy ho hx origin s]
    simp only [terminator, Draft.point, hw]
  exact ⟨1, by rw [run, hret]⟩

end Machine

namespace Statements

/-- The machine follows every run of the statements with the bound `k`. -/
def Runs (m : Machine) (k : Nat) (s : Statements) : Prop :=
  ∀ (d d' : Draft) (env : Env) (state : State) (origin : Option BlockId),
    s.emit d = .ok () d' → d.isOpen → d.Scoped → s.ClosedIn d.locals →
    d'.function.Extends m.function → Holds d.locals env state →
    m.Follows (d.point origin state) d' k (s.run k env)

namespace Runs

variable {m : Machine} {k : Nat} {c e : Expr} {body rest t f : Statements}

theorem done : done.Runs m k := by
  intro d d' env state origin hs ho hd hc hx hh
  obtain ⟨_, rfl⟩ := pure_eq_ok_iff.mp hs
  exact ⟨ho, 0, origin, state, .refl _, hh⟩

theorem expression (hr : rest.Runs m k) : (expression e rest).Runs m k := by
  intro d d' env state origin hs ho hd hc hx hh
  obtain ⟨v, d₁, hv, hs⟩ := bind_eq_ok_iff.mp hs
  obtain ⟨hb₁, ho₁, _⟩ := Expr.value_beside hv
  obtain ⟨hce, hcr⟩ := List.forall_mem_append.mp hc
  refine .ofEval (Expr.Runs.value e.runs origin hv ho hd hce ((emit_beside hs).code.trans hx) hh) ?_
  intro w env₁ origin₁ s₁ hev
  exact hr d₁ d' env₁ s₁ origin₁ hs (ho₁ ho) (hd.beside hb₁) (hb₁.locals ▸ hcr) hx
    (hb₁.locals ▸ hev.holds)

theorem compound (hb : body.Runs m k) (hr : rest.Runs m k) : (compound body rest).Runs m k := by
  intro d d' env state origin hs ho hd hc hx hh
  obtain ⟨_, d₁, hbody, hs⟩ := bind_eq_ok_iff.mp hs
  have hb₁ := emit_beside hbody
  obtain ⟨hcb, hcr⟩ := List.forall_mem_append.mp hc
  have hrun := hb d d₁ env state origin hbody ho hd hcb ((emit_beside hs).code.trans hx) hh
  refine hrun.andThen fun env₁ origin₁ s₁ ho₁ hh₁ => ?_
  exact hr d₁ d' env₁ s₁ origin₁ hs ho₁ (hd.beside hb₁) (hb₁.locals ▸ hcr) hx hh₁

theorem ret (value : Option Expr) : (ret value rest).Runs m k := by
  intro d d' env state origin hs ho hd hc hx hh
  cases value with
  | none =>
      obtain ⟨_, d₁, hret, hs⟩ := bind_eq_ok_iff.mp hs
      exact Machine.ret_follows origin ho hret ((emit_beside hs).code.trans hx) rfl
  | some e =>
      obtain ⟨v, d₁, hv, hs⟩ := bind_eq_ok_iff.mp hs
      obtain ⟨_, d₂, hret, hs⟩ := bind_eq_ok_iff.mp hs
      obtain ⟨_, ho₁, _⟩ := Expr.value_beside hv
      have hce := (List.forall_mem_append.mp hc).1
      have hx₂ := (emit_beside hs).code.trans hx
      have hb₂ := (Draft.Beside.refl d₁).terminate (fun _ hk => (List.not_mem_nil hk).elim) hret
      refine .ofEval (Expr.Runs.value e.runs origin hv ho hd hce (hb₂.code.trans hx₂) hh) ?_
      intro w env₁ origin₁ s₁ hev
      exact Machine.ret_follows origin₁ (ho₁ ho) hret hx₂ hev.means

/-- An arm of a conditional statement runs from an empty block to another one. -/
theorem arm {d d₁ d₂ : Draft} {next : BlockId} {env : Env} {state : State}
    (hb : body.Runs m k) (origin : Option BlockId) (hs : body.emit d = .ok () d₁)
    (hempty : ∃ name, d.function.blocks[d.current]? = some (.empty name)) (hd : d.Scoped)
    (hc : body.ClosedIn d.locals)
    (hx : (d₁.fallenInto d₂.current next).function.Extends m.function)
    (hmeet : ∃ name, d₂.function.blocks[d₂.current]? = some (.empty name))
    (hlocals : d₂.locals = d₁.locals) (hh : Holds d.locals env state) :
    m.Follows ⟨d.current, 0, origin, state⟩ d₂ k (body.run k env) := by
  obtain ⟨_, hempty⟩ := hempty
  obtain ⟨_, hmeet⟩ := hmeet
  have ho : d.isOpen := Draft.isOpen_iff.mpr ⟨_, hempty, rfl⟩
  have ho₂ : d₂.isOpen := Draft.isOpen_iff.mpr ⟨_, hmeet, rfl⟩
  have hrun := hb d d₁ env state origin hs ho hd hc ((d₁.extends_fallenInto _ _).trans hx) hh
  rw [Draft.point_of_empty hempty] at hrun
  refine hrun.extend fun env₁ origin₁ s₁ ho₁ hh₁ => ?_
  refine ⟨ho₂, 1, some d₁.current, s₁, .one ?_, hlocals ▸ hh₁⟩
  rw [Draft.point_of_empty hmeet]
  exact Machine.step_fallenInto ho₁ hx origin₁ s₁

theorem ifElse (ht : t.Runs m k) (hf : f.Runs m k) (hr : rest.Runs m k) :
    (ifElse c t f rest).Runs m k := by
  intro d d' env state origin hs ho hd hc hx hh
  obtain ⟨word, d₁, hv, hs⟩ := bind_eq_ok_iff.mp hs
  obtain ⟨g, d₂, hfork, hs⟩ := bind_eq_ok_iff.mp hs
  obtain ⟨_, d₃, hthen, hs⟩ := bind_eq_ok_iff.mp hs
  obtain ⟨_, d₄, hfall, hs⟩ := bind_eq_ok_iff.mp hs
  obtain ⟨_, d₅, helse, hs⟩ := bind_eq_ok_iff.mp hs
  obtain ⟨_, d₆, henter, hs⟩ := bind_eq_ok_iff.mp hs
  obtain ⟨hb₁, ho₁, hbelow⟩ := Expr.value_beside hv
  obtain ⟨hb₂, hsecond_le, hlast_le⟩ := hb₁.fork hfork
  have hb₃ := hb₂.within (emit_beside hthen)
  have hb₄ := hb₃.fallInto hlast_le hsecond_le hfall
  have hb₅ := hb₄.within (emit_beside helse)
  have hb₆ := hb₅.fallInto hlast_le hlast_le henter
  obtain ⟨_, rfl⟩ := Build.fallInto_eq_ok_iff.mp hfall
  obtain ⟨_, rfl⟩ := Build.fallInto_eq_ok_iff.mp henter
  obtain ⟨hcurrent, hfirst, hsecond, hlast⟩ := Draft.branches (.of_isOpen (ho₁ ho)) hfork
    (emit_beside hthen) rfl (emit_beside helse)
  -- the machine has the code of every draft on the way
  have hx₆ := (emit_beside hs).code.trans hx
  have hx₄ := (emit_beside helse).code.trans ((d₅.extends_fallenInto g.last g.last).trans hx₆)
  have hx₂ := (emit_beside hthen).code.trans ((d₃.extends_fallenInto g.last g.second).trans hx₄)
  have hx₁ := ((Draft.Beside.refl d₁).fork hfork).1.code.trans hx₂
  obtain ⟨hc, hcr⟩ := List.forall_mem_append.mp hc
  obtain ⟨hc, hcf⟩ := List.forall_mem_append.mp hc
  obtain ⟨hcc, hct⟩ := List.forall_mem_append.mp hc
  refine .ofEval (Expr.Runs.value c.runs origin hv ho hd hcc hx₁ hh) ?_
  intro w env₁ origin₁ s₁ hev
  obtain ⟨s₂, hsteps, hmemory, hkeeps⟩ := Machine.fork_steps origin₁ (ho₁ ho) hfork hx₂ hev.means
  have hh₂ := (hev.keep hd (hbelow hd) hkeeps hb₁.values hmemory).holds
  have harms : m.Follows ⟨if w = 0 then g.second else g.first, 0, some d₁.current, s₂⟩
      (d₅.fallenInto g.last g.last) k (if w = 0 then f.run k env₁ else t.run k env₁) := by
    by_cases h0 : w = 0
    · rw [if_pos h0, if_pos h0]
      exact hf.arm (some d₁.current) helse hsecond (hd.beside hb₄) (hb₄.locals ▸ hcf) hx₆ hlast
        (hb₆.locals.trans hb₅.locals.symm) (hb₄.locals ▸ hh₂)
    · rw [if_neg h0, if_neg h0, ← hcurrent]
      exact ht.arm (some d₁.current) hthen (hcurrent ▸ hfirst) (hd.beside hb₂) (hb₂.locals ▸ hct)
        hx₄ hlast (hb₆.locals.trans hb₃.locals.symm) (hb₂.locals ▸ hh₂)
  refine (harms.andThen fun env₃ origin₃ s₃ ho₃ hh₃ => ?_).of_steps hsteps (Nat.le_add_left k 2)
  exact hr _ d' env₃ s₃ origin₃ hs ho₃ (hd.beside hb₆) (hb₆.locals ▸ hcr) hx hh₃

/-- One iteration of a loop, from its condition on; it makes at least one step. -/
theorem iteration {d₁ d₂ d₃ d₄ : Draft} {g : BlockGroup} {word : Operand} {u : Unit} {j : Nat}
    {env : Env} {state : State} {again : Env → Result} (hb : body.Runs m k) (hj : j + 1 ≤ k)
    (hv : c.value d₁ = .ok word d₂) (htest : Build.test word g d₂ = .ok u d₃)
    (hbody : body.emit d₃ = .ok () d₄) (hl : Draft.Loop g d₁ d₃ (d₄.fallenInto g.first g.last))
    (hd : d₁.Scoped) (hd₃ : d₃.Scoped) (hlocals₃ : d₃.locals = d₁.locals)
    (hlocals₅ : (d₄.fallenInto g.first g.last).locals = d₁.locals)
    (hcc : c.ClosedIn d₁.locals) (hcb : body.ClosedIn d₁.locals)
    (hx : (d₄.fallenInto g.first g.last).function.Extends m.function) (origin : Option BlockId)
    (hh : Holds d₁.locals env state)
    (hagain : ∀ env origin state, Holds d₁.locals env state →
      m.Follows (d₁.point origin state) (d₄.fallenInto g.first g.last) j (again env)) :
    m.Follows (d₁.point origin state) (d₄.fallenInto g.first g.last) (j + 1)
      (.ofEval (fun w env => if w = 0 then .done (.next env) else (body.run k env).andThen again)
        (c.eval env)) := by
  obtain ⟨hb₂, ho₂, hbelow⟩ := Expr.value_beside hv
  obtain ⟨_, hfirst⟩ := hl.first
  obtain ⟨_, hsecond⟩ := hl.second
  obtain ⟨_, hlast⟩ := hl.last
  rw [← hl.current] at hfirst
  rw [← hl.bodyCurrent] at hsecond
  have ho₁ : d₁.isOpen := Draft.isOpen_iff.mpr ⟨_, hfirst, rfl⟩
  have ho₃ : d₃.isOpen := Draft.isOpen_iff.mpr ⟨_, hsecond, rfl⟩
  have ho₅ : (d₄.fallenInto g.first g.last).isOpen := Draft.isOpen_iff.mpr ⟨_, hlast, rfl⟩
  have hlocals₄ : d₄.locals = d₁.locals := (emit_beside hbody).locals.trans hlocals₃
  have hx₄ := (d₄.extends_fallenInto _ _).trans hx
  have hx₃ := (emit_beside hbody).code.trans hx₄
  have hx₂ := (Draft.extends_test (ho₂ ho₁) htest).trans hx₃
  refine .ofEval (Expr.Runs.value c.runs origin hv ho₁ hd hcc hx₂ hh) ?_
  intro w env₁ origin₁ s₁ hev
  obtain ⟨s₂, hsteps, hmemory, hkeeps⟩ := Machine.test_steps origin₁ (ho₂ ho₁) htest hx₃ hev.means
  have hh₂ := (hev.keep hd (hbelow hd) hkeeps hb₂.values hmemory).holds
  by_cases h0 : w = 0
  · rw [if_pos h0] at hsteps ⊢
    refine ⟨ho₅, 2, some d₂.current, s₂, ?_, hlocals₅ ▸ hh₂⟩
    rwa [Draft.point_of_empty hlast]
  · rw [if_neg h0] at hsteps ⊢
    have hrun := hb d₃ d₄ env₁ s₂ (some d₂.current) hbody ho₃ hd₃ (hlocals₃ ▸ hcb) hx₄
      (hlocals₃ ▸ hh₂)
    rw [Draft.point_of_empty hsecond, hl.bodyCurrent] at hrun
    refine ((hrun.mono hj).andThen fun env₃ origin₃ s₃ ho₄ hh₃ => ?_).of_steps hsteps
      (Nat.le_add_left _ _)
    have hback := Machine.step_fallenInto ho₄ hx origin₃ s₃
    have hnext := hagain env₃ (some d₄.current) s₃ (hlocals₄ ▸ hh₃)
    rw [Draft.point_of_empty hfirst, hl.current] at hnext
    exact hnext.of_steps (.one hback) (Nat.le_of_eq (Nat.add_comm j 1))

theorem whileLoop (hb : body.Runs m k) (hr : rest.Runs m k) :
    (whileLoop c body rest).Runs m k := by
  intro d d' env state origin hs ho hd hc hx hh
  obtain ⟨g, d₁, hloop, hs⟩ := bind_eq_ok_iff.mp hs
  obtain ⟨word, d₂, hv, hs⟩ := bind_eq_ok_iff.mp hs
  obtain ⟨_, d₃, htest, hs⟩ := bind_eq_ok_iff.mp hs
  obtain ⟨_, d₄, hbody, hs⟩ := bind_eq_ok_iff.mp hs
  obtain ⟨_, d₅, hfall, hs⟩ := bind_eq_ok_iff.mp hs
  obtain ⟨_, rfl⟩ := Build.fallInto_eq_ok_iff.mp hfall
  obtain ⟨hb₁, hfirst, hsecond, hlast⟩ := (Draft.Beside.refl d).loop hloop
  have hb₃ := (hb₁.within (Expr.value_beside hv).1).test hsecond hlast htest
  have hb₅ := (hb₃.within (emit_beside hbody)).fallInto hfirst hlast hfall
  have hl := Draft.loops (.of_isOpen ho) hloop (Expr.value_beside hv).1 htest (emit_beside hbody)
  have hx₅ := (emit_beside hs).code.trans hx
  obtain ⟨hc, hcr⟩ := List.forall_mem_append.mp hc
  obtain ⟨hcc, hcb⟩ := List.forall_mem_append.mp hc
  -- by induction on the iterations that are left
  have hiterate : ∀ j ≤ k, ∀ env origin state, Holds d₁.locals env state →
      m.Follows (d₁.point origin state) (d₄.fallenInto g.first g.last) j
        (iterate c.eval (body.run k) j env) := by
    intro j
    induction j with
    | zero => exact fun _ env origin state _ => ⟨0, _, Nat.le_refl 0, .refl _⟩
    | succ j ih =>
        intro hj env origin state hh
        exact iteration hb hj hv htest hbody hl (hd.beside hb₁) (hd.beside hb₃)
          (hb₃.locals.trans hb₁.locals.symm) (hb₅.locals.trans hb₁.locals.symm)
          (hb₁.locals ▸ hcc) (hb₁.locals ▸ hcb) hx₅ origin hh (ih (Nat.le_of_succ_le hj))
  have henter : m.Steps 1 (d.point origin state) (d₁.point (some d.current) state) := by
    obtain ⟨_, hfirst⟩ := hl.first
    rw [← hl.current] at hfirst
    obtain ⟨hb₂, ho₂, _⟩ := Expr.value_beside hv
    have ho₂ := ho₂ (Draft.isOpen_iff.mpr ⟨_, hfirst, rfl⟩)
    have hx₃ := (emit_beside hbody).code.trans ((d₄.extends_fallenInto _ _).trans hx₅)
    have hx₁ := hb₂.code.trans ((Draft.extends_test ho₂ htest).trans hx₃)
    exact Machine.loop_steps origin ho hloop hx₁ ⟨_, hfirst⟩
  refine ((hiterate k (Nat.le_refl k) env _ state (hb₁.locals ▸ hh)).of_steps henter
    (Nat.le_add_left k 1)).andThen fun env₁ origin₁ s₁ ho₁ hh₁ => ?_
  exact hr _ d' env₁ s₁ origin₁ hs ho₁ (hd.beside hb₅) (hb₅.locals ▸ hcr) hx hh₁

/-- A conditional statement without another arm runs as one with an empty arm. -/
theorem ifThen (hb : body.Runs m k) (hr : rest.Runs m k) : (ifThen c body rest).Runs m k := by
  intro d d' env state origin hs ho hd hc hx hh
  refine ifElse hb done hr d d' env state origin hs ho hd (fun x hxv => hc x ?_) hx hh
  simpa [names] using hxv

end Runs

theorem runs {m : Machine} {k : Nat} (s : Statements) : s.Runs m k := by
  induction s with
  | done => exact Runs.done
  | expression e rest ih => exact Runs.expression ih
  | null rest ih => exact ih
  | compound body rest ihb ihr => exact Runs.compound ihb ihr
  | ifThen c body rest ihb ihr => exact Runs.ifThen ihb ihr
  | ifElse c t e rest iht ihe ihr => exact Runs.ifElse iht ihe ihr
  | whileLoop c body rest ihb ihr => exact Runs.whileLoop ihb ihr
  | ret value rest _ => exact Runs.ret value

/-- Where the code of statements is the whole body of a function, the function returns what the
statements come to. -/
theorem returns_iff {m : Machine} {c : Config} {d : Draft} {s : Statements} {env : Env} {w : Word}
    (hrun : ∀ k, m.Follows c d k (s.run k env))
    (hend : d.isOpen → ∀ origin state, m.step (d.point origin state) = .returned 0) :
    (∃ n, m.run n c = some w) ↔ ∃ o, s.Exec env o ∧ o.word = w := by
  have hdone : ∀ {k o}, s.run k env = .done o → ∃ n, m.run n c = some o.word := by
    intro k o hk
    have hfollows := hrun k
    rw [hk] at hfollows
    cases o with
    | next env' =>
        obtain ⟨ho, n, origin, state, hsteps, _⟩ := hfollows
        refine ⟨n + 1, (hsteps.run_add 1).trans ?_⟩
        rw [Machine.run, hend ho]
        rfl
    | returned w => exact hfollows
  constructor
  · rintro ⟨n, hn⟩
    have hfollows := hrun (n + 1)
    cases hr : s.run (n + 1) env with
    | done o =>
        obtain ⟨k, hk⟩ := hdone hr
        exact ⟨o, exec_of_run hr, Machine.run_unique hk hn⟩
    | stuck =>
        rw [hr] at hfollows
        cases hn.symm.trans (Machine.Fails.run_eq_none hfollows n)
    | unfinished =>
        -- the machine has made more steps than it takes to return
        rw [hr] at hfollows
        obtain ⟨k, c', hk, hsteps⟩ := hfollows
        obtain ⟨j, rfl, _⟩ := hsteps.lt_of_run hn
        omega
  · rintro ⟨o, ho, rfl⟩
    obtain ⟨k, hk⟩ := exists_run_of_exec ho
    exact hdone hk

end Statements
end BCompiler
