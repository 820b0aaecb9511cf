import BCompiler.Proofs.Draft.Name
import BCompiler.Proofs.Draft.Total
import BCompiler.Proofs.Execution
import BCompiler.Proofs.Expression.Tree

/-!
Running the code of an expression.

The code computes the word of the expression and leaves in the stack slots what the variables hold
after it. If the evaluation divides by zero, the machine gets stuck in the code.
-/
namespace BCompiler

namespace Expr

/-- The code of an expression is of the known kinds. -/
theorem denote_emitting (e : Expr) (known : List Typed) :
    Emitting id known e.denote fun a known' => a.Known known' := by
  have hvalue : ∀ {e : Expr} (known : List Typed),
      (Emitting id known e.denote fun a known' => a.Known known') →
      Emitting id known (e.denote >>= Build.rvalue) fun v known' => (.word, v) ∈ known' :=
    fun _ h => .bind h fun _ _ _ ha => Build.rvalue_emitting ha
  induction e generalizing known with
  | constant n =>
      intro d a d' h
      obtain ⟨rfl, rfl⟩ := pure_eq_ok_iff.mp h
      exact ⟨_, .const n.word, .head _⟩
  | name x => exact Build.resolve_emitting x.text
  | negate e ih => exact .bind (ih known) fun _ _ _ ha => Sign.negate.apply_emitting ha
  | not e ih => exact .bind (ih known) fun _ _ _ ha => Sign.not.apply_emitting ha
  | binary op l r ihl ihr =>
      refine .bind (hvalue known (ihl known)) fun lhs known₁ _ hl => ?_
      refine .bind (hvalue known₁ (ihr known₁)) fun rhs known₂ h₂ hr => ?_
      exact .bind (op.apply_emitting (h₂ hl) hr) fun _ _ _ hv => .pure hv
  | conditional c t e ihc iht ihe =>
      intro d a d' h
      obtain ⟨word, d₁, hw, h⟩ := bind_eq_ok_iff.mp h
      obtain ⟨g, d₂, hf, h⟩ := bind_eq_ok_iff.mp h
      obtain ⟨thenValue, d₃, ht, h⟩ := bind_eq_ok_iff.mp h
      obtain ⟨exit, d₄, hl, h⟩ := bind_eq_ok_iff.mp h
      obtain ⟨_, d₅, hgo, h⟩ := bind_eq_ok_iff.mp h
      obtain ⟨elseValue, d₆, he, h⟩ := bind_eq_ok_iff.mp h
      obtain ⟨v, d₇, hj, h⟩ := bind_eq_ok_iff.mp h
      obtain ⟨rfl, rfl⟩ := pure_eq_ok_iff.mp h
      cases Build.switchTo_eq_ok_iff.mp hgo
      obtain ⟨known₁, hc₁, hk₁⟩ := hvalue known (ihc known) _ _ _ hw
      obtain ⟨known₂, hc₂, hk₂⟩ := hvalue known₁ (iht known₁) _ _ _ ht
      obtain ⟨known₃, hc₃, hk₃⟩ := hvalue known₁ (ihe known₁) _ _ _ he
      exact ⟨_, hc₁.trans (.conditional hk₁ hf hc₂ hk₂ hl hc₃ hk₃ hj), .head _⟩
  | assign op x e ih =>
      refine .bind (Build.resolve_emitting x.text) fun a known₁ _ ha => ?_
      cases a with
      | word value => exact .throw
      | function name => exact .throw
      | address address =>
          refine .bind (hvalue known₁ (ih known₁)) fun v known₂ h₂ hv => ?_
          exact .bind (Build.assign_emitting (h₂ ha) hv) fun _ _ _ hv => .pure hv
  | stepBefore k x =>
      exact .bind (Build.resolve_emitting x.text) fun _ _ _ ha => k.sign.apply_emitting ha
  | stepAfter k x =>
      refine .bind (Build.resolve_emitting x.text) fun _ _ _ ha => ?_
      exact .bind (Build.step_emitting k.op k.symbol ha) fun r _ _ hr => .pure hr.1

theorem value_emitting (e : Expr) (known : List Typed) :
    Emitting id known e.value fun v known' => (.word, v) ∈ known' :=
  .bind (e.denote_emitting known) fun _ _ _ ha => Build.rvalue_emitting ha

end Expr

/-- Names stand for values that are there. -/
def Draft.Scoped (d : Draft) : Prop :=
  ∀ x a, d.locals.lookup x = some a → a.Below d.function.nextValue

theorem Draft.Scoped.beside {d d' : Draft} {n : Nat} {c : BlockId} (h : d.Scoped)
    (hb : d.Beside n c d') : d'.Scoped :=
  fun x a hx => (h x a (hb.locals ▸ hx)).mono hb.values

theorem emit_below {operation : Operation} {d d' : Draft} {v : Operand}
    (hs : Build.emit operation d = .ok v d') : v.Below d'.function.nextValue := by
  obtain ⟨_, rfl, rfl⟩ := Build.emit_eq_ok_iff.mp hs
  rintro id ⟨⟩
  change d.function.nextValue < d.opened.function.nextValue + 1
  rw [Draft.nextValue_opened]
  exact Nat.lt_succ_self _

/-- The operands that become known are values that are there. -/
theorem Emission.operand_below {d d' : Draft} {known known' : List Typed}
    (hc : Emission d known d' known') (hd : d.Scoped)
    (hk : ∀ x ∈ known, x.2.Below d.function.nextValue) :
    ∀ x ∈ known', x.2.Below d'.function.nextValue := by
  have hb := Draft.Beside.emission hc
  have hold := fun x hx => (hk x hx).mono hb.values
  induction hc with
  | refl | string | declare | store => exact hold
  | trans hc₁ hc₂ ih₁ ih₂ =>
      have hb₁ := Draft.Beside.emission hc₁
      have hk₁ := ih₁ hd hk hb₁ fun x hx => (hk x hx).mono hb₁.values
      have hb₂ := Draft.Beside.emission hc₂
      exact ih₂ (hd.beside hb₁) hk₁ hb₂ fun x hx => (hk₁ x hx).mono hb₂.values
  | const | symbol =>
      intro x hx
      rcases List.mem_cons.mp hx with rfl | hx
      · nofun
      · exact hold x hx
  | slot hl =>
      intro x hx
      rcases List.mem_cons.mp hx with rfl | hx
      · exact hd _ _ hl
      · exact hold x hx
  | emit _ _ hs =>
      intro x hx
      rcases List.mem_cons.mp hx with rfl | hx
      · exact emit_below hs
      · exact hold x hx
  | conditional _ _ _ _ _ _ _ hj =>
      obtain ⟨_, _, _, hj⟩ := bind_eq_ok_iff.mp hj
      obtain ⟨_, _, _, hphi⟩ := bind_eq_ok_iff.mp hj
      intro x hx
      rcases List.mem_cons.mp hx with rfl | hx
      · exact emit_below hphi
      · exact hold x hx

/-- The stack slots hold the words of the variables, each at an address of its own. -/
structure Holds (locals : List (String × Operand)) (env : Env) (s : State) : Prop where
  slot : ∀ x a, locals.lookup x = some a →
    ∃ id place, a = .value id ∧ s.values id = some place ∧ s.memory place = env x
  distinct : ∀ x y i j place, locals.lookup x = some (.value i) →
    locals.lookup y = some (.value j) → s.values i = some place → s.values j = some place → x = y

namespace Holds

variable {d : Draft} {env : Env} {s s' : State}

theorem keep (h : Holds d.locals env s) (hd : d.Scoped) (hk : s.Keeps d.function.nextValue s')
    (hm : s'.memory = s.memory) : Holds d.locals env s' := by
  have hsame : ∀ x i, d.locals.lookup x = some (.value i) → s'.values i = s.values i :=
    fun x i hx => hk i (hd x _ hx i rfl)
  constructor
  · intro x a hx
    obtain ⟨id, place, rfl, hv, hplace⟩ := h.slot x a hx
    exact ⟨id, place, rfl, (hsame x id hx).trans hv, hm ▸ hplace⟩
  · intro x y i j place hx hy hi hj
    exact h.distinct x y i j place hx hy (hsame x i hx ▸ hi) (hsame y j hy ▸ hj)

theorem store {locals : List (String × Operand)} (h : Holds locals env s) {x : String}
    {id : ValueId} {place : Word} (hx : locals.lookup x = some (.value id))
    (hp : s.values id = some place) (w : Word) :
    Holds locals (env.set x w) (s.store place w) := by
  constructor
  · intro y a hy
    obtain ⟨j, other, rfl, hj, hother⟩ := h.slot y a hy
    refine ⟨j, other, rfl, hj, ?_⟩
    change (if other = place then w else s.memory other) = if y = x then w else env y
    by_cases he : other = place
    · subst he
      rw [if_pos rfl, if_pos (h.distinct y x j id other hy hx hj hp)]
    · rw [if_neg he, hother, if_neg]
      rintro rfl
      cases hx.symm.trans hy
      exact he (Option.some.inj (hj.symm.trans hp))
  · exact h.distinct

end Holds

/-- The word that a denotation stands for in a state. -/
def Denotation.Means (m : Machine) (s : State) (w : Word) : Denotation → Prop
  | .word v => m.operand s v = some w
  | .address a => ∃ place, m.operand s a = some place ∧ s.memory place = w
  | .function _ => False

/-- What is known when the code of an expression has run from the draft `d` and the state `s`. -/
structure Evaluated (m : Machine) (d : Draft) (s : State) (a : Denotation) (r : Word × Env)
    (s' : State) : Prop where
  means : a.Means m s' r.1
  holds : Holds d.locals r.2 s'
  keeps : s.Keeps d.function.nextValue s'

section Build

variable {m : Machine} {d d₁ d₂ d' : Draft} {n : Nat} {c : BlockId} {origin : Option BlockId}
  {s s₁ s₂ : State} {v : Operand} {a b : Denotation} {w w' : Word} {env : Env} {r r' : Word × Env}

theorem rvalue_computes (ho : d.isOpen) (hs : Build.rvalue a d = .ok v d')
    (hx : d'.function.Extends m.function) (ha : a.Means m s w) :
    m.Computes (d.point origin s) d' (some w) (m.Gives d s v) := by
  cases a with
  | word value =>
      obtain ⟨rfl, rfl⟩ := pure_eq_ok_iff.mp hs
      exact .pure ⟨ha, rfl, .refl _ s⟩
  | address address =>
      obtain ⟨place, hplace, rfl⟩ := ha
      exact Machine.load_computes ho hs hx hplace
  | function name => exact ha.elim

theorem Op.apply_computes {op : Op} {lhs rhs : Operand} (ho : d.isOpen)
    (hs : op.apply lhs rhs d = .ok v d') (hx : d'.function.Extends m.function)
    (hl : m.operand s lhs = some w) (hr : m.operand s rhs = some w') :
    m.Computes (d.point origin s) d' (op.eval w w') (m.Gives d s v) := by
  cases op with
  | binary op => exact Machine.binary_computes ho hs hx hl hr
  | compare pred => exact Machine.compare_computes ho hs hx hl hr

theorem Machine.operand_store (place w : Word) (v : Operand) :
    m.operand (s.store place w) v = m.operand s v := by cases v <;> rfl

namespace Evaluated

/-- One more instruction that gives a word. -/
theorem gives (h : Evaluated m d s a (w, env) s₁) (hd : d.Scoped) (hb : d.Beside n c d₁)
    (hg : m.Gives d₁ s₁ v w' s₂) : Evaluated m d s (.word v) (w', env) s₂ where
  means := hg.operand
  holds := h.holds.keep hd (fun id hid => hg.keeps id (Nat.lt_of_lt_of_le hid hb.values)) hg.memory
  keeps := h.keeps.trans hg.keeps hb.values

/-- Steps that leave memory alone, and the values so far. -/
theorem keep {k : Nat} (h : Evaluated m d s (.word v) r s₁) (hd : d.Scoped) (hv : v.Below k)
    (hk : s₁.Keeps k s₂) (hle : d.function.nextValue ≤ k) (hm : s₂.memory = s₁.memory) :
    Evaluated m d s (.word v) r s₂ where
  means := (Machine.operand_of_keeps hv hk).trans h.means
  holds := h.holds.keep hd (fun id hid => hk id (Nat.lt_of_lt_of_le hid hle)) hm
  keeps := h.keeps.trans hk hle

theorem trans (h : Evaluated m d s a r s₁) (hb : d.Beside n c d₁)
    (h' : Evaluated m d₁ s₁ b r' s₂) : Evaluated m d s b r' s₂ :=
  ⟨h'.means, hb.locals ▸ h'.holds, h.keeps.trans h'.keeps hb.values⟩

theorem rvalue (h : Evaluated m d s a (w, env) s₁) (hd : d.Scoped) (hb : d.Beside n c d₁)
    (ho : d₁.isOpen) (hs : Build.rvalue a d₁ = .ok v d₂) (hx : d₂.function.Extends m.function) :
    m.Computes (d₁.point origin s₁) d₂ (some (w, env)) (Evaluated m d s (.word v)) :=
  (rvalue_computes ho hs hx h.means).bind (f := fun w => some (w, env)) fun _ _ _ _ hg =>
    .pure (h.gives hd hb hg)

/-- The word is stored in the slot of a variable. -/
theorem store {x : String} {id : ValueId} {u : Unit} (h : Evaluated m d s (.word v) (w, env) s₁)
    (hlookup : d.locals.lookup x = some (.value id)) (ho : d₁.isOpen)
    (hs : Build.store v (.value id) d₁ = .ok u d₂) (hx : d₂.function.Extends m.function) :
    m.Computes (d₁.point origin s₁) d₂ (some (w, env.set x w)) (Evaluated m d s (.word v)) := by
  obtain ⟨_, place, he, hp, _⟩ := h.holds.slot x _ hlookup
  cases he
  refine (Machine.store_computes ho hs hx h.means hp).bind
    (f := fun _ => some (w, env.set x w)) fun _ _ s₂ _ hs₂ => .pure ?_
  subst hs₂
  exact ⟨(Machine.operand_store place w v).trans h.means, h.holds.store hlookup hp w, h.keeps⟩

end Evaluated

theorem Count.eval_op (k : Count) (w : Word) : k.op.eval w 1 = some (k.next w) := by
  cases k <;> rfl

/-- One more or one less in the slot of a variable; the old word is still there. -/
theorem step_computes {k : Count} {spelling x : String} {id : ValueId} {p : Operand × Operand}
    (origin : Option BlockId) (hh : Holds d.locals env s) (hd : d.Scoped) (ho : d.isOpen)
    (hlookup : d.locals.lookup x = some (.value id))
    (hs : Build.step k.op spelling (.address (.value id)) d = .ok p d')
    (hx : d'.function.Extends m.function) :
    p.2 = .value id ∧ m.Computes (d.point origin s) d' (some (env.set x (k.next (env x))))
      fun env' s' => Evaluated m d s (.word p.1) (env x, env') s' ∧
        ( Denotation.address (.value id)).Means m s' (k.next (env x)) := by
  obtain ⟨old, d₁, hload, hs⟩ := bind_eq_ok_iff.mp hs
  obtain ⟨new, d₂, hnew, hs⟩ := bind_eq_ok_iff.mp hs
  obtain ⟨_, d₃, hstore, hs⟩ := bind_eq_ok_iff.mp hs
  obtain ⟨rfl, rfl⟩ := pure_eq_ok_iff.mp hs
  obtain ⟨_, place, he, hp, hplace⟩ := hh.slot x _ hlookup
  cases he
  have hb₁ := (Draft.Beside.refl d).emit hload
  have hb₂ := (Draft.Beside.refl d₁).emit hnew
  have hb₃ := (Draft.Beside.refl d₂).store hstore
  have hfirst : Evaluated m d s (.address (.value id)) (env x, env) s :=
    ⟨⟨place, hp, hplace⟩, hh, .refl _ s⟩
  refine ⟨rfl, ?_⟩
  refine (hfirst.rvalue hd (.refl d) ho hload (hb₂.code.trans (hb₃.code.trans hx))).bind
    (f := fun r => some (r.2.set x (k.next (env x)))) ?_
  rintro _ origin₁ s₁ ⟨⟩ hold
  have hadd : m.Computes (d₁.point origin₁ s₁) d₂ (k.op.eval (env x) 1) (m.Gives d₁ s₁ new) :=
    Machine.binary_computes (Draft.isOpen_emit hload) hnew (hb₃.code.trans hx) hold.means rfl
  rw [k.eval_op] at hadd
  refine hadd.bind (f := fun _ => some (env.set x (k.next (env x)))) ?_
  rintro _ origin₂ s₂ ⟨⟩ hg
  have hsum := hold.gives hd hb₁ hg
  have hid : s₂.values id = some place := (hsum.keeps id (hd x _ hlookup id rfl)).trans hp
  refine (Machine.store_computes (Draft.isOpen_emit hnew) hstore hx hsum.means hid).bind
    (f := fun _ => some (env.set x (k.next (env x)))) ?_
  rintro _ origin₃ s₃ _ rfl
  refine .pure ⟨⟨?_, hsum.holds.store hlookup hid _, hsum.keeps⟩, place, hid, if_pos rfl⟩
  change m.operand (s₂.store place (k.next (env x))) old = some (env x)
  rw [Machine.operand_store, Machine.operand_of_keeps (emit_below hload) hg.keeps]
  exact hold.means

end Build

namespace Expr

variable {m : Machine} {e : Expr} {d d' : Draft}

/-- Every variable of the expression is a local name. -/
def ClosedIn (locals : List (String × Operand)) (e : Expr) : Prop :=
  ∀ x ∈ e.names, (locals.lookup x.text).isSome

/-- Running the code of the expression gives its word. -/
def Runs (m : Machine) (e : Expr) : Prop :=
  ∀ {d d' : Draft} {a : Denotation} {env : Env} {s : State} (origin : Option BlockId),
    e.denote d = .ok a d' → d.isOpen → d.Scoped → e.ClosedIn d.locals →
    d'.function.Extends m.function → Holds d.locals env s →
    m.Computes (d.point origin s) d' (e.eval env) (Evaluated m d s a)

theorem value_beside {v : Operand} (hs : e.value d = .ok v d') :
    d.Beside d.function.blocks.length d.current d' ∧ (d.isOpen → d'.isOpen) ∧
      (d.Scoped → v.Below d'.function.nextValue) := by
  obtain ⟨known, hc, hv⟩ := e.value_emitting [] d v d' hs
  exact ⟨Draft.Beside.emission hc, Draft.isOpen_emission hc,
    fun hd => hc.operand_below hd nofun _ hv⟩

theorem Runs.value {v : Operand} {env : Env} {s : State} (h : e.Runs m)
    (origin : Option BlockId) (hs : e.value d = .ok v d') (ho : d.isOpen) (hd : d.Scoped)
    (hc : e.ClosedIn d.locals) (hx : d'.function.Extends m.function) (hh : Holds d.locals env s) :
    m.Computes (d.point origin s) d' (e.eval env) (Evaluated m d s (.word v)) := by
  obtain ⟨a, d₁, ha, hr⟩ := bind_eq_ok_iff.mp hs
  obtain ⟨known, hc₁, hk⟩ := e.denote_emitting [] d a d₁ ha
  obtain ⟨_, hc₂, _⟩ := Build.rvalue_emitting hk d₁ v d' hr
  have hrun := h origin ha ho hd hc ((Draft.Beside.emission hc₂).code.trans hx) hh
  exact hrun.extend fun _ _ _ hev =>
    hev.rvalue hd (Draft.Beside.emission hc₁) (Draft.isOpen_emission hc₁ ho) hr hx

namespace Runs

variable {l r t : Expr}

theorem constant (n : Numeral) : (Expr.constant n).Runs m := by
  intro d d' a env s origin hs ho hd hc hx hh
  obtain ⟨rfl, rfl⟩ := pure_eq_ok_iff.mp hs
  exact .pure ⟨rfl, hh, .refl _ s⟩

theorem name (x : Name) : (Expr.name x).Runs m := by
  intro d d' a env s origin hs ho hd hc hx hh
  obtain ⟨address, hl⟩ := Option.isSome_iff_exists.mp (hc x (.head _))
  cases hs.symm.trans (Build.resolve_local hl).1
  obtain ⟨id, place, rfl, hid, hplace⟩ := hh.slot x.text _ hl
  exact .pure ⟨⟨place, hid, hplace⟩, hh, .refl _ s⟩

theorem negate (h : e.Runs m) : e.negate.Runs m := by
  intro d d' a env s origin hs ho hd hc hx hh
  obtain ⟨b, d₁, hb, hs⟩ := bind_eq_ok_iff.mp hs
  obtain ⟨v, d₂, hr, hs⟩ := bind_eq_ok_iff.mp hs
  obtain ⟨w, _, hw, hs⟩ := bind_eq_ok_iff.mp hs
  obtain ⟨rfl, rfl⟩ := pure_eq_ok_iff.mp hs
  have hv : e.value d = .ok v d₂ := bind_eq_ok_iff.mpr ⟨b, d₁, hb, hr⟩
  obtain ⟨hbeside, hopen, _⟩ := value_beside hv
  have hx₂ := ((Draft.Beside.refl d₂).emit hw).code.trans hx
  refine (h.value origin hv ho hd hc hx₂ hh).bind ?_
  rintro ⟨n, env₁⟩ origin₁ s₁ _ hev
  have hsub : m.Computes (d₂.point origin₁ s₁) d' (some (-n)) (m.Gives d₂ s₁ w) := by
    rw [← Int64.zero_sub]
    exact Machine.binary_computes (hopen ho) hw hx rfl hev.means
  exact hsub.bind (f := fun w => some (w, env₁)) fun _ _ _ _ hg => .pure (hev.gives hd hbeside hg)

theorem not (h : e.Runs m) : e.not.Runs m := by
  intro d d' a env s origin hs ho hd hc hx hh
  obtain ⟨b, d₁, hb, hs⟩ := bind_eq_ok_iff.mp hs
  obtain ⟨v, d₂, hr, hs⟩ := bind_eq_ok_iff.mp hs
  obtain ⟨w, _, hw, hs⟩ := bind_eq_ok_iff.mp hs
  obtain ⟨rfl, rfl⟩ := pure_eq_ok_iff.mp hs
  have hv : e.value d = .ok v d₂ := bind_eq_ok_iff.mpr ⟨b, d₁, hb, hr⟩
  obtain ⟨hbeside, hopen, _⟩ := value_beside hv
  obtain ⟨_, hc₃, _⟩ := Build.compare_emitting .eq (.head [(.word, .const 0)]) (.tail _ (.head _))
    d₂ w d' hw
  refine (h.value origin hv ho hd hc ((Draft.Beside.emission hc₃).code.trans hx) hh).bind ?_
  rintro ⟨n, env₁⟩ origin₁ s₁ _ hev
  have heq : m.Computes (d₂.point origin₁ s₁) d' (some (.ofBool (n == 0))) (m.Gives d₂ s₁ w) :=
    Machine.compare_computes (hopen ho) hw hx hev.means rfl
  exact heq.bind (f := fun w => some (w, env₁)) fun _ _ _ _ hg => .pure (hev.gives hd hbeside hg)

theorem binary (op : Op) (hl : l.Runs m) (hr : r.Runs m) : (Expr.binary op l r).Runs m := by
  intro d d' a env s origin hs ho hd hc hx hh
  obtain ⟨lhs, d₁, hlhs, hs⟩ := bind_eq_ok_iff.mp hs
  obtain ⟨rhs, d₂, hrhs, hs⟩ := bind_eq_ok_iff.mp hs
  obtain ⟨v, _, happly, hs⟩ := bind_eq_ok_iff.mp hs
  obtain ⟨rfl, rfl⟩ := pure_eq_ok_iff.mp hs
  obtain ⟨hb₁, ho₁, hbelow⟩ := value_beside hlhs
  obtain ⟨hb₂, ho₂, _⟩ := value_beside hrhs
  obtain ⟨_, hc₃, _⟩ := op.apply_emitting (.head [(.word, rhs)]) (.tail _ (.head _)) d₂ v d' happly
  have hx₂ := (Draft.Beside.emission hc₃).code.trans hx
  have hcl : l.ClosedIn d.locals := fun x h => hc x (List.mem_append_left _ h)
  have hcr : r.ClosedIn d₁.locals := fun x h => hb₁.locals ▸ hc x (List.mem_append_right _ h)
  refine (hl.value origin hlhs ho hd hcl (hb₂.code.trans hx₂) hh).bind ?_
  rintro ⟨x, env₁⟩ origin₁ s₁ _ hev₁
  refine (hr.value origin₁ hrhs (ho₁ ho) (hd.beside hb₁) hcr hx₂ (hb₁.locals ▸ hev₁.holds)).bind ?_
  rintro ⟨y, env₂⟩ origin₂ s₂ _ hev₂
  have hlhs₂ : m.operand s₂ lhs = some x :=
    (Machine.operand_of_keeps (hbelow hd) hev₂.keeps).trans hev₁.means
  have hop : m.Computes (d₂.point origin₂ s₂) d' (op.eval x y) (m.Gives d₂ s₂ v) :=
    Op.apply_computes (ho₂ (ho₁ ho)) happly hx hlhs₂ hev₂.means
  exact hop.bind fun _ _ _ _ hg =>
    .pure ((hev₁.trans hb₁ hev₂).gives hd (hb₁.within hb₂) hg)

theorem stepBefore (k : Count) (x : Name) : (Expr.stepBefore k x).Runs m := by
  intro d d' a env s origin hs ho hd hc hx hh
  obtain ⟨address, hl⟩ := Option.isSome_iff_exists.mp (hc x (.head _))
  obtain ⟨id, _, rfl, _, _⟩ := hh.slot x.text _ hl
  obtain ⟨_, _, hres, hs⟩ := bind_eq_ok_iff.mp hs
  cases hres.symm.trans (Build.resolve_local hl).1
  have hsign : ∃ p, Build.step k.op k.symbol (.address (.value id)) d = .ok p d' ∧
      a = .address p.2 := by
    cases k
    all_goals
      obtain ⟨p, _, hp, hs⟩ := bind_eq_ok_iff.mp hs
      obtain ⟨rfl, rfl⟩ := pure_eq_ok_iff.mp hs
      exact ⟨p, hp, rfl⟩
  obtain ⟨p, hstep, rfl⟩ := hsign
  obtain ⟨hp, hrun⟩ := step_computes origin hh hd ho hl hstep hx
  rw [hp]
  refine hrun.bind (f := fun env' => some (k.next (env x.text), env')) ?_
  rintro env' origin₁ s₁ _ ⟨hev, hmeans⟩
  exact .pure ⟨hmeans, hev.holds, hev.keeps⟩

theorem stepAfter (k : Count) (x : Name) : (Expr.stepAfter k x).Runs m := by
  intro d d' a env s origin hs ho hd hc hx hh
  obtain ⟨address, hl⟩ := Option.isSome_iff_exists.mp (hc x (.head _))
  obtain ⟨id, _, rfl, _, _⟩ := hh.slot x.text _ hl
  obtain ⟨_, _, hres, hs⟩ := bind_eq_ok_iff.mp hs
  cases hres.symm.trans (Build.resolve_local hl).1
  obtain ⟨p, d₁, hstep, hs⟩ := bind_eq_ok_iff.mp hs
  obtain ⟨rfl, rfl⟩ := pure_eq_ok_iff.mp hs
  obtain ⟨_, hrun⟩ := step_computes origin hh hd ho hl hstep hx
  refine hrun.bind (f := fun env' => some (env x.text, env')) ?_
  rintro env' origin₁ s₁ _ ⟨hev, _⟩
  exact .pure hev

theorem assign (op : Option Op) (x : Name) (h : e.Runs m) : (Expr.assign op x e).Runs m := by
  intro d d' a env s origin hs ho hd hc hx hh
  obtain ⟨address, hl⟩ := Option.isSome_iff_exists.mp (hc x (.head _))
  obtain ⟨id, _, rfl, _, _⟩ := hh.slot x.text _ hl
  obtain ⟨_, _, hres, hs⟩ := bind_eq_ok_iff.mp hs
  cases hres.symm.trans (Build.resolve_local hl).1
  obtain ⟨v, d₁, hv, hs⟩ := bind_eq_ok_iff.mp hs
  obtain ⟨v', _, hassign, hs⟩ := bind_eq_ok_iff.mp hs
  obtain ⟨rfl, rfl⟩ := pure_eq_ok_iff.mp hs
  obtain ⟨hb₁, ho₁, hbelow⟩ := value_beside hv
  obtain ⟨_, hc₂, _⟩ :=
    Build.assign_emitting (.head [(.word, v)]) (.tail _ (.head _)) d₁ v' d' hassign
  have hce : e.ClosedIn d.locals := fun y hy => hc y (.tail _ hy)
  have hrun := h.value origin hv ho hd hce ((Draft.Beside.emission hc₂).code.trans hx) hh
  cases op with
  | none =>
      obtain ⟨_, _, hstore, hs⟩ := bind_eq_ok_iff.mp hassign
      obtain ⟨rfl, rfl⟩ := pure_eq_ok_iff.mp hs
      refine hrun.bind ?_
      rintro ⟨w, env₁⟩ origin₁ s₁ _ hev
      exact hev.store hl (ho₁ ho) hstore hx
  | some op =>
      obtain ⟨old, d₂, hload, hs⟩ := bind_eq_ok_iff.mp hassign
      obtain ⟨joined, d₃, happly, hs⟩ := bind_eq_ok_iff.mp hs
      obtain ⟨_, _, hstore, hs⟩ := bind_eq_ok_iff.mp hs
      obtain ⟨rfl, rfl⟩ := pure_eq_ok_iff.mp hs
      obtain ⟨_, hc₃, _⟩ :=
        op.apply_emitting (.head [(.word, v)]) (.tail _ (.head _)) d₂ v' d₃ happly
      have hb₂ := hb₁.emit hload
      have hb₃ := Draft.Beside.emission hc₃
      have hopen₂ := Draft.isOpen_emit hload
      have hopen₃ := Draft.isOpen_emission hc₃ hopen₂
      have hx₃ := ((Draft.Beside.refl d₃).store hstore).code.trans hx
      refine hrun.bind ?_
      rintro ⟨w, env₁⟩ origin₁ s₁ _ hev
      obtain ⟨_, place, he, hid, hplace⟩ := hev.holds.slot x.text _ hl
      cases he
      -- the old word is read only now, when the right side has been evaluated
      have hread :
          m.Computes (d₁.point origin₁ s₁) d₂ (some (env₁ x.text)) (m.Gives d₁ s₁ old) := by
        rw [← show s₁.memory place = env₁ x.text from hplace]
        exact Machine.load_computes (ho₁ ho) hload (hb₃.code.trans hx₃) hid
      refine hread.bind (f := fun z => (op.eval z w).bind fun z => some (z, env₁.set x.text z)) ?_
      intro z origin₂ s₂ _ hg
      have hv₂ : m.operand s₂ v = some w :=
        (Machine.operand_of_keeps (hbelow hd) hg.keeps).trans hev.means
      refine (Op.apply_computes hopen₂ happly hx₃ hg.operand hv₂).bind ?_
      intro z' origin₃ s₃ _ hg₃
      exact ((hev.gives hd hb₁ hg).gives hd hb₂ hg₃).store hl hopen₃ hstore hx

/-- An arm of a conditional ends with a branch to the block where the arms meet, whose phi takes the
word of the arm. -/
theorem arm {d₁ d₂ : Draft} {last : BlockId} {arms : List (Operand × BlockId)}
    {name : String} {value v : Operand} {s : State} {w : Word} (origin : Option BlockId)
    (ho : d.isOpen) (hx : (d.endedBy (.branch last)).function.Extends m.function)
    (hempty : d₁.function.blocks[d₁.current]? = some (.empty name)) (hlast : d₁.current = last)
    (hphi : Build.phi arms d₁ = .ok v d₂) (hx₂ : d₂.function.Extends m.function)
    (hfind : arms.find? (fun arm => some arm.2 == some d.current) = some (value, d.current))
    (hvalue : m.operand s value = some w) :
    m.Computes (d.point origin s) d₂ (some w) (m.Gives d₁ s v) := by
  have hstep := Machine.step_endedBy ho hx origin s
  have henter : (d.point origin s).enter last = d₁.point (some d.current) s := by
    rw [Draft.point_of_empty hempty, hlast]
    rfl
  have hopen : d₁.isOpen := Draft.isOpen_iff.mpr ⟨_, hempty, rfl⟩
  rw [Machine.terminator, henter] at hstep
  refine .of_steps (.one hstep) (Machine.emit_computes hopen hphi hx₂ ?_)
  simp only [Machine.operation, hfind, Option.bind_eq_bind, Option.bind_some, hvalue,
    Option.map_some]
  rfl

theorem conditional {c : Expr} (hc : c.Runs m) (ht : t.Runs m) (he : e.Runs m) :
    (Expr.conditional c t e).Runs m := by
  intro d d' a env s origin hs ho hd hcl hx hh
  obtain ⟨word, d₁, hword, hs⟩ := bind_eq_ok_iff.mp hs
  obtain ⟨g, d₂, hf, hs⟩ := bind_eq_ok_iff.mp hs
  obtain ⟨thenValue, d₃, hthen, hs⟩ := bind_eq_ok_iff.mp hs
  obtain ⟨exit, d₄, hleave, hs⟩ := bind_eq_ok_iff.mp hs
  obtain ⟨_, d₅, hgo, hs⟩ := bind_eq_ok_iff.mp hs
  obtain ⟨elseValue, d₆, helse, hs⟩ := bind_eq_ok_iff.mp hs
  obtain ⟨v, _, hjoin, hs⟩ := bind_eq_ok_iff.mp hs
  obtain ⟨rfl, rfl⟩ := pure_eq_ok_iff.mp hs
  obtain ⟨elseExit, d₇, hleave', hjoin⟩ := bind_eq_ok_iff.mp hjoin
  obtain ⟨_, d₈, hgo', hphi⟩ := bind_eq_ok_iff.mp hjoin
  cases Build.switchTo_eq_ok_iff.mp hgo
  cases Build.switchTo_eq_ok_iff.mp hgo'
  obtain ⟨hb₁, ho₁, hbelow⟩ := value_beside hword
  obtain ⟨hb₃, ho₃, _⟩ := value_beside hthen
  obtain ⟨hb₆, ho₆, _⟩ := value_beside helse
  have hopen₁ := ho₁ ho
  obtain ⟨hcurrent, ⟨_, hfirst⟩, hopen₃, rfl, rfl, ⟨_, hsecond⟩, hopen₆, rfl, rfl, ⟨_, hlast⟩,
      hexits⟩ := Draft.conditional (.of_isOpen hopen₁) hf hb₃ ho₃ hleave hb₆ ho₆ hleave'
  -- the machine has the code of every draft on the way
  have hx₇ := ((Draft.Beside.refl _).emit hphi).code.trans hx
  have hx₆ := (Draft.extends_endedBy hopen₆ _).trans hx₇
  have hx₄ := hb₆.code.trans hx₆
  have hx₃ := (Draft.extends_endedBy hopen₃ _).trans hx₄
  have hx₂ := hb₃.code.trans hx₃
  have hx₁ := ((Draft.Beside.refl d₁).fork hf).1.code.trans hx₂
  -- what the parts leave alone, from the beginning on
  obtain ⟨hb₂, hsecond_le, hlast_le⟩ := hb₁.fork hf
  have hb₅ := ((hb₂.within hb₃).leave hlast_le hleave).goTo hsecond_le
  have hb₈ := ((hb₅.within hb₆).leave hlast_le hleave').goTo hlast_le
  refine (hc.value origin hword ho hd ?_ hx₁ hh).bind ?_
  · exact fun x hx => hcl x (List.mem_append_left _ (List.mem_append_left _ hx))
  rintro ⟨w, env₁⟩ origin₁ s₁ _ hev₁
  obtain ⟨s₂, hsteps, hmemory, hkeeps⟩ := Machine.fork_steps origin₁ hopen₁ hf hx₂ hev₁.means
  have hev₂ := hev₁.keep hd (hbelow hd) hkeeps hb₁.values hmemory
  refine .of_steps hsteps ?_
  change m.Computes _ _ (if w = 0 then e.eval env₁ else t.eval env₁) _
  by_cases h0 : w = 0
  · rw [if_pos h0, if_pos h0]
    have hopen₅ : ((d₃.endedBy (.branch g.last)).goTo g.second).isOpen :=
      Draft.isOpen_iff.mpr ⟨_, hsecond, rfl⟩
    have hce : e.ClosedIn ((d₃.endedBy (.branch g.last)).goTo g.second).locals :=
      fun x hx => hb₅.locals ▸ hcl x (List.mem_append_right _ hx)
    have hrun := he.value (some d₁.current) helse hopen₅ (hd.beside hb₅) hce hx₆
      (hb₅.locals ▸ hev₂.holds)
    rw [Draft.point_of_empty hsecond] at hrun
    refine hrun.extend ?_
    rintro ⟨z, env₂⟩ origin₃ s₃ hev₃
    have hmeet := arm origin₃ hopen₆ hx₇ hlast rfl hphi hx (by simp [hexits]) hev₃.means
    exact hmeet.bind (f := fun z => some (z, env₂)) fun _ _ _ _ hg =>
      .pure ((hev₂.trans hb₅ hev₃).gives hd hb₈ hg)
  · rw [if_neg h0, if_neg h0]
    have hopen₂ : d₂.isOpen := Draft.isOpen_iff.mpr ⟨_, hcurrent ▸ hfirst, rfl⟩
    have hct : t.ClosedIn d₂.locals := fun x hx =>
      hb₂.locals ▸ hcl x (List.mem_append_left _ (List.mem_append_right _ hx))
    have hrun := ht.value (some d₁.current) hthen hopen₂ (hd.beside hb₂) hct hx₃
      (hb₂.locals ▸ hev₂.holds)
    rw [Draft.point_of_empty (hcurrent.symm ▸ hfirst), hcurrent] at hrun
    refine hrun.extend ?_
    rintro ⟨z, env₂⟩ origin₃ s₃ hev₃
    have hmeet := arm origin₃ hopen₃ hx₄ hlast rfl hphi hx (by simp) hev₃.means
    exact hmeet.bind (f := fun z => some (z, env₂)) fun _ _ _ _ hg =>
      .pure ((hev₂.trans hb₂ hev₃).gives hd hb₈ hg)

end Runs

theorem runs (e : Expr) : e.Runs m := by
  induction e with
  | constant n => exact Runs.constant n
  | name x => exact Runs.name x
  | negate e ih => exact Runs.negate ih
  | not e ih => exact Runs.not ih
  | binary op l r ihl ihr => exact Runs.binary op ihl ihr
  | conditional c t e ihc iht ihe => exact Runs.conditional ihc iht ihe
  | assign op x e ih => exact Runs.assign op x ih
  | stepBefore k x => exact Runs.stepBefore k x
  | stepAfter k x => exact Runs.stepAfter k x

section Sure

variable {locals : List (String × Operand)} {n : Nat}

/-- A step that goes on from the slot of a variable. -/
theorem resolve_sure {β : Type} {x : String} {f : Denotation → Build β}
    (hx : (locals.lookup x).isSome) (hf : ∀ address, Build.Sure locals n (f (.address address))) :
    Build.Sure locals n (Build.resolve x >>= f) := by
  intro d hd
  obtain ⟨address, hl⟩ := Option.isSome_iff_exists.mp hx
  obtain ⟨b, d', hb, hd'⟩ := hf address d hd
  have hres := (Build.resolve_local (hd.locals.symm ▸ hl)).1
  exact ⟨b, d', bind_eq_ok_iff.mpr ⟨_, _, hres, hb⟩, hd'⟩

theorem conditional_sure {c t e : Build Operand} (hc : Build.Sure locals n c)
    (ht : ∀ k, Build.Sure locals k t) (he : ∀ k, Build.Sure locals k e) :
    Build.Sure locals n (do
      let group ← Build.fork "cond" (← c)
      let thenValue ← t
      let thenExit ← Build.leave group.last
      Build.switchTo group.second
      let elseValue ← e
      return Denotation.word (← Build.join group.last thenValue thenExit elseValue)) := by
  intro d hd
  obtain ⟨word, d₁, hword, hd₁⟩ := hc d hd
  obtain ⟨d₂, hfork, hd₂⟩ := Build.fork_sure "cond" word hd₁
  have hblocks : d₁.group.second < d₁.function.blocks.length + 3 ∧
      d₁.group.last < d₁.function.blocks.length + 3 := by
    unfold Draft.group
    exact ⟨by simp, by simp⟩
  have hrest := (ht _).bind fun thenValue => (Build.leave_sure d₁.group.last).bind fun thenExit =>
    (Build.switchTo_sure hblocks.1).bind fun _ => (he _).bind fun elseValue =>
    (Build.join_sure hblocks.2 thenValue thenExit elseValue).bind fun v =>
      .pure ( Denotation.word v)
  obtain ⟨a, d', ha, hd'⟩ := hrest d₂ hd₂
  refine ⟨a, d', ?_, hd'.lower (Nat.le_add_right_of_le hd₁.length)⟩
  exact bind_eq_ok_iff.mpr ⟨_, _, hword, bind_eq_ok_iff.mpr ⟨_, _, hfork, ha⟩⟩

/-- The code of an expression can be added wherever its variables are local names. -/
theorem denote_sure (e : Expr) (hc : e.ClosedIn locals) (n : Nat) :
    Build.Sure locals n e.denote := by
  have hvalue : ∀ {e : Expr}, (∀ k, Build.Sure locals k e.denote) →
      ∀ k, Build.Sure locals k (e.denote >>= Build.rvalue) :=
    fun h k => (h k).bind Build.rvalue_sure
  induction e generalizing n with
  | constant w => exact .pure _
  | name x =>
      have hres : Build.Sure locals n (Build.resolve x.text >>= pure) :=
        resolve_sure (hc x (.head _)) fun _ => .pure _
      rwa [bind_pure] at hres
  | negate e ih =>
      refine (ih hc n).bind fun a => (Build.rvalue_sure a).bind fun v => ?_
      exact (Build.emit_sure _).bind fun _ => .pure _
  | not e ih =>
      refine (ih hc n).bind fun a => (Build.rvalue_sure a).bind fun v => ?_
      exact (Build.apply_sure (.compare .eq) _ _).bind fun _ => .pure _
  | binary op l r ihl ihr =>
      have hl := hvalue (ihl fun x h => hc x (List.mem_append_left _ h)) n
      have hr := hvalue (ihr fun x h => hc x (List.mem_append_right _ h)) n
      exact hl.bind fun _ => hr.bind fun _ => (Build.apply_sure op _ _).bind fun _ => .pure _
  | conditional c t e ihc iht ihe =>
      have hcv := hvalue (ihc fun x h =>
        hc x (List.mem_append_left _ (List.mem_append_left _ h))) n
      have htv := hvalue (iht fun x h =>
        hc x (List.mem_append_left _ (List.mem_append_right _ h)))
      have hev := hvalue (ihe fun x h => hc x (List.mem_append_right _ h))
      exact conditional_sure hcv htv hev
  | assign op x e ih =>
      refine resolve_sure (hc x (.head _)) fun address => ?_
      have hev := hvalue (ih fun y h => hc y (.tail _ h)) n
      exact hev.bind fun _ => (Build.assign_sure op address _).bind fun _ => .pure _
  | stepBefore k x =>
      refine resolve_sure (hc x (.head _)) fun address => ?_
      cases k
      · exact (Build.step_sure .add "++" address).bind fun _ => .pure _
      · exact (Build.step_sure .sub "--" address).bind fun _ => .pure _
  | stepAfter k x =>
      refine resolve_sure (hc x (.head _)) fun address => ?_
      exact (Build.step_sure k.op k.symbol address).bind fun _ => .pure _

theorem value_sure (e : Expr) (hc : e.ClosedIn locals) (n : Nat) :
    Build.Sure locals n e.value :=
  (e.denote_sure hc n).bind Build.rvalue_sure

end Sure

end Expr
end BCompiler
