import BCompiler.Proofs.Fault

/-!
The bound on the nesting of a text.

Every level of nesting reads a character, except that a statement, an expression, an operand with
its signs and an operand without them may begin at the same one. So the bound that is set by the
length of a text is never too small, and no greater one changes the result.
-/
namespace BCompiler
namespace Pass

variable {σ α β : Type}

/-- Where less than `n` characters are left, the step is not nested too deep, and less than `m` of
them are left when it succeeds. -/
structure Fits (n : Nat) (m : α → Nat) (x : Pass σ α) : Prop where
  ok : ∀ {s a t}, s.cursor.unread.length < n → x s = .ok a t → t.cursor.unread.length < m a
  error : ∀ {s e t}, s.cursor.unread.length < n → x s = .error e t → e ≠ .internal .tooDeep

namespace Fits

variable {n : Nat} {m : α → Nat}

/-- No text has less than no characters. -/
theorem none {x : Pass σ α} (h : n = 0) : Fits n m x := by
  subst h
  exact ⟨nofun, nofun⟩

theorem pure {a : α} (h : n ≤ m a) : Fits n m (Pure.pure a : Pass σ α) := by
  refine ⟨fun hs hx => ?_, nofun⟩
  obtain ⟨rfl, rfl⟩ := pure_eq_ok_iff.mp hx
  exact Nat.lt_of_lt_of_le hs h

theorem throw {e : Error} (h : e.isCause) : Fits n m (MonadExcept.throw e : Pass σ α) := by
  refine ⟨fun _ hx => absurd hx throw_ne_ok, fun _ hx => ?_⟩
  cases hx
  exact Build.ne_tooDeep_of_isCause h

theorem bind {m' : β → Nat} {x : Pass σ α} {f : α → Pass σ β} (hx : Fits n m x)
    (hf : ∀ a, Fits (m a) m' (f a)) : Fits n m' (x >>= f) := by
  constructor
  · intro s b t hs h
    obtain ⟨a, r, ha, hb⟩ := bind_eq_ok_iff.mp h
    exact (hf a).ok (hx.ok hs ha) hb
  · intro s e t hs h
    obtain hx' | ⟨a, r, ha, hb⟩ := bind_eq_error_iff.mp h
    · exact hx.error hs hx'
    · exact (hf a).error (hx.ok hs ha) hb

theorem mono {n' : Nat} {m' : α → Nat} {x : Pass σ α} (h : Fits n m x) (hn : n' ≤ n)
    (hm : ∀ a, m a ≤ m' a) : Fits n' m' x :=
  ⟨fun hs hx => Nat.lt_of_lt_of_le (h.ok (Nat.lt_of_lt_of_le hs hn) hx) (hm _),
    fun hs hx => h.error (Nat.lt_of_lt_of_le hs hn) hx⟩

theorem scan {cost : α → Nat} {step : Scan α} (h : step.Spends cost) (n : Nat) :
    Fits n (fun a => n - cost a) (Pass.scan step : Pass σ α) := by
  constructor
  · intro s a t hs hx
    have hspent := h s.cursor
    rw [(scan_eq_ok_iff.mp hx).1] at hspent
    have := hspent.2
    omega
  · intro s e t hs hx
    have hspent := h s.cursor
    rw [(scan_eq_error_iff.mp hx).1] at hspent
    exact Build.ne_tooDeep_of_isCause hspent.2

theorem build {step : EStateM Error σ α} (n : Nat)
    (h : ∀ d e d', step d = .error e d' → e ≠ .internal .tooDeep) :
    Fits n (fun _ => n) (Pass.build step) :=
  ⟨fun hs hx => (build_eq_ok_iff.mp hx).2 ▸ hs, fun _ hx => h _ _ _ (build_eq_error_iff.mp hx).1⟩

end Fits

/-- Where not more than `k` characters are left, the step is not nested too deep and gives none
back. -/
def Within (k : Nat) (x : Pass σ α) : Prop := ∀ n ≤ k, Fits n (fun _ => n) x

namespace Within

variable {k : Nat}

theorem of_fits {x : Pass σ α} {cost : Nat} (h : ∀ n ≤ k, Fits n (fun _ => n - cost) x) :
    Within k x :=
  fun n hn => (h n hn).mono (Nat.le_refl n) fun _ => Nat.sub_le n cost

theorem lower {j : Nat} {x : Pass σ α} (h : Within k x) (hj : j ≤ k) : Within j x :=
  fun n hn => h n (Nat.le_trans hn hj)

theorem scan {step : Scan α} (h : Reader step) : Within k (Pass.scan step : Pass σ α) :=
  of_fits fun n _ => .scan h.spends n

theorem congruence (k : Nat) : Congruence (@Alone σ (Within k)) where
  pure _ _ _ := .pure (Nat.le_refl _)
  throw h _ _ := .throw h
  bind hx hf n hn := (hx n hn).bind fun a => hf a n hn

theorem grammatical (k : Nat) : Grammatical (Alone (Within k)) :=
  .of_readers (congruence k) scan fun hc n _ => .build n fun _ _ _ he => (hc.blames.error he).1

end Within

/-- Each item of a list reads the mark behind it. -/
theorem items_fits {close : Char} {place : String} {item : Pass σ α} {d n : Nat}
    (hitem : Within n item) (hd : n ≤ d) :
    Fits n (fun _ => n - 1) (items close place item d) := by
  induction d generalizing n with
  | zero => exact .none (Nat.le_zero.mp hd)
  | succ d ih =>
      refine (hitem n (Nat.le_refl n)).bind fun a => ?_
      refine (Fits.scan (Scan.another_spends close place) n).bind fun more => ?_
      cases more with
      | false => exact .pure (Nat.le_refl _)
      | true =>
          have hrest := ih (hitem.lower (Nat.sub_le n 1)) (Nat.sub_le_of_le_add hd)
          refine hrest.bind fun rest => .pure ?_
          exact Nat.sub_le (n - 1) 1

theorem anyItems_within {close : Char} {place : String} {item : Pass σ α} {d k : Nat}
    (hitem : Within k item) (hd : k ≤ d) : Within k (anyItems close place item d) := by
  intro n hn
  refine (Within.scan (.accept close) n hn).bind fun none => ?_
  cases none with
  | true => exact .pure (Nat.le_refl n)
  | false =>
      exact (items_fits (hitem.lower hn) (Nat.le_trans hn hd)).mono (Nat.le_refl n)
        fun _ => Nat.sub_le n 1

theorem Fits.within {k cost : Nat} {x : Pass σ α} (h : ∀ n ≤ k, Fits n (fun _ => n - cost) x) :
    Alone (Within k) x x := Within.of_fits h

theorem Within.fits {k : Nat} {x y : Pass σ α} {m : α → Nat} (h : Alone (Within k) x y)
    (hm : ∀ a, k ≤ m a) : Fits k m x :=
  Fits.mono (h k (Nat.le_refl k)) (Nat.le_refl k) hm

/-- The five levels of the grammar of expressions together, by induction on the bound. -/
theorem expressions_fit (d : Nat) :
    (∀ n level, 4 * n ≤ d + 1 → Fits n (fun _ => n - 1) (expressionAt d level)) ∧
    (∀ n level a, 4 * n ≤ d + 3 → Fits n (fun _ => n) (climb d level a)) ∧
    (∀ n, 4 * n ≤ d + 2 → Fits n (fun _ => n - 1) (unary d)) ∧
    (∀ n a, 4 * n ≤ d + 3 → Fits n (fun _ => n) (suffixes d a)) ∧
    ∀ n, 4 * n ≤ d + 3 → Fits n (fun _ => n - 1) (primary d) := by
  induction d with
  | zero =>
      exact ⟨fun n _ hn => .none (by omega), fun n _ _ hn => .none (by omega),
        fun n hn => .none (by omega), fun n _ hn => .none (by omega), fun n hn => .none (by omega)⟩
  | succ d ih =>
      obtain ⟨hexpr, hclimb, hunary, hsuffixes, hprimary⟩ := ih
      refine ⟨?_, ?_, ?_, ?_, ?_⟩
      · intro n level hn
        exact (hunary n hn).bind fun a => hclimb (n - 1) level a (by omega)
      · intro n level a hn
        have h := Within.grammatical (n - 1)
        have hright (level : Nat) : Alone (Within (n - 1)) (expressionAt d level)
            (expressionAt d level) := Fits.within fun j hj => hexpr j level (by omega)
        have hrest (v : Operand) : Alone (Within (n - 1)) (climb d level (.word v))
            (climb d level (.word v)) := fun j hj => hclimb j level _ (by omega)
        refine (Fits.scan (Scan.connective_spends level) n).bind fun connective => ?_
        rcases connective with _ | op | _ | op
        · exact Within.fits ((Within.grammatical n).build (.rvalue a)) fun _ => Nat.le_refl n
        · refine Within.fits (h.bind (h.build (.rvalue a)) fun lhs => h.bind (hright _) fun rhs =>
            h.bind (h.build (.apply op lhs rhs)) fun value => hrest value) fun _ => Nat.sub_le n 1
        · exact Within.fits (h.expressive.conditional (hright _) (hright _) a)
            fun _ => Nat.sub_le n 1
        · exact Within.fits (h.expressive.assign (hright _) op a) fun _ => Nat.sub_le n 1
      · intro n hn
        refine (Fits.scan Scan.sign_spends n).bind fun sign => ?_
        cases sign with
        | some sign =>
            refine (hunary (n - 1) (by omega)).bind fun a => ?_
            exact Within.fits ((Within.grammatical _).build (.sign sign a)) fun _ => Nat.sub_le _ 1
        | none => exact (hprimary n (by omega)).bind fun a => hsuffixes (n - 1) a (by omega)
      · intro n a hn
        have h := Within.grammatical (n - 1)
        have hright : Alone (Within (n - 1)) (expressionAt d fullLevel)
            (expressionAt d fullLevel) := Fits.within fun j hj => hexpr j _ (by omega)
        have hrest (a : Denotation) : Alone (Within (n - 1)) (suffixes d a) (suffixes d a) :=
          fun j hj => hsuffixes j a (by omega)
        refine (Fits.scan Scan.suffix_spends n).bind fun suffix => ?_
        rcases suffix with _ | _ | _ | _ | _
        · exact .pure (Nat.le_refl n)
        · exact Within.fits (h.bind (h.build (.base a)) fun base => h.bind hright fun index =>
            h.bind (h.token (.expect _ (by decide))) fun _ =>
            h.bind (h.build (.element base index)) fun address => hrest _) fun _ => Nat.sub_le n 1
        · have harguments : Alone (Within (n - 1))
              (anyItems ')' "in argument list" (expressionAt d fullLevel) d)
              (anyItems ')' "in argument list" (expressionAt d fullLevel) d) :=
            anyItems_within hright (by omega)
          exact Within.fits (h.bind (h.build (.callee a)) fun callee => h.bind harguments
            fun arguments => h.bind (h.build (.call callee arguments)) fun value => hrest _)
            fun _ => Nat.sub_le n 1
        · exact Within.fits (h.bind (h.build (.step .add "++" a)) fun r => hrest _)
            fun _ => Nat.sub_le n 1
        · exact Within.fits (h.bind (h.build (.step .sub "--" a)) fun r => hrest _)
            fun _ => Nat.sub_le n 1
      · intro n hn
        have h := Within.grammatical (n - 1)
        refine (Fits.scan Scan.atom_spends n).bind fun atom => ?_
        rcases atom with value | text | _ | ⟨name, called⟩
        · exact .pure (Nat.le_refl _)
        · exact Within.fits (h.bind (h.build (.string text)) fun _ => h.pure _)
            fun _ => Nat.le_refl _
        · have hinner : Alone (Within (n - 1)) (expressionAt d fullLevel)
              (expressionAt d fullLevel) := Fits.within fun j hj => hexpr j _ (by omega)
          exact Within.fits (h.bind hinner fun value =>
            h.bind (h.token (.expect _ (by decide))) fun _ => h.pure _) fun _ => Nat.le_refl _
        · cases called with
          | true => exact Within.fits (h.build (.resolveCallee name)) fun _ => Nat.le_refl _
          | false => exact Within.fits (h.build (.resolve name)) fun _ => Nat.le_refl _

/-- A statement and the statements of a block together, by induction on the bound. -/
theorem statements_fit (d : Nat) :
    (∀ n e, 4 * n ≤ d → Fits n (fun _ => n - 1) (statementAt d e)) ∧
    ∀ n e, 4 * n ≤ d - 1 → Fits n (fun _ => n) (statements d e) := by
  induction d with
  | zero => exact ⟨fun n _ hn => .none (by omega), fun n _ hn => .none (by omega)⟩
  | succ d ih =>
      obtain ⟨hstatement, hstatements⟩ := ih
      constructor
      · intro n e hn
        have h := Within.grammatical (n - 1)
        have hvalue : Alone (Within (n - 1)) (expressionAt d fullLevel)
            (expressionAt d fullLevel) :=
          Fits.within fun j hj => (expressions_fit d).1 j fullLevel (by omega)
        have hbody (e : Option Switch) :
            Alone (Within (n - 1)) (statementAt d e) (statementAt d e) :=
          Fits.within fun j hj => hstatement j e (by omega)
        have hblock : Alone (Within (n - 1)) (statements d e) (statements d e) :=
          fun j hj => hstatements j e (by omega)
        have hitems {α : Type} {place : String} {item : Pass Draft α}
            (hitem : Alone (Within (n - 1)) item item) :
            Alone (Within (n - 1)) (items ';' place item d) (items ';' place item d) :=
          Fits.within fun j hj => items_fits (Within.lower hitem hj) (by omega)
        refine (Fits.scan Scan.statementHead_spends n).bind fun head => ?_
        cases head with
        | compound => exact Within.fits hblock fun _ => Nat.le_refl _
        | empty => exact .pure (Nat.le_refl _)
        | ifElse => exact Within.fits (h.ifElse hvalue hbody e) fun _ => Nat.le_refl _
        | whileLoop => exact Within.fits (h.whileLoop hvalue hbody e) fun _ => Nat.le_refl _
        | case => exact Within.fits (h.case hbody e) fun _ => Nat.le_refl _
        | label name => exact Within.fits (h.label name hbody e) fun _ => Nat.le_refl _
        | switch => exact Within.fits (h.beside (h.switch hvalue hbody) e) fun _ => Nat.le_refl _
        | goto => exact Within.fits (h.beside h.goto e) fun _ => Nat.le_refl _
        | auto => exact Within.fits (h.beside (hitems h.auto) e) fun _ => Nat.le_refl _
        | extrn => exact Within.fits (h.beside (hitems h.extrn) e) fun _ => Nat.le_refl _
        | ret => exact Within.fits (h.beside (h.ret hvalue) e) fun _ => Nat.le_refl _
        | expression =>
            -- No character of an expression has been read before it.
            refine ((expressions_fit d).1 n fullLevel hn).bind fun _ => ?_
            exact Within.fits (h.bind (h.token (.expect _ (by decide))) fun _ => h.pure e)
              fun _ => Nat.le_refl _
      · intro n e hn
        have hrest (e : Option Switch) : Alone (Within n) (statementAt d e >>= statements d)
            (statementAt d e >>= statements d) := fun j hj =>
          ((hstatement j e (by omega)).bind fun e₁ => hstatements (j - 1) e₁ (by omega)).mono
            (Nat.le_refl j) fun _ => Nat.sub_le j 1
        exact Within.fits ((Within.grammatical n).another rfl (hrest e)) fun _ => Nat.le_refl n

/-- The bound that the unread text sets. -/
theorem Within.bounded {k : Nat} {f : Nat → Pass σ α}
    (h : ∀ n ≤ k, Fits n (fun _ => n) (f (4 * n + 4))) : Within k (bounded f) := by
  intro n hn
  constructor
  · intro s a t hs hx
    have hfits := h (s.cursor.unread.length + 1) (Nat.le_trans hs hn)
    exact Nat.lt_of_lt_of_le (hfits.ok (Nat.lt_succ_self _) hx) hs
  · intro s e t hs hx
    have hfits := h (s.cursor.unread.length + 1) (Nat.le_trans hs hn)
    exact hfits.error (Nat.lt_succ_self _) hx

theorem statement_fits (n : Nat) :
    Fits n (fun _ => n) (do let _ ← statementAt (4 * n + 4) none : Pass Draft Unit) :=
  ((statements_fit (4 * n + 4)).1 n none (Nat.le_add_right _ _)).bind fun _ =>
    .pure (Nat.sub_le n 1)

theorem functionBody_within (k : Nat) : Within k functionBody := by
  intro n hn
  have h := Within.grammatical k
  refine (Within.bounded (fun j _ => statement_fits j) n hn).bind fun _ => ?_
  exact Fits.bind (h.build .finish n hn) fun _ => .pure (Nat.le_refl n)

theorem drafted_within (k : Nat) (name : String) (params : List String) :
    Within k (drafted name params functionBody) := by
  intro n hn
  have hbody := functionBody_within k n hn
  constructor
  · intro s a t hs hx
    obtain ⟨d, r, _, hb, rfl⟩ := drafted_eq_ok_iff.mp hx
    exact hbody.ok hs hb
  · intro s e t hs hx
    obtain ⟨hstart, _⟩ | ⟨d, r, _, hb, _⟩ := drafted_eq_error_iff.mp hx
    · exact Build.ne_tooDeep_of_isCause (Draft.isCause_of_start hstart)
    · exact hbody.error hs hb

theorem update_within (k : Nat) {change : Program → Except Error Program}
    (h : ∀ p e, change p = .error e → e.isCause) : Within k (update change) := by
  refine fun n _ => .build n fun p e p' he => ?_
  cases hc : change p with
  | ok p₁ =>
      simp only [hc] at he
      cases he
  | error e' =>
      simp only [hc] at he
      cases he
      exact Build.ne_tooDeep_of_isCause (h p e hc)

theorem addString_within (k : Nat) (text : String) : Within k (addString text) :=
  fun n _ => .build n fun _ _ _ he => by cases he

theorem initializer_within (k : Nat) : Within k initializer := by
  have hstring : ∀ text, Alone (Within k) (addString text) (addString text) := addString_within k
  exact Declarative.initializer (Within.congruence k) Within.scan hstring

theorem Within.declarative (k : Nat) : Declarative (Alone (Within k)) := by
  refine .of_readers (congruence k) scan (fun hitem => ?_) (addString_within k) ?_ ?_
    (drafted_within k)
  · exact bounded fun n hn =>
      anyItems_within (Within.lower hitem hn) (by omega) n (Nat.le_refl n)
  · exact fun _ _ _ => update_within k fun _ _ => Program.isCause_of_declareArray
  · exact fun _ _ => update_within k fun _ _ => Program.isCause_of_declareScalar

/-- Every declaration reads its name. -/
theorem declarationsAt_fits {n d : Nat} (h : n ≤ d) : Fits n (fun _ => n) (declarationsAt d) := by
  induction d generalizing n with
  | zero => exact .none (Nat.le_zero.mp h)
  | succ d ih =>
      refine (Fits.scan Scan.name_spends n).bind fun name => ?_
      split
      · refine (Fits.scan Scan.peek_spends _).bind fun next => ?_
        cases next with
        | none => exact .pure (Nat.le_trans (Nat.sub_le _ _) (Nat.sub_le _ _))
        | some c => exact .throw rfl
      · next hne =>
          have hpos : 0 < name.length :=
            Nat.pos_of_ne_zero fun hz => hne (String.length_eq_zero_iff.mp hz)
          have hw := Within.declarative (n - name.length)
          have hclear : Within (n - name.length) (update fun p => .ok p.clearScope) :=
            update_within _ nofun
          refine Fits.bind (hw.declaration name _ (Nat.le_refl _)) fun _ => ?_
          refine (hclear _ (Nat.le_refl _)).bind fun _ => ?_
          exact (ih (by omega)).mono (Nat.le_refl _) fun _ => Nat.sub_le _ _

/-- A text is compiled or has something wrong with it. -/
theorem isCause_of_declarations {s t : Site Program} {e : Error}
    (h : declarations s = .error e t) : e.isCause := by
  have hfits : Fits _ _ (declarationsAt s.cursor.depth) :=
    declarationsAt_fits (show s.cursor.unread.length + 1 ≤ _ by unfold Cursor.depth; omega)
  obtain rfl | hcause := (declarationsAt_blames s.cursor.depth).error h
  · exact absurd rfl (hfits.error (Nat.lt_succ_self _) h)
  · exact hcause trivial

/-- The step with the lesser bound does the same, unless it is nested too deep. -/
def Refines (x y : Pass σ α) : Prop :=
  ∀ s, x s = y s ∨ ∃ t, x s = .error (.internal .tooDeep) t

namespace Refines

theorem bind {x y : Pass σ α} {f g : α → Pass σ β} (hx : Refines x y)
    (hf : ∀ a, Refines (f a) (g a)) : Refines (x >>= f) (y >>= g) := by
  intro s
  rcases hx s with hs | ⟨t, ht⟩
  · cases hr : x s with
    | error e t => exact .inl ((bind_of_error hr).trans (bind_of_error (hs ▸ hr)).symm)
    | ok a t =>
        rw [bind_of_ok hr, bind_of_ok (hs ▸ hr)]
        exact hf a t
  · exact .inr ⟨t, bind_of_error ht⟩

theorem congruence : Congruence (@Refines σ) where
  pure _ _ := .inl rfl
  throw _ _ := .inl rfl
  bind := bind

theorem deep : Deep (@Refines σ) := fun _ s => .inr ⟨s, rfl⟩

theorem grammatical : Grammatical Refines :=
  .of_readers congruence (fun _ _ => .inl rfl) fun _ _ => .inl rfl

theorem declarative : Declarative Refines :=
  .of_readers congruence (fun _ _ => .inl rfl) (fun _ _ => .inl rfl) (fun _ _ => .inl rfl)
    (fun _ _ _ _ => .inl rfl) (fun _ _ _ => .inl rfl) fun _ _ _ => .inl rfl

/-- A step that is not nested too deep does the same with a greater bound. -/
theorem eq_of_fits {n : Nat} {m : α → Nat} {x y : Pass σ α} (h : Refines x y) (hx : Fits n m x)
    {s : Site σ} (hs : s.cursor.unread.length < n) : x s = y s :=
  (h s).resolve_right fun ⟨_, ht⟩ => hx.error hs ht rfl

/-- No bound beyond the one that the unread text sets changes anything. -/
theorem bounded_eq {f : Nat → Pass σ α} {m : Nat → α → Nat}
    (h : ∀ {d d'}, d ≤ d' → Refines (f d) (f d')) (hf : ∀ n, Fits n (m n) (f (4 * n + 4)))
    {s : Site σ} {d : Nat} (hd : s.cursor.depth ≤ d) : bounded f s = f d s :=
  (h hd).eq_of_fits (hf (s.cursor.unread.length + 1)) (Nat.lt_succ_self _)

end Refines

theorem statement_eq {s : Site Draft} {d : Nat} (hd : s.cursor.depth ≤ d) :
    statement s = (do let _ ← statementAt d none : Pass Draft Unit) s :=
  Refines.bounded_eq (fun h => Refines.bind ((Refines.grammatical.statements Refines.deep h).1 none)
    fun _ _ => .inl rfl) statement_fits hd

theorem anyItems_eq {close : Char} {place : String} {item : Pass σ α} (h : ∀ k, Within k item)
    {s : Site σ} {d : Nat} (hd : s.cursor.depth ≤ d) :
    bounded (anyItems close place item) s = anyItems close place item d s :=
  Refines.bounded_eq (fun h => Refines.congruence.anyItems Refines.deep (fun _ => .inl rfl)
    (fun _ => .inl rfl) (fun _ => .inl rfl) h)
    (fun n => anyItems_within (h n) (by omega) n (Nat.le_refl n)) hd

theorem declarations_eq {s : Site Program} {d : Nat} (hd : s.cursor.depth ≤ d) :
    declarations s = declarationsAt d s :=
  Refines.bounded_eq (fun h => Refines.declarative.declarationsAt Refines.deep
    (fun _ _ => .inl rfl) (fun _ => .inl rfl) h) (fun n => declarationsAt_fits (by omega)) hd

end Pass
end BCompiler
