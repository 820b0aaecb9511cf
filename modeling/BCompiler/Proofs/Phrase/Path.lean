import BCompiler.Proofs.Phrase.Compile
import BCompiler.Proofs.Reserve

/-!
The way through a statement while it is compiled.

A part of a statement is compiled where its text stands, from the draft that the code in front of it
leaves. So there is a way from the statement to each of its parts that the compiler gets to, and a
part that fails makes the whole fail in the same way.
-/
namespace BCompiler

/-- The code of a term is that of an expression. -/
theorem Term.value_emission {size n : Nat} (t : Term size (.level n)) {d d' : Draft} {v : Operand}
    (h : t.value d = .ok v d') : ∃ known, Emission d [] d' known ∧ (.word, v) ∈ known := by
  have hfaces : (⟨spaced (t.tokens ++ []), 0, size⟩ : Cursor).Faces size (t.tokens ++ []) :=
    ⟨.inl rfl, rfl⟩
  obtain ⟨c, hc, _⟩ := (t.parsed.loose [] (Nat.le_refl n) .done _ (Nat.lt_succ_self _)).ok hfaces h
  exact Pass.expressionAt_emitting _ _ [] _ _ _ hc

theorem Shape.parse_coursing (f : Shape) (n : Nat) : Pass.Coursing (f.parse n) := by
  obtain ⟨hsingle, hblock⟩ := Pass.grammar_coursing n
  cases f with
  | single => exact hsingle
  | block => exact hblock
  | labelled => exact Pass.labelled_coursing hsingle
  | alternative => exact Pass.elsePart_coursing hsingle

namespace Statement

variable {size : Nat} {f g : Shape}

/-- The code of a statement is that of a course. -/
theorem emit_course (t : Statement size f) {e e' : Option Switch} {d d' : Draft}
    (h : t.emit e d = .ok e' d') : Course d e d' e' := by
  have hfaces : (⟨spaced (t.tokens ++ ["\x7d"]), 0, size⟩ : Cursor).Faces size
      (t.tokens ++ ["\x7d"]) := ⟨.inl rfl, rfl⟩
  obtain ⟨c, hc, _⟩ := (t.mirrored (t.fits_brace []) _ (Nat.le_refl _) e).ok hfaces h
  exact f.parse_coursing _ _ _ _ _ hc

theorem emit_lasts (t : Statement size f) {e e' : Option Switch} {d d' : Draft}
    (h : t.emit e d = .ok e' d') : d.Lasts d' := Draft.Lasts.carried.course (t.emit_course h)

/-- A place in a statement that is being compiled. -/
structure Point where
  /-- The values of the cases of the innermost enclosing switch that stand before, if a switch is
  around. -/
  seen : Option (List Word)
  enclosing : Option Switch
  draft : Draft

/-- A place behind cases with these values. -/
def Point.after (p : Point) (labels : List Word) (enclosing : Option Switch) (draft : Draft) :
    Point := ⟨p.seen.map (· ++ labels), enclosing, draft⟩

/-- The compiler gets from a statement at one place to a part of it at another: to the part itself,
with what stands in front of it compiled. -/
inductive Part : {f g : Shape} → Statement size f → Point → Statement size g → Point → Prop
  | compound {b : Statement size .block} {p : Point} : Part (.compound b) p b p
  | stated {s : Statement size .single} {p : Point} : Part (.stated s) p s p
  | otherwise {s : Statement size .single} {p : Point} : Part (.otherwise s) p s p
  | first {s : Statement size .single} {t : Statement size .block} {p : Point} :
      Part (.cons s t) p s p
  | rest {s : Statement size .single} {t : Statement size .block} {p : Point}
      {e : Option Switch} {d : Draft} :
      s.emit p.enclosing p.draft = .ok e d → Part (.cons s t) p t (p.after s.labels e d)
  | thenArm {c : Term size (.level fullLevel)} {t : Statement size .single}
      {o : Statement size .alternative} {p : Point} {word : Operand} {group : BlockGroup}
      {d₁ d₂ : Draft} :
      c.value p.draft = .ok word d₁ → Build.fork "if" word d₁ = .ok group d₂ →
      Part (.ifElse c t o) p t { p with draft := d₂ }
  | elseArm {c : Term size (.level fullLevel)} {t : Statement size .single}
      {o : Statement size .alternative} {p : Point} {word : Operand} {group : BlockGroup}
      {e : Option Switch} {u : Unit} {d₁ d₂ d₃ d₄ : Draft} :
      c.value p.draft = .ok word d₁ → Build.fork "if" word d₁ = .ok group d₂ →
      t.emit p.enclosing d₂ = .ok e d₃ → Build.fallInto group.last group.second d₃ = .ok u d₄ →
      Part (.ifElse c t o) p o (p.after t.labels e d₄)
  | loopBody {c : Term size (.level fullLevel)} {b : Statement size .single} {p : Point}
      {word : Operand} {group : BlockGroup} {u : Unit} {d₁ d₂ d₃ : Draft} :
      Build.loop p.draft = .ok group d₁ → c.value d₁ = .ok word d₂ →
      Build.test word group d₂ = .ok u d₃ → Part (.whileLoop c b) p b { p with draft := d₃ }
  | switchBody {value : Term size (.level fullLevel)} {b : Statement size .single} {p : Point}
      {word : Operand} {group : BlockGroup} {d₁ d₂ : Draft} :
      value.value p.draft = .ok word d₁ → Build.select d₁ = .ok group d₂ →
      Part (.switch value b) p b ⟨some [], some ⟨group.number, []⟩, d₂⟩
  | caseBody {value : Literal size} {b : Statement size .labelled} {p : Point} {s : Switch}
      {block : BlockId} {d : Draft} :
      p.enclosing = some s → (∀ arm ∈ s.cases, arm.1 ≠ value.word) →
      Build.caseBlock s.group value.word p.draft = .ok block d →
      Part (.case value b) p b
        (p.after [value.word] (some { s with cases := s.cases ++ [(value.word, block)] }) d)
  | labelBody {x : Name} {h : x.isPlain} {b : Statement size .labelled} {p : Point} {u : Unit}
      {d : Draft} :
      Build.placeLabel x.text p.draft = .ok u d → Part (.label x h b) p b { p with draft := d }

/-- The compiler gets to a part of a statement, however deep. -/
inductive Reaches (t : Statement size f) (p : Point) : {g : Shape} → Statement size g → Point → Prop
  | here : Reaches t p t p
  | part {g g' : Shape} {x : Statement size g} {y : Statement size g'} {q r : Point} :
      Reaches t p x q → Part x q y r → Reaches t p y r

section Part

variable {x : Statement size f} {y : Statement size g} {p q : Point}

/-- A part that fails makes the whole fail. -/
theorem Part.error (h : Part x p y q) {e : Error} {d : Draft}
    (hy : y.emit q.enclosing q.draft = .error e d) :
    x.emit p.enclosing p.draft = .error e d := by
  cases h with
  | compound | stated | otherwise => exact hy
  | first => exact bind_of_error hy
  | rest hs => exact (bind_of_ok hs).trans hy
  | thenArm hc hf => exact (bind_of_ok hc).trans ((bind_of_ok hf).trans (bind_of_error hy))
  | elseArm hc hf ht hfall =>
      exact (bind_of_ok hc).trans ((bind_of_ok hf).trans ((bind_of_ok ht).trans
        ((bind_of_ok hfall).trans (bind_of_error hy))))
  | loopBody hl hc ht =>
      exact (bind_of_ok hl).trans ((bind_of_ok hc).trans ((bind_of_ok ht).trans
        (bind_of_error hy)))
  | switchBody hv hs => exact (bind_of_ok hv).trans ((bind_of_ok hs).trans (bind_of_error hy))
  | @caseBody value b p s block d₁ hp hnew hb =>
      rw [hp]
      have hany : (s.cases.any fun arm => arm.1 == value.word) = false := by
        rw [List.any_eq_false]
        exact fun arm hm he => hnew arm hm (beq_iff_eq.mp he)
      unfold emit
      rw [hany]
      exact (bind_of_ok hb).trans hy
  | labelBody hl => exact (bind_of_ok hl).trans hy

/-- The blocks of labels and the current block exist at every place. -/
theorem Part.reserves (h : Part x p y q) (hp : p.draft.Reserves []) : q.draft.Reserves [] := by
  have hvalue : ∀ {n : Nat} {t : Term size (.level n)} {d d' : Draft} {v : Operand},
      t.value d = .ok v d' → d.Reserves [] → d'.Reserves [] := by
    intro n t d d' v hv
    obtain ⟨_, hc, _⟩ := t.value_emission hv
    exact Draft.Reserves.emission hc
  cases h with
  | compound | stated | otherwise | first => exact hp
  | rest hs => exact .course (emit_course _ hs) hp
  | thenArm hc hf => exact ((hvalue hc hp).fork hf).1
  | elseArm hc hf ht hfall =>
      obtain ⟨h₂, hsecond, _⟩ := (hvalue hc hp).fork hf
      have h₃ : Draft.Reserves [] _ := .course (emit_course _ ht) h₂
      exact h₃.fallInto (hsecond.mono (emit_lasts _ ht)) hfall
  | loopBody hl hc ht =>
      obtain ⟨h₁, hfree⟩ := hp.loop hl
      obtain ⟨_, hcode, _⟩ := Term.value_emission _ hc
      have hsecond := (hfree _ (.tail _ (.head _))).mono (Draft.Lasts.carried.emission hcode)
      exact (hvalue hc h₁).test hsecond ht
  | switchBody hv hs => exact ((hvalue hv hp).select hs).1
  | caseBody _ _ hb => exact hp.caseBlock hb
  | labelBody hl => exact hp.placeLabel hl

theorem Reaches.error {t : Statement size f} (h : t.Reaches p y q) {e : Error} {d : Draft}
    (hy : y.emit q.enclosing q.draft = .error e d) :
    t.emit p.enclosing p.draft = .error e d := by
  induction h with
  | here => exact hy
  | part _ hpart ih => exact ih (hpart.error hy)

theorem Reaches.reserves {t : Statement size f} (h : t.Reaches p y q) (hp : p.draft.Reserves []) :
    q.draft.Reserves [] := by
  induction h with
  | here => exact hp
  | part _ hpart ih => exact hpart.reserves ih

end Part

end Statement
end BCompiler
