import BCompiler.Proofs.Depth

/-!
The lines of a source.

Reading moves the place in the text and counts the lines; building does neither. So at every place
that the compiler comes to, the line and the line ends that are left over make up the lines of the
text. A source that is accepted has been read to its end, and a source that is refused is reported
at the line of the place where the error surfaced.
-/
namespace BCompiler

/-- The lines of a text: one, and one more for each line end. -/
def lineCount (text : String) : Nat := 1 + text.toList.count '\n'

theorem Scan.unread_of_peek {c c' : Cursor} (h : peek c = .ok none c') : c'.unread = [] := by
  obtain ⟨unread, line, wordSize⟩ := c
  cases unread with
  | nil =>
      cases h
      rfl
  | cons ch rest => cases h

namespace Pass

variable {σ α β : Type}

/-- However the step ends, readers have brought it there. -/
structure Travels (x : Pass σ α) : Prop where
  ok : ∀ {s a t}, x s = .ok a t → s.cursor.Visits t.cursor
  error : ∀ {s e t}, x s = .error e t → s.cursor.Visits t.cursor

namespace Travels

theorem bind {x : Pass σ α} {f : α → Pass σ β} (hx : Travels x) (hf : ∀ a, Travels (f a)) :
    Travels (x >>= f) := by
  constructor
  · intro s b t h
    obtain ⟨a, r, ha, hb⟩ := bind_eq_ok_iff.mp h
    exact (hx.ok ha).trans ((hf a).ok hb)
  · intro s e t h
    obtain hx' | ⟨a, r, ha, hb⟩ := bind_eq_error_iff.mp h
    · exact hx.error hx'
    · exact (hx.ok ha).trans ((hf a).error hb)

theorem throw (e : Error) : Travels (MonadExcept.throw e : Pass σ α) := by
  refine ⟨fun h => absurd h throw_ne_ok, fun h => ?_⟩
  cases h
  exact .start

theorem congruence : Congruence (@Alone σ Travels) where
  pure a := by
    refine ⟨fun h => ?_, nofun⟩
    obtain ⟨_, rfl⟩ := pure_eq_ok_iff.mp h
    exact .start
  throw _ := throw _
  bind := bind

theorem deep : Deep (@Alone σ Travels) := fun _ => throw _

theorem scan {step : Scan α} (h : Reader step) : Travels (Pass.scan step : Pass σ α) :=
  ⟨fun hx => .ok .start h (scan_eq_ok_iff.mp hx).1,
    fun hx => .error .start h (scan_eq_error_iff.mp hx).1⟩

theorem build (step : EStateM Error σ α) : Travels (Pass.build step) :=
  ⟨fun hx => (build_eq_ok_iff.mp hx).2 ▸ .start, fun hx => (build_eq_error_iff.mp hx).2 ▸ .start⟩

theorem bounded {f : Nat → Pass σ α} (h : ∀ d, Travels (f d)) : Travels (bounded f) :=
  ⟨fun hx => (h _).ok hx, fun hx => (h _).error hx⟩

theorem grammatical : Grammatical (Alone Travels) := .of_readers congruence scan fun _ => build _

theorem functionBody : Travels functionBody :=
  bind (bounded fun d => bind ((grammatical.statements deep (Nat.le_refl d)).1 none)
    fun _ => congruence.pure ()) fun _ => bind (build _) fun _ => congruence.pure ()

theorem drafted (name : String) (params : List String) {body : Pass Draft Unit}
    (h : Travels body) : Travels (drafted name params body) := by
  constructor
  · intro s a t hx
    obtain ⟨d, r, _, hb, rfl⟩ := drafted_eq_ok_iff.mp hx
    exact h.ok hb
  · intro s e t hx
    obtain ⟨_, hcursor⟩ | ⟨d, r, _, hb, rfl⟩ := drafted_eq_error_iff.mp hx
    · exact hcursor ▸ .start
    · exact h.error hb

theorem anyItems {close : Char} {place : String} {item : Pass σ α} (h : Travels item) :
    Travels (Pass.bounded (anyItems close place item)) := by
  have hitem : Alone Travels item item := h
  exact bounded fun d => congruence.anyItems deep (scan (.accept _)) (scan (.another _ _)) hitem
    (Nat.le_refl d)

theorem declarative : Declarative (Alone Travels) :=
  .of_readers congruence scan anyItems (fun _ => build _) (fun _ _ _ => build _)
    (fun _ _ => build _) fun name params => drafted name params functionBody

theorem declarations : Travels declarations :=
  bounded fun d => declarative.declarationsAt deep scan (build _) (Nat.le_refl d)

end Travels

/-- Declarations that are accepted have been read to the end of the text. -/
theorem unread_of_declarationsAt {d : Nat} {s t : Site Program} {u : Unit}
    (h : declarationsAt d s = .ok u t) : t.cursor.unread = [] := by
  induction d generalizing s with
  | zero => cases throw_ne_ok h
  | succ d ih =>
      obtain ⟨name, s₁, _, h⟩ := bind_eq_ok_iff.mp h
      split at h
      · obtain ⟨next, s₂, hpeek, h⟩ := bind_eq_ok_iff.mp h
        cases next with
        | some c => cases throw_ne_ok h
        | none =>
            obtain ⟨_, rfl⟩ := pure_eq_ok_iff.mp h
            exact Scan.unread_of_peek (scan_eq_ok_iff.mp hpeek).1
      · obtain ⟨_, s₂, _, h⟩ := bind_eq_ok_iff.mp h
        obtain ⟨_, s₃, _, h⟩ := bind_eq_ok_iff.mp h
        exact ih h

end Pass

theorem Error.locate_of_isCause {e : Error} (h : e.isCause) (path : String) (line : Nat) :
    e.locate path line = .located path line e := by
  unfold locate
  split
  · cases h
  · cases h
  · rfl

theorem Cursor.Visits.lines {text : String} {wordSize : Nat} {c : Cursor}
    (h : (Cursor.ofText text wordSize).Visits c) : c.line + c.lineEnds = lineCount text :=
  h.follows.lines

theorem Pass.line_of_declarations {text : String} {wordSize : Nat} {p : Program} {u : Unit}
    {t : Site Program} (h : declarations ⟨.ofText text wordSize, p⟩ = .ok u t) :
    t.cursor.line = lineCount text := by
  have hlines := (Travels.declarations.ok h).lines
  rwa [Cursor.lineEnds, unread_of_declarationsAt h, List.count_nil, Nat.add_zero] at hlines

namespace Session

/-- A source is accepted if its declarations are, and then all its lines count. -/
theorem compile_eq_ok_iff {s s' : Session} {path text : String} {u : Unit} :
    compile path text s = .ok u s' ↔
      ∃ t, Pass.declarations ⟨.ofText text s.wordSize, s.program⟩ = .ok () t ∧
        s' = { s with
          program := t.target
          filesCompiled := s.filesCompiled + 1
          linesRead := s.linesRead + lineCount text } := by
  unfold compile
  cases hd : Pass.declarations ⟨.ofText text s.wordSize, s.program⟩ with
  | ok u t => simp [Pass.line_of_declarations hd, eq_comm]
  | error e t => simp

/-- At every place that readers come to in a text, its lines are accounted for. One of these places
is where the compilation ends. If the text is accepted, all its lines have been read. If it is not,
the error is about the text and carries the line of that place. -/
theorem lines_of_compile (s : Session) (path text : String) :
    (∀ c, (Cursor.ofText text s.wordSize).Visits c → c.line + c.lineEnds = lineCount text) ∧
    match Pass.declarations ⟨.ofText text s.wordSize, s.program⟩ with
    | .ok _ site =>
        (Cursor.ofText text s.wordSize).Visits site.cursor ∧
        compile path text s = .ok () { s with
          program := site.target
          filesCompiled := s.filesCompiled + 1
          linesRead := s.linesRead + lineCount text }
    | .error e site =>
        (Cursor.ofText text s.wordSize).Visits site.cursor ∧ e.isCause ∧
        compile path text s =
          .error (.located path (lineCount text - site.cursor.lineEnds) e)
            { s with program := site.target } := by
  refine ⟨fun c hc => hc.lines, ?_⟩
  cases hd : Pass.declarations ⟨.ofText text s.wordSize, s.program⟩ with
  | ok u site =>
      exact ⟨Pass.Travels.declarations.ok hd, compile_eq_ok_iff.mpr ⟨site, hd, rfl⟩⟩
  | error e site =>
      have hvisits := Pass.Travels.declarations.error hd
      have hcause := Pass.isCause_of_declarations hd
      have hline : site.cursor.line = lineCount text - site.cursor.lineEnds :=
        Nat.eq_sub_of_add_eq hvisits.lines
      refine ⟨hvisits, hcause, ?_⟩
      simp only [compile, hd, e.locate_of_isCause hcause, hline]

end Session
end BCompiler
