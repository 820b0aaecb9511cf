import BCompiler.Draft.Name
import BCompiler.Source.Operator

/-!
The single pass over a source: reading characters and building the program take turns.

A step sees the place in the source together with what is built from it. Nested constructs are
bounded by a number that the unread text gives: every level of nesting reads a character.
-/
namespace BCompiler

/-- A place in a source, and what has been built so far. -/
structure Site (σ : Type) where
  cursor : Cursor
  target : σ
  deriving DecidableEq, Repr

/-- A step of the pass. What it read and built stays when it fails. -/
abbrev Pass (σ : Type) := EStateM Error (Site σ)

/-- A bound on the nesting of constructs in the unread text. -/
def Cursor.depth (c : Cursor) : Nat := 4 * c.unread.length + 8

namespace Pass

/-- A step that only reads. -/
def scan (step : Scan α) : Pass σ α := fun s =>
  match step s.cursor with
  | .ok a cursor => .ok a { s with cursor }
  | .error e cursor => .error e { s with cursor }

/-- A step that only builds. -/
def build (step : EStateM Error σ α) : Pass σ α := fun s =>
  match step s.target with
  | .ok a target => .ok a { s with target }
  | .error e target => .error e { s with target }

theorem scan_eq_ok_iff {step : Scan α} {s t : Site σ} {a : α} :
    scan step s = .ok a t ↔ step s.cursor = .ok a t.cursor ∧ t.target = s.target := by
  obtain ⟨cursor, target⟩ := t
  unfold scan
  cases step s.cursor <;> simp [eq_comm, and_assoc]

theorem build_eq_ok_iff {step : EStateM Error σ α} {s t : Site σ} {a : α} :
    build step s = .ok a t ↔ step s.target = .ok a t.target ∧ t.cursor = s.cursor := by
  obtain ⟨cursor, target⟩ := t
  unfold build
  cases step s.target
  · simp only [EStateM.Result.ok.injEq, Site.mk.injEq]
    grind
  · simp

/-- Give a step the bound that the unread text sets. -/
def bounded (step : Nat → Pass σ α) : Pass σ α := fun s => step s.cursor.depth s

end Pass

/-- The steps of the pass can be taken here. -/
class MonadPass (σ : outParam Type) (m : Type → Type) where
  step {α : Type} : Pass σ α → m α

instance {σ : Type} : MonadPass σ (Pass σ) where
  step step := step

namespace Pass

theorem step_eq (x : Pass σ α) : (MonadPass.step x : Pass σ α) = x := rfl

/-- One or more items, divided by commas, up to and including the closing mark. -/
def items [Monad m] [MonadPass σ m] (close : Char) (place : String) (item : m α) :
    Nat → m (List α)
  | 0 => MonadPass.step (throw (.internal .tooDeep))
  | depth + 1 => do
    let a ← item
    if ← MonadPass.step (scan (Scan.another close place)) then
      return a :: (← items close place item depth)
    else
      return [a]

/-- Any number of items, divided by commas, up to and including the closing mark. -/
def anyItems (close : Char) (place : String) (item : Pass σ α) (depth : Nat) :
    Pass σ (List α) := do
  if ← scan (Scan.accept close) then return [] else items close place item depth

end Pass
end BCompiler
