import BCompiler.Command.Disk

/-!
Files that are written.

A file is written at the place that its path leads to, and can be read there afterwards. Every other
place stays as it was: to write changes no directory, so that paths lead where they did.
-/
namespace BCompiler.Disk

variable {d d' : Disk}

theorem lookup_filter (entries : List (Place × Entry)) {place other : Place} (h : other ≠ place) :
    (entries.filter fun e => e.1 != place).lookup other = entries.lookup other := by
  induction entries with
  | nil => rfl
  | cons e entries ih =>
      by_cases he : e.1 = place
      · rw [List.filter_cons_of_neg (by simp [he]), ih, List.lookup_cons,
          beq_false_of_ne (fun heq => h (heq.trans he))]
      · rw [List.filter_cons_of_pos (by simp [he]), List.lookup_cons, List.lookup_cons, ih]

/-- Only the entry at the place itself is another, where no directory is. -/
theorem entry?_insert {place : Place} (hfile : d.entry? place ≠ some .directory) (entry : Entry)
    (other : Place) : Disk.entry? (d.insert place entry) other =
      if other = place then some entry else d.entry? other := by
  unfold entry? insert at *
  dsimp only
  by_cases h : other = place
  · subst h
    have houtside : ¬other.isSuffixOf d.home := fun hs => hfile (if_pos hs)
    rw [if_neg houtside, if_pos rfl]
    exact List.lookup_cons_self
  · rw [if_neg h]
    split
    · rfl
    · rw [List.lookup_cons, beq_false_of_ne h]
      exact lookup_filter d.entries h

/-- Directories stay directories, and what is there stays there. -/
structure Keeps (d d' : Disk) : Prop where
  directory : ∀ place, d.entry? place = some .directory → d'.entry? place = some .directory
  isSome : ∀ place, (d.entry? place).isSome → (d'.entry? place).isSome

theorem keeps_insert {place : Place} (hfile : d.entry? place ≠ some .directory)
    (bytes : List UInt8) : d.Keeps (d.insert place (.file bytes)) where
  directory other h := by
    rw [entry?_insert hfile, if_neg]
    · exact h
    · rintro rfl
      exact hfile h
  isSome other h := by
    rw [entry?_insert hfile]
    split
    · rfl
    · exact h

/-- What a step along a path comes to. -/
theorem step_eq_ok_iff {place place' : Place} {part : String} : d.step place part = .ok place' ↔
    d.entry? place = some .directory ∧
      if Path.isStill part then place' = place
      else if part = ".." then place' = place.tail
      else (d.entry? (part :: place)).isSome ∧ place' = part :: place := by
  unfold step
  split
  · next h =>
      refine ⟨fun herror => ?_, fun hd => absurd hd.1 h⟩
      cases herror
  · next h =>
      rw [ne_eq, Decidable.not_not] at h
      simp only [h, true_and]
      split
      · simp [eq_comm]
      · split
        · simp [eq_comm]
        · split
          · next hsome => simp [hsome, eq_comm]
          · next hnone => simp [hnone]

theorem Keeps.step (h : d.Keeps d') {place place' : Place} {part : String}
    (hs : d.step place part = .ok place') : d'.step place part = .ok place' := by
  rw [step_eq_ok_iff] at hs ⊢
  refine ⟨h.directory place hs.1, ?_⟩
  have hto := hs.2
  split at hto
  · rwa [if_pos ‹_›]
  · rw [if_neg ‹_›]
    split at hto
    · rwa [if_pos ‹_›]
    · rw [if_neg ‹_›]
      exact ⟨h.isSome _ hto.1, hto.2⟩

theorem Keeps.follow (h : d.Keeps d') {place place' : Place} {parts : List String}
    (hf : d.follow place parts = .ok place') : d'.follow place parts = .ok place' := by
  induction parts generalizing place with
  | nil => exact hf
  | cons part parts ih =>
      unfold Disk.follow at hf ⊢
      cases hs : d.step place part with
      | error e =>
          rw [hs] at hf
          cases hf
      | ok next =>
          rw [hs] at hf
          rw [h.step hs]
          exact ih hf

theorem follow_append (d : Disk) (place : Place) (front : List String) (last : String) :
    d.follow place (front ++ [last]) =
      (d.follow place front).bind fun next => d.step next last := by
  induction front generalizing place with
  | nil =>
      change (d.step place last).bind Except.ok = d.step place last
      cases d.step place last <;> rfl
  | cons part front ih =>
      rw [List.cons_append, follow, follow]
      cases d.step place part with
      | error e => rfl
      | ok next => exact ih next

theorem except_bind_eq_ok_iff {ε α β : Type} {x : Except ε α} {f : α → Except ε β} {b : β} :
    x >>= f = .ok b ↔ ∃ a, x = .ok a ∧ f a = .ok b := by
  cases x with
  | error e => simp [bind, Except.bind]
  | ok a => simp [bind, Except.bind]

/-- A path leads to a file `last` in a directory, or to where one can be made. -/
structure Target (d : Disk) (path : String) (front : List String) (last : String)
    (directory : Place) : Prop where
  parts : Path.parts path = front ++ [last]
  moves : Path.isStill last = false
  down : last ≠ ".."
  follow : d.follow (d.origin path) front = .ok directory
  isDirectory : d.entry? directory = some .directory
  file : d.entry? (last :: directory) ≠ some .directory

/-- What is written stands where the path leads. -/
theorem Target.of_write {path text : String} (h : d.write path text = .ok d') :
    ∃ front last directory, d.Target path front last directory ∧
      d' = d.insert (last :: directory) (.file (utf8Bytes text)) := by
  unfold Disk.write at h
  dsimp only at h
  split at h
  · cases h
  · next last before hnamed =>
      obtain ⟨next, hfollow, hrest⟩ := except_bind_eq_ok_iff.mp h
      obtain ⟨directory, hstep, hchecked⟩ := except_bind_eq_ok_iff.mp hrest
      obtain ⟨hdirectory, hsame⟩ := step_eq_ok_iff.mp hstep
      rw [if_pos (by decide)] at hsame
      subst hsame
      split at hchecked
      · cases hchecked
      · next hlast =>
          split at hchecked
          · cases hchecked
          · next hfile =>
              rw [not_or, not_or, Nat.not_lt] at hlast
              have hall : last :: before = (Path.parts path).reverse := by
                rw [← hnamed]
                exact (List.dropWhile_suffix _).eq_of_length_le hlast.1
              have hempty : last ≠ "" := by
                have hhead := List.head?_dropWhile_not (fun part => part == "")
                  (Path.parts path).reverse
                rw [hnamed] at hhead
                simpa using hhead
              refine ⟨before.reverse, last, directory, ⟨?_, ?_, hlast.2.2, hfollow, hdirectory,
                hfile⟩, (Except.ok.inj hchecked).symm⟩
              · rw [← List.reverse_reverse (Path.parts path), ← hall, List.reverse_cons]
              · simp [Path.isStill, hempty, hlast.2.1]

/-- A file was written at a path: it can be read there, and it is the only one that differs. -/
structure Written (d : Disk) (path text : String) (d' : Disk) : Prop where
  read : d'.read path = .ok (utf8Bytes text)
  others : ∃ place, d'.follow (d'.origin path) (Path.parts path) = .ok place ∧
    ∀ other, other ≠ place → d'.entry? other = d.entry? other

theorem written_of_write {path text : String} (h : d.write path text = .ok d') :
    d.Written path text d' := by
  obtain ⟨front, last, directory, htarget, rfl⟩ := Target.of_write h
  have hentry := entry?_insert htarget.file (.file (utf8Bytes text))
  have hkeeps := keeps_insert htarget.file (utf8Bytes text)
  have hfollow : (d.insert (last :: directory) (.file (utf8Bytes text))).follow (d.origin path)
      (Path.parts path) = .ok (last :: directory) := by
    rw [htarget.parts, follow_append, hkeeps.follow htarget.follow]
    refine step_eq_ok_iff.mpr ⟨hkeeps.directory directory htarget.isDirectory, ?_⟩
    rw [if_neg (by simp [htarget.moves]), if_neg htarget.down, hentry, if_pos rfl]
    exact ⟨rfl, rfl⟩
  constructor
  · refine except_bind_eq_ok_iff.mpr ⟨_, hfollow, ?_⟩
    rw [hentry, if_pos rfl]
    rfl
  · exact ⟨_, hfollow, fun other hother => by rw [hentry, if_neg hother]⟩

end BCompiler.Disk
