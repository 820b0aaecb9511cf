import Mathlib.Algebra.Group.Nat.Defs
import Mathlib.Algebra.Ring.Int.Defs
import BCompiler.Proofs.Trail.History

/-!
The values that a switch tells apart.

The values of every switch are distinct as words of 64 bits, which is how a case is compared with
those before it. They are printed in words of the module, and those may be narrower. There two
values are one word if they differ by a multiple of the number of words.
-/
namespace BCompiler

/-- No switch has a value twice. -/
def Function.DistinctCases (f : Function) : Prop :=
  ∀ i t, f.terminator? i = some t → t.caseValues.Nodup

theorem Draft.distinctCases_congr {d d' : Draft}
    (hterm : ∀ i, d'.function.terminator? i = d.function.terminator? i)
    (h : d.function.DistinctCases) : d'.function.DistinctCases :=
  fun i t ht => h i t (hterm i ▸ ht)

theorem Draft.distinctCases_endedBy (d : Draft) {t : Terminator} (ht : t.caseValues.Nodup)
    (h : d.function.DistinctCases) : (d.endedBy t).function.DistinctCases := by
  intro i t' hi
  unfold Function.terminator? endedBy at hi
  rw [Function.getElem?_onBlock] at hi
  split at hi
  · cases hb : d.function.blocks[i]? with
    | none => simp [hb] at hi
    | some b =>
        rw [hb] at hi
        cases hi
        exact ht
  · exact h i t' hi

theorem Draft.distinctCases_carried :
    Carried fun d d' => d.function.DistinctCases → d'.function.DistinctCases where
  refl _ h := h
  trans h h' hd := h' (h hd)
  define d _ _ := distinctCases_congr (terminator?_define d _)
  append d _ _ := distinctCases_congr (terminator?_append d _)
  endedBy d _ _ ht := distinctCases_endedBy d ht
  addBlock d name := distinctCases_congr (terminator?_addBlock d name)
  goTo _ _ h := h
  nextNumber _ h := h
  withSlot d name words := distinctCases_congr (terminator?_withSlot d name words)
  withLabels _ _ h := h
  program _ _ _ h := h

theorem Function.distinctCases_of_body : OfBodies Function.DistinctCases := by
  refine OfBodies.of_carried Draft.distinctCases_carried fun name params i t ht => ?_
  cases i <;> cases ht

/-- The values of each switch of a function. -/
def Function.switches (f : Function) : List (List Word) :=
  f.blocks.filterMap fun b =>
    match b.terminator with
    | some (.switch _ _ cases) => some (cases.map Prod.fst)
    | _ => none

theorem Function.DistinctCases.switches {f : Function} (h : f.DistinctCases) :
    ∀ values ∈ f.switches, values.Nodup := by
  intro values hm
  obtain ⟨b, hb, hvalues⟩ := List.mem_filterMap.mp hm
  obtain ⟨i, hi⟩ := List.getElem?_of_mem hb
  split at hvalues
  · next hterm =>
      cases hvalues
      exact h i _ (by rw [terminator?, hi]; exact hterm)
  · cases hvalues

/-- The values are different words where words have so many bits. -/
def DistinctWords (bits : Nat) (values : List Word) : Prop :=
  values.Pairwise fun v w => v.toInt % 2 ^ bits ≠ w.toInt % 2 ^ bits

instance (bits : Nat) (values : List Word) : Decidable (DistinctWords bits values) :=
  inferInstanceAs (Decidable (values.Pairwise _))

/-- Values that are words as they stand are not taken for each other. -/
theorem distinctWords_of_fit {bits : Nat} {values : List Word} (h : values.Nodup)
    (hfit : ∀ v ∈ values, 0 ≤ v.toInt ∧ v.toInt < 2 ^ bits) : DistinctWords bits values := by
  refine List.Pairwise.imp_of_mem (fun {v w} hv hw hne he => ?_) h
  obtain ⟨hv₀, hv₁⟩ := hfit v hv
  obtain ⟨hw₀, hw₁⟩ := hfit w hw
  rw [Int.emod_eq_of_lt hv₀ hv₁, Int.emod_eq_of_lt hw₀ hw₁] at he
  exact hne (Int64.toInt_inj.mp he)

/-- A word of 64 bits or more has room for every value. -/
theorem distinctWords_of_wide {bits : Nat} (hbits : 64 ≤ bits) {values : List Word}
    (h : values.Nodup) : DistinctWords bits values := by
  refine List.Pairwise.imp (fun {v w} hne he => ?_) h
  have hv := v.toInt_lt
  have hv' := v.le_toInt
  have hw := w.toInt_lt
  have hw' := w.le_toInt
  have hdvd : (2 : Int) ^ 64 ∣ 2 ^ bits :=
    ⟨2 ^ (bits - 64), by rw [← Int.pow_add, Nat.add_sub_cancel' hbits]⟩
  have hmod := Int.emod_emod_of_dvd v.toInt hdvd
  have hmod' := Int.emod_emod_of_dvd w.toInt hdvd
  rw [he, hmod'] at hmod
  exact hne (Int64.toInt_inj.mp (by omega))

namespace Session

/-- What holds of the values of every switch in a function that an accepted source defines, whatever
was compiled before it with words of that size. -/
def EverySwitch (wordSize : Nat) (P : List Word → Prop) : Prop :=
  ∀ moduleName sources path text s' u,
    compile path text ((new moduleName wordSize).history sources) = .ok u s' →
    ∀ name ∈ ((new moduleName wordSize).history sources).definedFunctions text,
      ∃ f, s'.module.function? name = some f ∧ ∀ values ∈ f.switches, P values

theorem EverySwitch.of_nodup {wordSize : Nat} {P : List Word → Prop}
    (h : ∀ values, values.Nodup → P values) : EverySwitch wordSize P := by
  intro moduleName sources path text s' u hs name hn
  obtain ⟨f, hf, hdistinct⟩ := function?_of_definedFunctions Function.distinctCases_of_body hs hn
  exact ⟨f, hf, fun values hm => h values (hdistinct.switches values hm)⟩

/-- A source with a case for zero and one for the first number that is no word. -/
def wrappingSource (wordSize : Nat) : String :=
  "f(x) \x7b switch (x) \x7b case 0: case " ++ toString (2 ^ (8 * wordSize)) ++ ": ; \x7d \x7d"

/-- Whether the two cases are accepted and are one word. -/
def wraps (wordSize : Nat) : Bool :=
  match compile "a.b" (wrappingSource wordSize) (new "b" wordSize) with
  | .ok _ s =>
    (new "b" wordSize).definedFunctions (wrappingSource wordSize) == ["f"] &&
      (s.module.function? "f").any fun f =>
        f.switches.any fun values => !decide (DistinctWords (8 * wordSize) values)
  | .error _ _ => false

theorem wraps_of_narrow : ∀ wordSize < 8, wraps wordSize := by decide +kernel

theorem not_everySwitch_of_wraps {wordSize : Nat} (h : wraps wordSize) :
    ¬EverySwitch wordSize (DistinctWords (8 * wordSize)) := by
  intro hevery
  unfold wraps at h
  split at h
  · next s hs =>
      rw [Bool.and_eq_true, beq_iff_eq, Option.any_eq_true] at h
      obtain ⟨hdefined, f, hf, hany⟩ := h
      obtain ⟨values, hm, hwrap⟩ := List.any_eq_true.mp hany
      obtain ⟨g, hg, hvalues⟩ := hevery "b" [] "a.b" _ s () hs "f" (hdefined ▸ .head _)
      cases hf.symm.trans hg
      simp [hvalues values hm] at hwrap
  · cases h

/-- The values of every switch are distinct, also as words of the module if they are words as they
stand. With words of eight bytes or more they always are, with smaller ones there are sources for
which they are not. -/
theorem everySwitch_distinct (wordSize : Nat) :
    EverySwitch wordSize (fun values => values.Nodup ∧
      ((∀ v ∈ values, 0 ≤ v.toInt ∧ v.toInt < 2 ^ (8 * wordSize)) →
        DistinctWords (8 * wordSize) values)) ∧
    (EverySwitch wordSize (DistinctWords (8 * wordSize)) ↔ 8 ≤ wordSize) := by
  refine ⟨.of_nodup fun values h => ⟨h, distinctWords_of_fit h⟩, fun hevery => ?_, fun hwide => ?_⟩
  · refine Nat.not_lt.mp fun hnarrow => ?_
    exact not_everySwitch_of_wraps (wraps_of_narrow wordSize hnarrow) hevery
  · exact .of_nodup fun values h => distinctWords_of_wide (by omega) h

/-- In words of one byte, 0 and 256 are one word. Both are accepted as cases of one switch. -/
theorem switch_repeats_word :
    ∃ s f, compile "a.b" "f(x) \x7b switch (x) \x7b case 0: case 256: ; \x7d \x7d" (new "b" 1) =
        .ok () s ∧ s.module.function? "f" = some f ∧ f.switches = [[0, 256]] ∧
      ¬DistinctWords 8 [0, 256] := by
  have hok : (match compile "a.b" "f(x) \x7b switch (x) \x7b case 0: case 256: ; \x7d \x7d"
        (new "b" 1) with
      | .ok _ s => (s.module.function? "f").map Function.switches
      | .error _ _ => none) = some [[0, 256]] := by decide +kernel
  split at hok
  · next s hs =>
      obtain ⟨f, hf, hswitches⟩ := Option.map_eq_some_iff.mp hok
      exact ⟨s, f, hs, hf, hswitches, by decide⟩
  · cases hok

end Session
end BCompiler
