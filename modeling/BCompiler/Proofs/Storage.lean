import BCompiler.IR.Module
import BCompiler.Proofs.Machine
import BCompiler.Proofs.Trail.Need

/-!
Where storage lies in memory.

A stack slot or a global takes the bytes of its words, one word behind the other. Whoever places the
storage of a function and of its module gives every slot and every global bytes of its own. An array
is a word that points to the data words; these are part of one slot or are a global of their own.
-/
namespace BCompiler

/-- The bytes from an address on. -/
structure Extent where
  base : Word
  size : Nat

namespace Extent

def Has (x : Extent) (a : Word) : Prop := ∃ k < x.size, a = x.base + Int64.ofNat k

/-- Every byte of the one belongs to the other. -/
def Inside (x y : Extent) : Prop := ∀ a, x.Has a → y.Has a

/-- The two have no byte in common. -/
def Apart (x y : Extent) : Prop := ∀ a, x.Has a → ¬y.Has a

/-- Some bytes of an extent, from an offset on. -/
def part (offset size : Nat) (x : Extent) : Extent := ⟨x.base + Int64.ofNat offset, size⟩

variable {x y z : Extent} {offset size offset' size' : Nat}

theorem Apart.symm (h : x.Apart y) : y.Apart x := fun a hy hx => h a hx hy

theorem Inside.apart (h : x.Inside y) (h' : y.Apart z) : x.Apart z := fun a ha => h' a (h a ha)

theorem part_inside (h : offset + size ≤ x.size) : (x.part offset size).Inside x := by
  rintro a ⟨k, hk, rfl⟩
  change k < size at hk
  refine ⟨offset + k, by omega, ?_⟩
  rw [part, Int64.ofNat_add, Int64.add_assoc]

theorem part_part : (x.part offset size).part offset' size' = x.part (offset + offset') size' := by
  rw [part, part, part, Int64.ofNat_add, Int64.add_assoc]

/-- An extent does not come round to its beginning while it has no more bytes than there are
addresses. -/
theorem parts_apart (hx : x.size ≤ UInt64.size) (h : offset + size ≤ offset')
    (h' : offset' + size' ≤ x.size) : (x.part offset size).Apart (x.part offset' size') := by
  rintro a ⟨k, hk, rfl⟩ ⟨k', hk', he⟩
  change k < size at hk
  change k' < size' at hk'
  simp only [part, Int64.add_assoc, Int64.add_right_inj, ← Int64.ofNat_add] at he
  have := Word.ofNat_injOn (by omega) (by omega) he
  omega

end Extent

/-- Something that takes storage: a stack slot of a function, or a global of a module. -/
inductive Storage where
  | slot (id : ValueId) (words : Option UInt64)
  | global (g : Global)
  deriving DecidableEq, Repr

/-- The number of words of a global. -/
def GlobalInit.wordCount : GlobalInit → Nat
  | .word _ | .placeholder => 1
  | .words values => values.length
  | .buffer length _ => length.toNat

/-- The words that a global is given at the start, as far as they are stated. -/
def GlobalInit.constants : GlobalInit → List Constant
  | .word value => [value]
  | .words values | .buffer _ values => values
  | .placeholder => []

def Storage.words : Storage → Nat
  | slot _ words => (words.map UInt64.toNat).getD 1
  | global g => g.init.wordCount

/-- The slot that an instruction makes. -/
def Instr.slot? : Instr → Option Storage
  | .define id (.alloca words) => some (.slot id words)
  | _ => none

theorem Instr.slot?_eq_some {instr : Instr} {id : ValueId} {words : Option UInt64} :
    instr.slot? = some (.slot id words) ↔ instr = .define id (.alloca words) := by
  constructor
  · intro h
    unfold slot? at h
    split at h
    · cases h
      rfl
    · cases h
  · rintro rfl
    rfl

namespace Machine

/-- The slots of the function that runs and the globals that are there. -/
def storage (globals : List Global) (m : Machine) : List Storage :=
  m.function.instrs.filterMap Instr.slot? ++ globals.map .global

theorem slot_mem_storage {globals : List Global} {m : Machine} {id : ValueId}
    {words : Option UInt64} :
    .slot id words ∈ m.storage globals ↔ .define id (.alloca words) ∈ m.function.instrs := by
  simp [storage, List.mem_filterMap, Instr.slot?_eq_some]

theorem global_mem_storage {globals : List Global} {m : Machine} {g : Global}
    (h : g ∈ globals) : .global g ∈ m.storage globals :=
  List.mem_append_right _ (List.mem_map.mpr ⟨g, h, rfl⟩)

/-- Where storage begins. -/
def place (m : Machine) : Storage → Word
  | .slot id _ => m.slot id
  | .global g => (m.symbol g.name).getD 0

/-- The bytes of storage, where a word has `size` bytes. -/
def extent (size : Nat) (m : Machine) (s : Storage) : Extent := ⟨m.place s, s.words * size⟩

/-- The word of a constant. -/
def constant (m : Machine) : Constant → Option Word
  | .word value => some value
  | .address name => m.symbol name

/-- Memory holds what the globals are given at the start. -/
def Loaded (globals : List Global) (memory : Memory) (m : Machine) : Prop :=
  ∀ g ∈ globals, ∀ k value, g.init.constants[k]? = some value →
    m.constant value = some (memory (m.place (.global g) + Int64.ofNat k * m.wordSize))

/-- The storage is laid out for words of `size` bytes: no slot and no global has more bytes than
there are addresses, and no two of them share a byte. -/
structure Laid (size : Nat) (globals : List Global) (m : Machine) : Prop where
  wordSize : m.wordSize = Int64.ofNat size
  placed : ∀ g ∈ globals, (m.symbol g.name).isSome
  fits : ∀ s ∈ m.storage globals, s.words * size ≤ UInt64.size
  apart : ∀ s ∈ m.storage globals, ∀ s' ∈ m.storage globals, s ≠ s' →
    (m.extent size s).Apart (m.extent size s')

end Machine

/-- An array as it lies in memory: the address of the word that points to its data, the address of
its first data word, the number of data words, and the storage that they are part of. -/
structure ArrayPlace where
  head : Word
  data : Word
  length : Nat
  owner : Storage

/-- The word at an address is a data word of the array, and it lies neither on the word that points
to the data nor on any slot or global but the one that holds the data. -/
structure Machine.Confines (size : Nat) (globals : List Global) (x : ArrayPlace) (a : Word)
    (m : Machine) : Prop where
  inside : Extent.Inside ⟨a, size⟩ ⟨x.data, x.length * size⟩
  owned : Extent.Inside ⟨a, size⟩ (m.extent size x.owner)
  head : Extent.Apart ⟨a, size⟩ ⟨x.head, size⟩
  others : ∀ s ∈ m.storage globals, s ≠ x.owner → Extent.Apart ⟨a, size⟩ (m.extent size s)

/-- The word of a global that is given an address holds it at the start. -/
theorem Machine.Loaded.address {globals : List Global} {memory : Memory} {m : Machine}
    (h : m.Loaded globals memory) {g : Global} (hg : g ∈ globals) {name : String}
    (hinit : g.init = .word (.address name)) {head data : Word}
    (hhead : m.symbol g.name = some head) (hdata : m.symbol name = some data) :
    memory head = data := by
  have hword := h g hg 0 (.address name) (by rw [hinit]; rfl)
  rw [constant, hdata, place, hhead, show Int64.ofNat 0 = 0 from rfl, Int64.zero_mul,
    Int64.add_zero] at hword
  exact (Option.some.inj hword).symm

namespace Machine.Laid

variable {size : Nat} {globals : List Global} {m : Machine}

/-- The word with an index is so many words behind the first one. -/
theorem part_eq (h : m.Laid size globals) (y : Extent) {i : Word} (hi : 0 ≤ i.toInt) :
    (⟨y.base + i * m.wordSize, size⟩ : Extent) = y.part (i.toInt.toNat * size) size := by
  rw [Extent.part, Int64.ofNat_mul, Word.ofNat_toNat hi, h.wordSize]

theorem index_fits {i : Word} {length : Nat} (hi : 0 ≤ i.toInt) (hlt : i.toInt < length) :
    i.toInt.toNat * size + size ≤ length * size := by
  have hle : i.toInt.toNat + 1 ≤ length := by omega
  have := Nat.mul_le_mul_right size hle
  rwa [Nat.add_one_mul] at this

/-- A word inside its storage keeps to that storage. -/
theorem others (h : m.Laid size globals) {s : Storage} (hs : s ∈ m.storage globals) {y : Extent}
    (hy : y.Inside (m.extent size s)) :
    ∀ s' ∈ m.storage globals, s' ≠ s → y.Apart (m.extent size s') :=
  fun s' hs' hne => hy.apart (h.apart s hs s' hs' hne.symm)

/-- The data words that follow the first word of a slot. -/
theorem confines_slot (h : m.Laid size globals) {id : ValueId} {words : UInt64} {length : Nat}
    (hs : .slot id (some words) ∈ m.storage globals) (hwords : words.toNat = length + 1)
    {i : Word} (hi : 0 ≤ i.toInt) (hlt : i.toInt < length) :
    m.Confines size globals ⟨m.slot id, m.slot id + m.wordSize, length, .slot id (some words)⟩
      (m.slot id + m.wordSize + i * m.wordSize) := by
  obtain ⟨y, hy⟩ : ∃ y, m.extent size (.slot id (some words)) = y := ⟨_, rfl⟩
  have hbase : y.base = m.slot id := by rw [← hy]; rfl
  have hsize : y.size = length * size + size := by
    rw [← hy, extent, Storage.words, Option.map_some, Option.getD_some, hwords, Nat.add_one_mul]
  have hfits : y.size ≤ UInt64.size := hy ▸ h.fits _ hs
  have hindex := @index_fits size _ _ hi hlt
  -- The data words are the slot without its first word.
  have hdata : (⟨m.slot id + m.wordSize, length * size⟩ : Extent) =
      y.part size (length * size) := by
    rw [Extent.part, hbase, h.wordSize]
  have hword : (⟨m.slot id + m.wordSize + i * m.wordSize, size⟩ : Extent) =
      (y.part size (length * size)).part (i.toInt.toNat * size) size := by
    rw [← hdata]
    exact h.part_eq ⟨m.slot id + m.wordSize, length * size⟩ hi
  have howned : (⟨m.slot id + m.wordSize + i * m.wordSize, size⟩ : Extent).Inside y := by
    rw [hword, Extent.part_part]
    exact Extent.part_inside (by omega)
  refine ⟨?_, hy ▸ howned, ?_, h.others hs (hy ▸ howned)⟩
  · rw [hword, hdata]
    exact Extent.part_inside hindex
  · have hhead : (⟨m.slot id, size⟩ : Extent) = y.part 0 size := by
      rw [Extent.part, hbase, show Int64.ofNat 0 = 0 from rfl, Int64.add_zero]
    rw [hword, Extent.part_part, hhead]
    exact (Extent.parts_apart hfits (by omega) (by omega)).symm

/-- The data words that are a global of their own. -/
theorem confines_global (h : m.Laid size globals) {g g' : Global} (hg : g ∈ globals)
    (hg' : g' ∈ globals) (hne : g ≠ g') {head data : Word} (hhead : m.symbol g.name = some head)
    (hdata : m.symbol g'.name = some data) {length : Nat} (hword : g.init.wordCount = 1)
    (hlength : g'.init.wordCount = length) {i : Word} (hi : 0 ≤ i.toInt) (hlt : i.toInt < length) :
    m.Confines size globals ⟨head, data, length, .global g'⟩ (data + i * m.wordSize) := by
  have hextent : m.extent size (.global g') = ⟨data, length * size⟩ := by
    rw [extent, place, hdata, Storage.words, hlength, Option.getD_some]
  have howned : (⟨data + i * m.wordSize, size⟩ : Extent).Inside (m.extent size (.global g')) := by
    rw [hextent, h.part_eq ⟨data, length * size⟩ hi]
    exact Extent.part_inside (index_fits hi hlt)
  have hothers := h.others (global_mem_storage hg') howned
  refine ⟨hextent ▸ howned, howned, ?_, hothers⟩
  have hapart := hothers _ (global_mem_storage hg) fun he => hne (Storage.global.inj he)
  rwa [extent, place, hhead, Option.getD_some, Storage.words, hword, Nat.one_mul] at hapart

end Machine.Laid
end BCompiler
