/-! The one data type of B: a signed machine word whose arithmetic wraps at 64 bits. -/
namespace BCompiler

/-- A constant word. -/
abbrev Word := Int64

namespace Word

/-- The decimal spelling, with a minus sign in front of a negative word. -/
def decimal (w : Word) : String := toString w.toInt

/-- One more digit, read in the given base, after the digits of `w`. -/
def snoc (base : Nat) (w : Word) (digit : Char) : Word :=
  w * Int64.ofNat base + Int64.ofNat (digit.toNat - 48)

/-- One more byte below the bytes of `w`; only the low eight bits of the character count. -/
def pack (w : Word) (c : Char) : Word := w * 256 + Int64.ofNat (c.toNat % 256)

/-- A word as a count of words, where a negative word counts as none. -/
def count (w : Word) : UInt64 := UInt64.ofNat w.toInt.toNat

theorem ofNat_toNat {i : Word} (h : 0 ≤ i.toInt) : Int64.ofNat i.toInt.toNat = i := by
  rw [← Int64.ofInt_eq_ofNat, Int.toNat_of_nonneg h, Int64.ofInt_toInt]

/-- A word stands for a number up to a multiple of the number of words. -/
theorem eq_ofNat_iff {w : Word} {n : Nat} :
    w = Int64.ofNat n ↔ w.toInt % Int64.size = n % Int64.size := by
  constructor
  · rintro rfl
    rw [Int64.toInt_ofNat', Int.bmod_emod]
  · intro h
    rw [← Int64.toInt_inj, Int64.toInt_ofNat', ← Int64.toInt_bmod_size w, ← Int.emod_bmod, h,
      Int.emod_bmod]

/-- Different numbers are different words while they are below the number of words. -/
theorem ofNat_injOn {a b : Nat} (ha : a < UInt64.size) (hb : b < UInt64.size)
    (h : Int64.ofNat a = Int64.ofNat b) : a = b := by
  have hbits := congrArg (fun w => w.toUInt64.toNat) h
  simpa [Nat.mod_eq_of_lt ha, Nat.mod_eq_of_lt hb] using hbits

end Word
end BCompiler
