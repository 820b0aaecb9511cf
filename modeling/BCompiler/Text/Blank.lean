/-! The characters that separate words of a source text. -/
namespace BCompiler

/-- Code point ranges, ends included, of the Unicode property White_Space. -/
def blankRanges : List (Nat × Nat) :=
  [(0x09, 0x0D), (0x20, 0x20), (0x85, 0x85), (0xA0, 0xA0), (0x1680, 0x1680), (0x2000, 0x200A),
    (0x2028, 0x2029), (0x202F, 0x202F), (0x205F, 0x205F), (0x3000, 0x3000)]

def isBlank (c : Char) : Bool :=
  blankRanges.any fun range => Nat.ble range.1 c.toNat && Nat.ble c.toNat range.2

end BCompiler
