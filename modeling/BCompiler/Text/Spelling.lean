/-! Spellings of characters and bytes that would not survive as they are. -/
namespace BCompiler

/-- A character as a message shows it: the usual backslash escapes, printable ASCII as it is,
and any other character by its code point. -/
def shownChar (c : Char) : String :=
  match c with
  | '\t' => "\\t"
  | '\r' => "\\r"
  | '\n' => "\\n"
  | '\'' => "\\'"
  | '"' => "\\\""
  | '\\' => "\\\\"
  | c =>
    if Nat.ble 0x20 c.toNat && Nat.ble c.toNat 0x7E then String.singleton c
    else "\\u\x7b" ++ String.ofList (Nat.toDigits 16 c.toNat) ++ "\x7d"

/-- An upper-case hexadecimal digit. -/
def hexDigit (n : Nat) : Char :=
  if n < 10 then Char.ofNat (48 + n) else Char.ofNat (55 + n)

/-- Printable ASCII stands for itself in a byte literal, except the quote and the backslash. -/
def isPlainByte (b : UInt8) : Bool :=
  Nat.ble 0x20 b.toNat && Nat.ble b.toNat 0x7E && b.toNat != 0x22 && b.toNat != 0x5C

/-- One byte inside a byte literal: itself, or a backslash and two hexadecimal digits. -/
def byteSpelling (b : UInt8) : List Char :=
  if isPlainByte b then [Char.ofNat b.toNat]
  else ['\\', hexDigit (b.toNat / 16), hexDigit (b.toNat % 16)]

/-- The inside of a byte literal. -/
def byteLiteral (bytes : List UInt8) : String := String.ofList (bytes.flatMap byteSpelling)

/-- The UTF-8 bytes of a text. -/
def utf8Bytes (text : String) : List UInt8 := text.toUTF8.data.toList

end BCompiler
