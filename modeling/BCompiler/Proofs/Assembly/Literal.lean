import BCompiler.IR.Assembly

/-!
Byte literals and what they stand for.

A literal is read from the left: a backslash and two hexadecimal digits stand for one byte, any
other character for its own code. Where bytes are written as a literal, a backslash is only ever the
head of an escape. So an escape takes in nothing of what follows it, and reading the literal gives
the bytes back. With the zero byte at its end, the literal of a string then has as many bytes as its
type says.
-/
namespace BCompiler

/-- Printable ASCII, the space included. -/
def isPrintable (c : Char) : Bool := Nat.ble 0x20 c.toNat && Nat.ble c.toNat 0x7E

/-- One of `0` to `9` and `A` to `F`. -/
def isUpperHex (c : Char) : Bool :=
  Nat.ble 48 c.toNat && Nat.ble c.toNat 57 || Nat.ble 65 c.toNat && Nat.ble c.toNat 70

def hexValue (c : Char) : Nat := if c.toNat < 65 then c.toNat - 48 else c.toNat - 55

/-- The value of a hexadecimal digit, which may be of either case. -/
def hexValue? (c : Char) : Option Nat :=
  if isUpperHex c then some (hexValue c)
  else if Nat.ble 97 c.toNat && Nat.ble c.toNat 102 then some (c.toNat - 87)
  else none

/-- The codes that the inside of a literal stands for. A backslash that two hexadecimal digits do
not follow is a character as any other. -/
def literalCodes : List Char → List Nat
  | '\\' :: high :: low :: rest =>
    match hexValue? high, hexValue? low with
    | some h, some l => (16 * h + l) :: literalCodes rest
    | _, _ => '\\'.toNat :: literalCodes (high :: low :: rest)
  | c :: rest => c.toNat :: literalCodes rest
  | [] => []

theorem isUpperHex_hexDigit {n : Nat} (h : n < 16) : isUpperHex (hexDigit n) := by
  have hall : ∀ n : Fin 16, isUpperHex (hexDigit n) := by decide
  exact hall ⟨n, h⟩

theorem hexValue_hexDigit {n : Nat} (h : n < 16) : hexValue (hexDigit n) = n := by
  have hall : ∀ n : Fin 16, hexValue (hexDigit n) = n := by decide
  exact hall ⟨n, h⟩

theorem isPrintable_of_isUpperHex {c : Char} (h : isUpperHex c) :
    isPrintable c ∧ c ≠ '"' ∧ c ≠ '\\' := by
  refine ⟨?_, ?_, ?_⟩
  · simp only [isUpperHex, isPrintable, Bool.or_eq_true, Bool.and_eq_true, Nat.ble_eq] at h ⊢
    omega
  · rintro rfl
    cases h
  · rintro rfl
    cases h

/-- A byte is spelled by a character that is neither quote nor backslash, or by an escape. -/
theorem byteSpelling_cases (b : UInt8) :
    (∃ c, byteSpelling b = [c] ∧ isPrintable c ∧ c ≠ '"' ∧ c ≠ '\\' ∧ c.toNat = b.toNat) ∨
    ∃ high low, byteSpelling b = ['\\', high, low] ∧ isUpperHex high ∧ isUpperHex low ∧
      16 * hexValue high + hexValue low = b.toNat := by
  have hsize := b.toNat_lt_size
  cases hplain : isPlainByte b with
  | true =>
      have hs : byteSpelling b = [Char.ofNat b.toNat] := if_pos hplain
      simp only [isPlainByte, Bool.and_eq_true, Nat.ble_eq, bne_iff_ne] at hplain
      obtain ⟨⟨⟨hlow, hhigh⟩, hquote⟩, hbackslash⟩ := hplain
      have hvalid : b.toNat.isValidChar := .inl (by omega)
      have hcode : (Char.ofNat b.toNat).toNat = b.toNat := by
        rw [Char.ofNat, dif_pos hvalid]
        rfl
      refine .inl ⟨_, hs, ?_, ?_, ?_, hcode⟩
      · simp only [isPrintable, hcode, Bool.and_eq_true, Nat.ble_eq]
        exact ⟨hlow, hhigh⟩
      · exact fun hc => hquote (hcode.symm.trans (congrArg Char.toNat hc))
      · exact fun hc => hbackslash (hcode.symm.trans (congrArg Char.toNat hc))
  | false =>
      have hhigh : b.toNat / 16 < 16 := Nat.div_lt_of_lt_mul hsize
      have hlow : b.toNat % 16 < 16 := Nat.mod_lt _ (by decide)
      refine .inr ⟨_, _, if_neg (by simp [hplain]), isUpperHex_hexDigit hhigh,
        isUpperHex_hexDigit hlow, ?_⟩
      rw [hexValue_hexDigit hhigh, hexValue_hexDigit hlow, Nat.div_add_mod]

/-- What is written for bytes is printable and holds no quote. -/
theorem isPrintable_of_mem_byteLiteral {bytes : List UInt8} {c : Char}
    (h : c ∈ (byteLiteral bytes).toList) : isPrintable c ∧ c ≠ '"' := by
  rw [byteLiteral, String.toList_ofList, List.mem_flatMap] at h
  obtain ⟨b, _, hc⟩ := h
  rcases byteSpelling_cases b with ⟨d, hs, hprintable, hquote, _⟩ | ⟨high, low, hs, hhigh, hlow, _⟩
  · rw [hs, List.mem_singleton] at hc
    exact hc ▸ ⟨hprintable, hquote⟩
  · simp only [hs, List.mem_cons, List.not_mem_nil, or_false] at hc
    rcases hc with rfl | rfl | rfl
    · decide
    · exact ⟨(isPrintable_of_isUpperHex hhigh).1, (isPrintable_of_isUpperHex hhigh).2.1⟩
    · exact ⟨(isPrintable_of_isUpperHex hlow).1, (isPrintable_of_isUpperHex hlow).2.1⟩

theorem literalCodes_cons {c : Char} (h : c ≠ '\\') (rest : List Char) :
    literalCodes (c :: rest) = c.toNat :: literalCodes rest := by
  rw [literalCodes]
  exact fun _ _ _ hc _ => h hc

theorem literalCodes_escape {high low : Char} (hhigh : isUpperHex high) (hlow : isUpperHex low)
    (rest : List Char) :
    literalCodes ('\\' :: high :: low :: rest) =
      (16 * hexValue high + hexValue low) :: literalCodes rest := by
  rw [literalCodes, hexValue?, hexValue?, if_pos hhigh, if_pos hlow]

/-- The spelling of a byte is read as that byte, whatever follows. -/
theorem literalCodes_byteSpelling (b : UInt8) (rest : List Char) :
    literalCodes (byteSpelling b ++ rest) = b.toNat :: literalCodes rest := by
  rcases byteSpelling_cases b with ⟨c, hs, _, _, hc, hcode⟩ | ⟨high, low, hs, hhigh, hlow, hvalue⟩
  · rw [hs, List.singleton_append, literalCodes_cons hc, hcode]
  · rw [hs, ← hvalue]
    exact literalCodes_escape hhigh hlow rest

theorem literalCodes_byteLiteral (bytes : List UInt8) :
    literalCodes (byteLiteral bytes).toList = bytes.map UInt8.toNat := by
  rw [byteLiteral, String.toList_ofList]
  induction bytes with
  | nil => rfl
  | cons b bytes ih => rw [List.flatMap_cons, literalCodes_byteSpelling, ih, List.map_cons]

-- the letters behind the escape are hexadecimal digits too
example : byteLiteral [0x0A, 0x41, 0x42] = "\\0AAB" ∧
    literalCodes "\\0AAB".toList = [0x0A, 0x41, 0x42] := by decide

/-- A backslash in a literal heads the escape of the first byte, or stands behind that byte. -/
theorem byteSpelling_append_eq_backslash {b : UInt8} {rest front tail : List Char}
    (h : byteSpelling b ++ rest = front ++ '\\' :: tail) :
    (∃ high low, front = [] ∧ byteSpelling b = ['\\', high, low] ∧ isUpperHex high ∧
      isUpperHex low ∧ tail = high :: low :: rest) ∨
    ∃ behind, front = byteSpelling b ++ behind ∧ rest = behind ++ '\\' :: tail := by
  rcases byteSpelling_cases b with ⟨c, hs, _, _, hc, _⟩ | ⟨high, low, hs, hhigh, hlow, _⟩
  · rw [hs] at h ⊢
    rcases front with _ | ⟨d, front⟩
    · exact absurd (List.cons.inj h).1 hc
    · obtain ⟨rfl, hrest⟩ := List.cons.inj h
      exact .inr ⟨front, rfl, hrest⟩
  · rw [hs] at h ⊢
    -- the two digits are no backslashes, so the front is empty or has the whole escape
    rcases front with _ | ⟨d, _ | ⟨e, _ | ⟨f, front⟩⟩⟩
    · exact .inl ⟨high, low, rfl, rfl, hhigh, hlow, (List.cons.inj h).2.symm⟩
    · obtain ⟨-, hrest⟩ := List.cons.inj h
      exact absurd (List.cons.inj hrest).1 (isPrintable_of_isUpperHex hhigh).2.2
    · obtain ⟨-, hrest⟩ := List.cons.inj (List.cons.inj h).2
      exact absurd (List.cons.inj hrest).1 (isPrintable_of_isUpperHex hlow).2.2
    · simp only [List.cons_append, List.nil_append, List.cons.injEq] at h
      obtain ⟨rfl, rfl, rfl, hrest⟩ := h
      exact .inr ⟨front, rfl, hrest⟩

/-- A backslash in the literal of some bytes heads the escape of one of them: those before it are
written in front, and those after it behind the two digits. -/
theorem exists_escape_of_backslash {bytes : List UInt8} {front tail : List Char}
    (h : (byteLiteral bytes).toList = front ++ '\\' :: tail) :
    ∃ before b after high low, bytes = before ++ b :: after ∧ front = (byteLiteral before).toList ∧
      byteSpelling b = ['\\', high, low] ∧ isUpperHex high ∧ isUpperHex low ∧
      tail = high :: low :: (byteLiteral after).toList := by
  simp only [byteLiteral, String.toList_ofList] at h ⊢
  induction bytes generalizing front with
  | nil => simp at h
  | cons b bytes ih =>
      rcases byteSpelling_append_eq_backslash h with
        ⟨high, low, rfl, hs, hhigh, hlow, htail⟩ | ⟨behind, rfl, hrest⟩
      · exact ⟨[], b, bytes, high, low, rfl, rfl, hs, hhigh, hlow, htail⟩
      · obtain ⟨before, b', after, high, low, rfl, rfl, hfound⟩ := ih hrest
        exact ⟨b :: before, b', after, high, low, rfl, rfl, hfound⟩

/-- The text is a literal of the bytes: printable and without quotes, each of its backslashes heads
an escape of exactly two digits that stands for one of the bytes, and its codes are those of the
bytes. -/
structure IsByteLiteral (text : List Char) (bytes : List UInt8) : Prop where
  printable : ∀ c ∈ text, isPrintable c
  unquoted : '"' ∉ text
  escapes : ∀ front tail, text = front ++ '\\' :: tail → ∃ before b after high low rest,
    bytes = before ++ b :: after ∧ tail = high :: low :: rest ∧ isUpperHex high ∧ isUpperHex low ∧
    literalCodes front = before.map UInt8.toNat ∧ literalCodes ['\\', high, low] = [b.toNat] ∧
    literalCodes rest = after.map UInt8.toNat
  codes : literalCodes text = bytes.map UInt8.toNat

theorem isByteLiteral_byteLiteral (bytes : List UInt8) :
    IsByteLiteral (byteLiteral bytes).toList bytes where
  printable := fun _ hc => (isPrintable_of_mem_byteLiteral hc).1
  unquoted := fun hc => (isPrintable_of_mem_byteLiteral hc).2 rfl
  escapes := by
    intro front tail h
    obtain ⟨before, b, after, high, low, hbytes, rfl, hs, hhigh, hlow, htail⟩ :=
      exists_escape_of_backslash h
    have hbyte := literalCodes_byteSpelling b []
    rw [hs] at hbyte
    exact ⟨before, b, after, high, low, _, hbytes, htail, hhigh, hlow,
      literalCodes_byteLiteral before, hbyte, literalCodes_byteLiteral after⟩
  codes := literalCodes_byteLiteral bytes

/-- The zero byte at the end of a string is written as any other. -/
theorem byteLiteral_append_zero (bytes : List UInt8) :
    byteLiteral bytes ++ "\\00" = byteLiteral (bytes ++ [0]) := by
  have hzero : "\\00" = String.ofList (byteSpelling 0) := by decide
  rw [byteLiteral, byteLiteral, hzero, ← String.ofList_append, List.flatMap_append,
    List.flatMap_singleton]

/-- What stands behind the front, if the text begins with it. -/
def behind? (front text : List Char) : Option (List Char) :=
  if front.isPrefixOf text then some (text.drop front.length) else none

theorem behind?_append (front rest : List Char) : behind? front (front ++ rest) = some rest := by
  rw [behind?, if_pos (List.isPrefixOf_iff_prefix.mpr (List.prefix_append front rest)),
    List.drop_left]

/-- Up to the head of the rest, and no further. -/
theorem takeWhile_dropWhile_append {p : Char → Bool} {text rest : List Char}
    (h : ∀ c ∈ text, p c) (hrest : rest.head?.any p = false) :
    (text ++ rest).takeWhile p = text ∧ (text ++ rest).dropWhile p = rest := by
  rw [List.takeWhile_append_of_pos h, List.dropWhile_append_of_pos h]
  cases rest with
  | nil => exact ⟨List.append_nil text, rfl⟩
  | cons c rest =>
      have hc : p c = false := hrest
      rw [List.takeWhile_cons, List.dropWhile_cons, hc]
      exact ⟨List.append_nil text, rfl⟩

/-- The number at the head of a text, and what stands behind its digits. -/
def numberAt (text : List Char) : Nat × List Char :=
  (Nat.ofDigitChars 10 (text.takeWhile Char.isDigit) 0, text.dropWhile Char.isDigit)

theorem numberAt_toString (n : Nat) (rest : List Char) (h : rest.head?.any Char.isDigit = false) :
    numberAt ((toString n).toList ++ rest) = (n, rest) := by
  have htext : (toString n).toList = Nat.toDigits 10 n := Nat.toList_repr
  have hdigits : ∀ d ∈ Nat.toDigits 10 n, d.isDigit := fun _ =>
    Nat.isDigit_of_mem_toDigits (by decide) (by decide)
  obtain ⟨hnumber, hbehind⟩ := takeWhile_dropWhile_append hdigits h
  rw [numberAt, htext, hnumber, hbehind, Nat.ofDigitChars_toDigits (by decide) (by decide)]

/-- What stands in front of the first quote, if that ends the text. -/
def untilQuote? (text : List Char) : Option (List Char) :=
  if text.dropWhile (· != '"') = ['"'] then some (text.takeWhile (· != '"')) else none

theorem untilQuote?_append {text : List Char} (h : '"' ∉ text) :
    untilQuote? (text ++ ['"']) = some text := by
  have hne : ∀ c ∈ text, (c != '"') = true := fun c hc => bne_iff_ne.mpr fun he => h (he ▸ hc)
  have hstop : ['"'].head?.any (· != '"') = false := rfl
  obtain ⟨hinside, hquote⟩ := takeWhile_dropWhile_append hne hstop
  rw [untilQuote?, hinside, hquote, if_pos rfl]

namespace Module

/-- What the line of a string states: the number of bytes in its type, and the inside of the literal
that ends the line. -/
def stated? (name line : String) : Option (Nat × List Char) := do
  let type ← behind? ("@" ++ name ++ " = private unnamed_addr constant [").toList line.toList
  let literal ← behind? " x i8] c\"".toList (numberAt type).2
  let inside ← untilQuote? literal
  return ((numberAt type).1, inside)

theorem stated?_stringLine (s : StringConstant) :
    stated? s.name (stringLine s) =
      some (s.bytes.length + 1, (byteLiteral (s.bytes ++ [0])).toList) := by
  have hline : (stringLine s).toList =
      ("@" ++ s.name ++ " = private unnamed_addr constant [").toList ++
        ((toString (s.bytes.length + 1)).toList ++ (" x i8] c\"".toList ++
          ((byteLiteral (s.bytes ++ [0])).toList ++ ['"']))) := by
    have hclose : "\\00\"" = "\\00" ++ "\"" := rfl
    have hend : "\"".toList = ['"'] := rfl
    simp only [stringLine, ← byteLiteral_append_zero, hclose, String.toList_append, hend,
      List.append_assoc]
  have hnumber (rest : List Char) :=
    numberAt_toString (s.bytes.length + 1) (" x i8] c\"".toList ++ rest) rfl
  have hquote : '"' ∉ (byteLiteral (s.bytes ++ [0])).toList :=
    (isByteLiteral_byteLiteral _).unquoted
  simp only [stated?, hline, behind?_append, hnumber, untilQuote?_append hquote,
    Option.bind_eq_bind, Option.bind_some, Option.pure_def]

/-- The strings of a module take its lines from the fourth on, in order. -/
theorem getElem?_lines {m : Module} {lines : List String} (h : m.lines = .ok lines) {i : Nat}
    {s : StringConstant} (hs : m.strings[i]? = some s) : lines[3 + i]? = some (stringLine s) := by
  have hline : (m.strings.map stringLine)[i]? = some (stringLine s) := by
    rw [List.getElem?_map, hs, Option.map_some]
  have hfront : paragraph (m.strings.map stringLine) = "" :: m.strings.map stringLine := by
    unfold paragraph
    cases hl : m.strings with
    | nil => rw [hl] at hs; cases hs
    | cons s rest => rfl
  unfold Module.lines at h
  cases hd : (m.functions.filter fun f => !f.isDeclaration).mapM m.functionLines with
  | error e => rw [hd] at h; cases h
  | ok definitions =>
      rw [hd] at h
      cases h
      have hin : i < (m.strings.map stringLine).length := (List.getElem?_eq_some_iff.mp hline).1
      rw [hfront, Nat.add_comm]
      simp only [List.append_assoc, List.cons_append, List.nil_append, List.getElem?_cons_succ,
        List.getElem?_append_left hin]
      exact hline

theorem lines_of_assembly {m : Module} {text : String} (h : m.assembly = .ok text) :
    ∃ lines, m.lines = .ok lines ∧ text = String.join (lines.map fun line => line ++ "\n") := by
  unfold assembly at h
  cases hl : m.lines with
  | error e => rw [hl] at h; cases h
  | ok lines =>
      rw [hl] at h
      cases h
      exact ⟨lines, rfl, rfl⟩

/-- Bytes are written as a literal that is read as these bytes. So where the text of a module has
the line of a string, the literal up to the closing quote gives the contents and one zero byte,
which are as many bytes as the type in front of it states. -/
theorem literals_read_back :
    (∀ bytes : List UInt8, IsByteLiteral (byteLiteral bytes).toList bytes) ∧
    ∀ (m : Module) (text : String), m.assembly = .ok text →
      ∃ lines, m.lines = .ok lines ∧ text = String.join (lines.map fun line => line ++ "\n") ∧
        ∀ i s, m.strings[i]? = some s → ∃ line size literal, lines[3 + i]? = some line ∧
          stated? s.name line = some (size, literal) ∧ IsByteLiteral literal (s.bytes ++ [0]) ∧
          (literalCodes literal).length = size := by
  refine ⟨isByteLiteral_byteLiteral, fun m text h => ?_⟩
  obtain ⟨lines, hlines, htext⟩ := lines_of_assembly h
  refine ⟨lines, hlines, htext, fun i s hs => ?_⟩
  refine ⟨_, _, _, getElem?_lines hlines hs, stated?_stringLine s, isByteLiteral_byteLiteral _, ?_⟩
  rw [literalCodes_byteLiteral, List.length_map, List.length_append]
  rfl

/-- A quote, two letters that would be digits, a backslash, a newline, a zero byte and a letter
beyond ASCII. -/
theorem literals_read_back_escapes :
    ∃ (text : String) (lines : List String) (line : String) (literal : List Char),
      (Module.mk "a.b" 64 [] [] [⟨".str.0", [34, 65, 66, 92, 10, 0, 195, 169]⟩]).assembly =
        .ok text ∧
      text = String.join (lines.map fun line => line ++ "\n") ∧ lines[3]? = some line ∧
      stated? ".str.0" line = some (9, literal) ∧
      literalCodes literal = [34, 65, 66, 92, 10, 0, 195, 169, 0] := by
  obtain ⟨lines, _, htext, hall⟩ := literals_read_back.2
    (.mk "a.b" 64 [] [] [⟨".str.0", [34, 65, 66, 92, 10, 0, 195, 169]⟩]) _ rfl
  obtain ⟨line, size, literal, hline, hstated, hliteral, hsize⟩ := hall 0 _ rfl
  have hcodes : literalCodes literal = [34, 65, 66, 92, 10, 0, 195, 169, 0] := hliteral.codes
  obtain rfl : 9 = size := by rw [← hsize, hcodes]; rfl
  exact ⟨_, lines, line, literal, rfl, htext, hline, hstated, hcodes⟩

end Module
end BCompiler
