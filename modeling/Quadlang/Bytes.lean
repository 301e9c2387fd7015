-- Program text, names and messages are sequences of bytes: nothing promises that
-- they are well-formed characters. This file writes numbers and columns as bytes.

namespace Quadlang

/-- A text as the machine sees it: bytes, in any encoding or none. -/
abbrev Bytes := List UInt8

/-- The bytes of a text of ASCII characters. -/
def ascii (s : String) : Bytes := s.toList.map Char.toUInt8

namespace Bytes

/-! ## Numbers -/

/-- A natural number in decimal digits. -/
def ofNat (n : Nat) : Bytes := (Nat.toDigits 10 n).map Char.toUInt8

/-- An integer in decimal digits, with a minus sign below zero. -/
def ofInt : Int → Bytes
  | .ofNat n => ofNat n
  | .negSucc n => ascii "-" ++ ofNat (n + 1)

/-- A machine integer in decimal digits. -/
def ofWord (n : Int64) : Bytes := ofInt n.toInt

/-- The last `width` hexadecimal digits of a number, in lower case. -/
def ofHex : (width : Nat) → Nat → Bytes
  | 0, _ => []
  | width + 1, n => ofHex width (n / 16) ++ [(Nat.digitChar (n % 16)).toUInt8]

/-! ## Columns -/

/-- Blanks in front, up to `width` bytes in all. -/
def padLeft (width : Nat) (b : Bytes) : Bytes :=
  List.replicate (width - b.length) ' '.toUInt8 ++ b

/-- Blanks behind, up to `width` bytes in all. -/
def padRight (width : Nat) (b : Bytes) : Bytes :=
  b ++ List.replicate (width - b.length) ' '.toUInt8

/-- A message about `inner` that happened in a context: `context: inner`, or just
`inner` if there is nothing to say about the context. -/
def within (context inner : Bytes) : Bytes :=
  if context.isEmpty then inner else context ++ ascii ": " ++ inner

/-- Texts in a row with a separator between them. -/
def sepBy (sep : Bytes) (parts : List Bytes) : Bytes := (parts.intersperse sep).flatten

/-! ## Laws of the columns -/

@[simp]
theorem length_padLeft (width : Nat) (b : Bytes) :
    (padLeft width b).length = max width b.length := by
  simp [padLeft]; omega

@[simp]
theorem length_padRight (width : Nat) (b : Bytes) :
    (padRight width b).length = max width b.length := by
  simp [padRight]; omega

@[simp]
theorem length_ofHex (width n : Nat) : (ofHex width n).length = width := by
  induction width generalizing n with
  | zero => rfl
  | succ width ih => simp [ofHex, ih]

end Bytes

end Quadlang
