-- Quoted text: how messages and listings quote a text or a character, and how a
-- quoted literal of a program reads. Writing escapes what has no visible form;
-- reading takes the same escapes, and octal ones.
import Quadlang.Text.Scalar
import Quadlang.Text.Printable

namespace Quadlang.Text

/-- The mark around texts. -/
def doubleQuote : UInt8 := '"'.toUInt8

/-- The mark around characters. -/
def singleQuote : UInt8 := '\''.toUInt8

/-- The byte that begins an escape. -/
def backslash : UInt8 := '\\'.toUInt8

/-- The escapes of one letter, with the control characters that they stand for. -/
def letterEscapes : List (UInt8 × Nat) :=
  [('a'.toUInt8, 7), ('b'.toUInt8, 8), ('f'.toUInt8, 12), ('n'.toUInt8, 10), ('r'.toUInt8, 13),
    ('t'.toUInt8, 9), ('v'.toUInt8, 11)]

/-! ## Writing -/

/-- A character as it stands inside marks of the kind `mark`. -/
def escape (mark : UInt8) (n : Nat) : Bytes :=
  if n = mark.toNat ∨ n = backslash.toNat then [backslash, n.toUInt8]
  else if isPrintable n then encode n
  else match letterEscapes.find? fun (_, m) => m == n with
    | some (letter, _) => [backslash, letter]
    | none =>
      if n < 0x20 ∨ n = 0x7F then ascii "\\x" ++ Bytes.ofHex 2 n
      else if n < 0x10000 then ascii "\\u" ++ Bytes.ofHex 4 n
      else ascii "\\U" ++ Bytes.ofHex 8 n

/-- A text in double quotes. A byte that belongs to no character is written by its
number. -/
def quote (b : Bytes) : Bytes :=
  [doubleQuote] ++
    ((pieces b).map fun
      | .inl n => escape doubleQuote n
      | .inr a => ascii "\\x" ++ Bytes.ofHex 2 a.toNat).flatten ++
    [doubleQuote]

/-- A character in single quotes, by its number. A number of no character is written as
the replacement character. -/
def quoteChar (n : Int) : Bytes :=
  let n := if 0 ≤ n ∧ isScalar n.toNat then n.toNat else replacement
  [singleQuote] ++ escape singleQuote n ++ [singleQuote]

/-! ## Reading -/

/-- The value of a digit in bases up to sixteen. -/
def digit? (base : Nat) (b : UInt8) : Option Nat :=
  let c := b.toNat
  let d :=
    if 48 ≤ c ∧ c ≤ 57 then c - 48
    else if 97 ≤ c ∧ c ≤ 102 then c - 87
    else if 65 ≤ c ∧ c ≤ 70 then c - 55
    else base
  if d < base then some d else none

/-- Takes `k` digits behind the digits of `n`. -/
def digits? (base : Nat) : (k : Nat) → (n : Nat) → Bytes → Option (Nat × Bytes)
  | 0, n, r => some (n, r)
  | _ + 1, _, [] => none
  | k + 1, n, b :: r => do
    let d ← digit? base b
    digits? base k (n * base + d) r

/-- Reads what stands behind a backslash: the bytes it stands for, and the text after it.
Only the mark of the literal itself may be escaped. -/
def escaped? (mark : UInt8) : Bytes → Option (Bytes × Bytes)
  | [] => none
  | c :: r =>
    match letterEscapes.find? fun (letter, _) => letter == c with
    | some (_, n) => some ([n.toUInt8], r)
    | none =>
      if c = 'x'.toUInt8 then do
        let (n, r) ← digits? 16 2 0 r
        some ([n.toUInt8], r)
      else if c = 'u'.toUInt8 then do
        let (n, r) ← digits? 16 4 0 r
        if isScalar n then some (encode n, r) else none
      else if c = 'U'.toUInt8 then do
        let (n, r) ← digits? 16 8 0 r
        if isScalar n then some (encode n, r) else none
      else if (digit? 8 c).isSome then do
        let (n, r) ← digits? 8 3 0 (c :: r)
        if n < 256 then some ([n.toUInt8], r) else none
      else if c = backslash ∨ c = mark then some ([c], r)
      else none

/-- Reads one character of a literal: the bytes it stands for, and the text after it. A
byte of no character stands for the replacement character, and a line end for nothing. -/
def literalChar? (mark : UInt8) (b : Bytes) : Option (Bytes × Bytes) :=
  match b with
  | [] => none
  | c :: r =>
    if c = '\n'.toUInt8 then none
    else if c = backslash then escaped? mark r
    else match decode? b with
      | some (n, rest) => some (encode n, rest)
      | none => some (encode replacement, r)

theorem digits?_length {base k n m : Nat} {b rest : Bytes}
    (h : digits? base k n b = some (m, rest)) : rest.length + k = b.length := by
  induction k generalizing n b with
  | zero => simp_all [digits?]
  | succ k ih =>
    cases b with
    | nil => simp [digits?] at h
    | cons a r =>
      simp only [digits?, Option.bind_eq_bind, Option.bind_eq_some_iff] at h
      obtain ⟨d, _, h⟩ := h
      have := ih h
      simp; omega

theorem escaped?_length {mark : UInt8} {b text rest : Bytes}
    (h : escaped? mark b = some (text, rest)) : rest.length < b.length := by
  cases b with
  | nil => simp [escaped?] at h
  | cons c r =>
    simp only [escaped?, Option.bind_eq_bind] at h
    have short {base k m n : Nat} (e : digits? base k m r = some (n, rest)) :
        rest.length < (c :: r).length := by
      have := digits?_length e
      simp; omega
    split at h
    · simp_all
    split at h
    · obtain ⟨⟨n, rest'⟩, e, h⟩ := Option.bind_eq_some_iff.mp h
      simp only [Option.some.injEq, Prod.mk.injEq] at h
      exact short (h.2 ▸ e)
    split at h
    · obtain ⟨⟨n, rest'⟩, e, h⟩ := Option.bind_eq_some_iff.mp h
      simp only [Option.ite_none_right_eq_some, Option.some.injEq, Prod.mk.injEq] at h
      exact short (h.2.2 ▸ e)
    split at h
    · obtain ⟨⟨n, rest'⟩, e, h⟩ := Option.bind_eq_some_iff.mp h
      simp only [Option.ite_none_right_eq_some, Option.some.injEq, Prod.mk.injEq] at h
      exact short (h.2.2 ▸ e)
    split at h
    · obtain ⟨⟨n, rest'⟩, e, h⟩ := Option.bind_eq_some_iff.mp h
      simp only [Option.ite_none_right_eq_some, Option.some.injEq, Prod.mk.injEq] at h
      have := digits?_length (h.2.2 ▸ e)
      omega
    split at h
    · simp_all
    · cases h

/-- A character read off a literal leaves less of it. -/
theorem literalChar?_length {mark : UInt8} {b text rest : Bytes}
    (h : literalChar? mark b = some (text, rest)) : rest.length < b.length := by
  cases b with
  | nil => simp [literalChar?] at h
  | cons c r =>
    simp only [literalChar?] at h
    split at h
    · cases h
    split at h
    · have := escaped?_length h
      simp; omega
    split at h
    · next e => cases h; exact decode?_length e
    · simp_all

/-- Reads the characters of a text literal up to its closing mark. `text` holds what was
read so far, newest first. Nothing may follow the mark. -/
def literalText? (mark : UInt8) (text : List Bytes) (b : Bytes) : Option Bytes :=
  match b with
  | [] => none
  | c :: r =>
    if c = mark then
      if r.isEmpty then some text.reverse.flatten else none
    else match _h : literalChar? mark (c :: r) with
      | none => none
      | some (t, rest) => literalText? mark (t :: text) rest
termination_by b.length
decreasing_by exact literalChar?_length _h

/-- The text that a literal stands for, its marks included. Single quotes hold at most one
character. -/
def unquote? : Bytes → Option Bytes
  | [] => none
  | mark :: r =>
    if mark = doubleQuote then literalText? mark [] r
    else if mark = singleQuote then
      if r = [mark] then some []
      else do
        let (text, rest) ← literalChar? mark r
        if r.head? ≠ some mark ∧ rest = [mark] then some text else none
    else none

end Quadlang.Text
