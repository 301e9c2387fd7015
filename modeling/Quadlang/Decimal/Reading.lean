-- Numbers read from text. An integer is a sign and decimal digits that fit a machine
-- word. A floating-point number is decimal or hexadecimal, or the name of an infinity
-- or of no number, and is rounded to the nearest, a half to the even one.
import Quadlang.Text.Quoted

namespace Quadlang.Decimal

/-- Why a text is no number. -/
inductive NumberError
  | malformed
  | outOfRange
  deriving DecidableEq, Repr

def NumberError.message : NumberError → Bytes
  | .malformed => ascii "invalid syntax"
  | .outOfRange => ascii "value out of range"

/-! ## Integers -/

/-- Reads decimal digits behind the digits of `n`, up to sixty-four bits. -/
def readDigits (n : Nat) : Bytes → Except NumberError Nat
  | [] => .ok n
  | b :: r =>
    match Text.digit? 10 b with
    | none => .error .malformed
    | some d => if n * 10 + d < 1 <<< 64 then readDigits (n * 10 + d) r else .error .outOfRange

/-- Takes a sign off the front of a text: whether it is a minus, and the rest. -/
def takeSign : Bytes → Bool × Bytes
  | [] => (false, [])
  | b :: r =>
    if b = '-'.toUInt8 then (true, r)
    else if b = '+'.toUInt8 then (false, r)
    else (false, b :: r)

def readInt (b : Bytes) : Except NumberError Int64 := do
  let (negative, digits) := takeSign b
  if digits.isEmpty then throw .malformed
  let n ← readDigits 0 digits
  if negative then
    if n ≤ 1 <<< 63 then return Int64.ofInt (-n) else throw .outOfRange
  else
    if n < 1 <<< 63 then return Int64.ofNat n else throw .outOfRange

/-! ## Rounding -/

/-- The quotient rounded to the nearest integer, a half to the even one. -/
def roundDiv (num den : Nat) : Nat :=
  let q := num / den
  let r := num % den
  if 2 * r < den ∨ (2 * r = den ∧ q % 2 = 0) then q else q + 1

/-- The bits, without the sign, of the floating-point number nearest to `num / den`. There
are none if it is too large. -/
def nearestBits? (num den : Nat) : Option Nat :=
  if num = 0 then some 0
  else
    let e := (Nat.log2 num : Int) - Nat.log2 den - 53
    let scaled (e : Int) : Nat × Nat := (num <<< (-e).toNat, den <<< e.toNat)
    let e := if (scaled e).2 <<< 53 ≤ (scaled e).1 then e + 1 else e
    let e := max e (-1074)
    let bits := ((e + 1074).toNat <<< 52) + roundDiv (scaled e).1 (scaled e).2
    if bits < 0x7FF <<< 52 then some bits else none

/-- The number with the given sign and bits. -/
def signed (negative : Bool) (bits : Nat) : Float :=
  Float.ofBits (UInt64.ofNat (if negative then (1 <<< 63) + bits else bits))

/-! ## Floating-point numbers -/

/-- A letter in lower case, any other byte as it is. -/
def lower (b : UInt8) : UInt8 := if 65 ≤ b.toNat ∧ b.toNat ≤ 90 then b + 32 else b

/-- Whether every underscore stands between two digits, or between a base prefix and a
digit. `afterDigit` says whether the text so far ends so that an underscore may follow. -/
def separated (hex : Bool) : (afterDigit : Bool) → Bytes → Bool
  | _, [] => true
  | afterDigit, b :: r =>
    if (Text.digit? (if hex then 16 else 10) b).isSome then separated hex true r
    else if b = '_'.toUInt8 then
      match r with
      | [] => false
      | c :: _ =>
        afterDigit && (Text.digit? (if hex then 16 else 10) c).isSome && separated hex false r
    else separated hex false r

/-- The value of the digits in front of a text, their number, and the text after them.
`n` and `count` hold those already read. -/
def spanDigits (base n count : Nat) : Bytes → Nat × Nat × Bytes
  | [] => (n, count, [])
  | b :: r =>
    match Text.digit? base b with
    | some d => spanDigits base (n * base + d) (count + 1) r
    | none => (n, count, b :: r)

/-- The digits of a written exponent. Beyond four of them only their number matters, and
it stops at five. -/
def exponentDigits (n : Nat) : Bytes → Option Nat
  | [] => some n
  | b :: r =>
    match Text.digit? 10 b with
    | some d => exponentDigits (if n < 10000 then n * 10 + d else n) r
    | none => none

/-- The exponent that ends a number: a mark, a sign and at least one digit. -/
def exponent? (mark : UInt8) : Bytes → Option Int
  | [] => none
  | b :: r =>
    if lower b = mark then
      let (negative, digits) := takeSign r
      if digits.isEmpty then none
      else (exponentDigits 0 digits).map fun n => if negative then -(n : Int) else n
    else none

/-- The bits of an unsigned number in the given base. Digits may stand on both sides of
the point, and one must. A decimal number may leave out the exponent. -/
def readMagnitude (hex : Bool) (b : Bytes) : Except NumberError Nat :=
  let base := if hex then 16 else 10
  let (n, whole, rest) := spanDigits base 0 0 b
  let (n, count, rest) := match rest with
    | [] => (n, whole, [])
    | c :: r => if c = '.'.toUInt8 then spanDigits base n whole r else (n, whole, c :: r)
  let places := count - whole
  let exponent? :=
    if rest.isEmpty ∧ !hex then some 0 else exponent? (if hex then 'p' else 'e').toUInt8 rest
  match exponent? with
  | none => .error .malformed
  | some e =>
    if count = 0 then .error .malformed
    else
      let (radix, e) : Nat × Int := if hex then (2, e - 4 * places) else (10, e - places)
      match if n = 0 then some 0 else nearestBits? (n * radix.pow e.toNat)
      (radix.pow (-e).toNat) with
      | some bits => .ok bits
      | none => .error .outOfRange

/-- The named numbers, in any case: infinities, which may have a sign, and no number, which
has none. -/
def named? (b : Bytes) : Option Float :=
  let name := b.map lower
  let (negative, unsigned) := takeSign name
  if name = ascii "nan" then some (Float.ofBits 0x7FF8000000000001)
  else if unsigned = ascii "inf" ∨ unsigned = ascii "infinity" then
    some (signed negative (0x7FF <<< 52))
  else none

def readFloat (b : Bytes) : Except NumberError Float :=
  match named? b with
  | some x => .ok x
  | none =>
    let (negative, unsigned) := takeSign b
    let (hex, body) := match unsigned with
      | z :: x :: r =>
        if z = '0'.toUInt8 ∧ lower x = 'x'.toUInt8 ∧ !r.isEmpty then (true, r)
        else (false, unsigned)
      | _ => (false, unsigned)
    if separated hex hex body then
      (readMagnitude hex (body.filter (· ≠ '_'.toUInt8))).map (signed negative)
    else .error .malformed

end Quadlang.Decimal
