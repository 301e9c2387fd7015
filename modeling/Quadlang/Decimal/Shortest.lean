-- The shortest decimal text of a floating-point number: the fewest digits that read
-- back as the same number, and of those the nearest to it. All arithmetic is exact.
import Quadlang.Bytes

namespace Quadlang.Decimal

/-! ## The number as a fraction -/

/-- A finite positive number `mantissa * 2 ^ exponent`. -/
structure Binary where
  mantissa : Nat
  exponent : Int
  deriving DecidableEq, Repr

/-- The number behind sixty-three bits without the sign, if it is finite. -/
def Binary.ofBits? (bits : Nat) : Option Binary :=
  let fraction := bits % (1 <<< 52)
  match bits / (1 <<< 52) with
  | 0 => some ⟨fraction, -1074⟩
  | 0x7FF => none
  | e => some ⟨(1 <<< 52) + fraction, e - 1075⟩

/-- The numbers that read back as a given one lie between `low / scale` and
`high / scale` around `value / scale`. Both ends belong to them if `closed`. -/
structure Neighbourhood where
  low : Nat
  value : Nat
  high : Nat
  scale : Nat
  closed : Bool
  deriving DecidableEq, Repr

/-- Halfway to the next number on each side. Just above a power of two the numbers below
lie twice as dense. -/
def Binary.neighbourhood (b : Binary) : Neighbourhood :=
  let unit := 1 <<< b.exponent.toNat
  let scale := 1 <<< (-b.exponent).toNat
  let narrow := b.mantissa = 1 <<< 52 ∧ -1074 < b.exponent
  let value := 4 * b.mantissa * unit
  { low := value - (if narrow then unit else 2 * unit)
    value
    high := value + 2 * unit
    scale := 4 * scale
    closed := b.mantissa % 2 = 0 }

/-! ## The digits -/

/-- A positive decimal number `digits * 10 ^ exponent`. -/
structure Digits where
  digits : Nat
  exponent : Int
  deriving DecidableEq, Repr

/-- The power of ten of the first digit of `num / den`. -/
def magnitude (num den : Nat) : Int :=
  if den ≤ num then ((Nat.toDigits 10 (num / den)).length : Int) - 1
  else
    let shift := (Nat.toDigits 10 den).length - (Nat.toDigits 10 num).length
    if den ≤ num * Nat.pow 10 shift then -(shift : Int) else -(shift : Int) - 1

/-- The multiple of `10 ^ grid` nearest to the number among those that read back as it.
Of two that are equally near the even one is taken. -/
def Neighbourhood.onGrid? (n : Neighbourhood) (grid : Int) : Option Nat :=
  let up := Nat.pow 10 (-grid).toNat
  let cell := n.scale * Nat.pow 10 grid.toNat
  let below := n.value * up / cell
  let rest := n.value * up % cell
  let reads (k : Nat) : Bool :=
    if n.closed then n.low * up ≤ k * cell && k * cell ≤ n.high * up
    else n.low * up < k * cell && k * cell < n.high * up
  let nearBelow := if 2 * rest = cell then below % 2 = 0 else 2 * rest < cell
  match reads below && decide (0 < below), reads (below + 1) with
  | true, true => some (if nearBelow then below else below + 1)
  | true, false => some below
  | false, true => some (below + 1)
  | false, false => none

/-- Tries numbers of more and more digits, at most `tries` of them, on grids below
`grid`. Seventeen digits are always enough. -/
def Neighbourhood.search (n : Neighbourhood) : (tries : Nat) → (grid : Int) → Digits
  | 0, grid => ⟨n.value * Nat.pow 10 (-grid).toNat / (n.scale * Nat.pow 10 grid.toNat), grid⟩
  | tries + 1, grid =>
    match n.onGrid? grid with
    | some d => ⟨d, grid⟩
    | none => n.search tries (grid - 1)

/-- The fewest digits that read back as the number. -/
def Binary.shortest (b : Binary) : Digits :=
  let n := b.neighbourhood
  n.search 17 (magnitude n.value n.scale)

/-! ## The text -/

/-- Moves the zeros at the end of the digits into the exponent. `fuel` bounds their number. -/
def Digits.trim : (fuel : Nat) → Digits → Digits
  | 0, d => d
  | fuel + 1, d =>
    if d.digits ≠ 0 ∧ d.digits % 10 = 0 then trim fuel ⟨d.digits / 10, d.exponent + 1⟩ else d

/-- An exponent has a sign and at least two digits. -/
def exponentText (x : Int) : Bytes :=
  let digits := Bytes.ofNat x.natAbs
  ascii (if x < 0 then "e-" else "e+") ++ List.replicate (2 - digits.length) '0'.toUInt8 ++ digits

/-- A positive number is written positionally if its first digit stands for a power of
ten from -4 to 5, else with one digit before the point and an exponent. -/
def Digits.text (d : Digits) : Bytes :=
  let d := trim 17 d
  let digits := Bytes.ofNat d.digits
  let x := d.exponent + digits.length - 1
  let zeros (n : Nat) : Bytes := List.replicate n '0'.toUInt8
  if x < -4 ∨ 6 ≤ x then
    match digits with
    | [] => []
    | [first] => [first] ++ exponentText x
    | first :: rest => [first] ++ ascii "." ++ rest ++ exponentText x
  else if x < 0 then ascii "0." ++ zeros (-x - 1).toNat ++ digits
  else
    let whole := x.toNat + 1
    if digits.length ≤ whole then digits ++ zeros (whole - digits.length)
    else digits.take whole ++ ascii "." ++ digits.drop whole

/-- The text of a floating-point number. -/
def ofFloat (x : Float) : Bytes :=
  let bits := x.toBits.toNat
  let magnitude := bits % (1 <<< 63)
  let negative := 1 <<< 63 ≤ bits
  match Binary.ofBits? magnitude with
  | none =>
    if magnitude % (1 <<< 52) ≠ 0 then ascii "NaN"
    else ascii (if negative then "-Inf" else "+Inf")
  | some b =>
    let text := if b.mantissa = 0 then ascii "0" else b.shortest.text
    if negative then ascii "-" ++ text else text

end Quadlang.Decimal
