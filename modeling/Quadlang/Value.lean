-- The values that a program computes with: how they are converted between numeric
-- types, written on a line and read from one.
import Quadlang.Category
import Quadlang.Decimal.Reading
import Quadlang.Decimal.Shortest
import Quadlang.Ty

namespace Quadlang

/-- A value. A memory cell may also hold nothing, or a byte that belongs to no type of
the language. -/
inductive Value
  | nothing
  | int (n : Int64)
  | float (x : Float)
  | char (c : Int32)
  | bool (b : Bool)
  | string (s : Bytes)
  | foreign (n : UInt8)
  deriving DecidableEq

namespace Value

/-- What a message calls the representation of a value. -/
def representation : Value → Bytes
  | .nothing => ascii "<nil>"
  | .int _ => ascii "int64"
  | .float _ => ascii "float64"
  | .char _ => ascii "int32"
  | .bool _ => ascii "bool"
  | .string _ => ascii "string"
  | .foreign _ => ascii "uint8"

/-- Whether two values are one constant. Positive and negative zero are, and what is no
number is not even the same as itself. -/
def same : Value → Value → Bool
  | .float x, .float y => x == y
  | v, w => v = w

/-! ## Text -/

def boolText (b : Bool) : Bytes := ascii (if b then "true" else "false")

/-- A character as bytes. A number of no character gives the replacement character. -/
def charText (c : Int32) : Bytes :=
  if 0 ≤ c ∧ Text.isScalar c.toNatClampNeg then Text.encode c.toNatClampNeg
  else Text.encode Text.replacement

/-- A value as a line of output holds it. -/
def text : Value → Bytes
  | .nothing => ascii "<nil>"
  | .int n => Bytes.ofWord n
  | .float x => Decimal.ofFloat x
  | .char c => charText c
  | .bool b => boolText b
  | .string s => s
  | .foreign _ => ascii "<?>"

/-- A value as a message names it: a character by its number. -/
def shown : Value → Bytes
  | .char c => Bytes.ofInt c.toInt
  | .foreign n => Bytes.ofNat n.toNat
  | v => v.text

/-! ## Conversion -/

/-- The floating-point number nearest to an integer, of two the even one. -/
def nearest (n : Int64) : Float := .ofModel (.ofInt n.toInt)

/-- A numeric value in the representation of a numeric type. A fraction is cut off, and
the high bits that a character has no room for are dropped. Any other value stays. -/
def convert : Ty → Value → Value
  | .int, .float x => .int x.toInt64
  | .int, .char c => .int c.toInt64
  | .float, .int n => .float (nearest n)
  | .float, .char c => .float (nearest c.toInt64)
  | .char, .int n => .char n.toInt32
  | .char, .float x => .char x.toInt32
  | _, v => v

/-! ## Reading -/

/-- Why a line cannot be read as a value of a type. -/
inductive ReadError
  | badValue (ty : Ty) (line : Bytes)
  | unreadable (ty : Ty)
  deriving DecidableEq, Repr

def ReadError.category : ReadError → Option Category
  | .badValue _ _ => some .badValue
  | .unreadable _ => none

def ReadError.detail : ReadError → Bytes
  | .badValue ty line => ty.name ++ ascii " " ++ Text.quote line
  | .unreadable ty => ascii "can't read " ++ ty.name

def ReadError.message (e : ReadError) : Bytes := Category.describe e.category e.detail

/-- Reads a line as a value. A character is the first one of the line, a truth value is
true unless the line says `false`, and a string is the whole line. -/
def read (ty : Ty) (line : Bytes) : Except ReadError Value :=
  match ty with
  | .int =>
    match Decimal.readInt line with
    | .ok n => .ok (.int n)
    | .error _ => .error (.badValue ty line)
  | .float =>
    match Decimal.readFloat line with
    | .ok x => .ok (.float x)
    | .error _ => .error (.badValue ty line)
  | .char =>
    match Text.decode? line with
    | some (n, _) => if n = Text.replacement then .error (.badValue ty line) else
      .ok (.char (.ofNat n))
    | none => .error (.badValue ty line)
  | .bool => .ok (.bool (line ≠ ascii "false"))
  | .string => .ok (.string line)
  | _ => .error (.unreadable ty)

end Value

end Quadlang
