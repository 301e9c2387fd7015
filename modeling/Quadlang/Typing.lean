-- Which operators take which types, and the type of what they yield.
import Quadlang.Opcode
import Quadlang.Ty

namespace Quadlang.Typing

/-- The types of a value that counts: the numbers, and characters by their number. -/
def isNumeric : Ty → Bool
  | .int | .float | .char => true
  | _ => false

/-- Two numbers meet in a floating-point number if one of them is one, else in an integer. -/
def meet (l r : Ty) : Option Ty :=
  if isNumeric l && isNumeric r then some (if l = .float ∨ r = .float then .float else .int)
  else none

/-- The type that an operator of two operands yields. There is none if it does not take
them. -/
def binary : BinaryOp → Ty → Ty → Option Ty
  | .arith .sum, .string, .string => some .string
  | .arith _, l, r => meet l r
  | .compare .eq, .bool, .bool | .compare .neq, .bool, .bool => some .bool
  | .compare .eq, .string, .string | .compare .neq, .string, .string => some .bool
  | .compare _, l, r => (meet l r).map fun _ => .bool
  | .logic _, .bool, .bool => some .bool
  | .logic _, _, _ => none

/-- The type that an operator of one operand yields. -/
def unary : UnaryOp → Ty → Option Ty
  | .not, .bool => some .bool
  | .neg, .int => some .int
  | .neg, .float => some .float
  | _, _ => none

/-- Whether a value of a type may be assigned to a variable of a type: to one of the same
type, and from a number to a wider one. -/
def assignable : (target : Ty) → (source : Ty) → Bool
  | .int, .char => true
  | .float, .int | .float, .char => true
  | target, source => target = source && Ty.primitives.contains target

/-- Whether a type is one of the types of values. -/
def isPrimitive (t : Ty) : Bool := Ty.primitives.contains t

/-! ## The rules by instruction -/

/-- The type that an instruction yields on two typed operands: that of an operator, of the
target of an assignment, of a parameter that gets a value of its own type, or of a checked
index. -/
def binaryOf : Opcode → Ty → Ty → Option Ty
  | .arith op, l, r => binary (.arith op) l r
  | .compare op, l, r => binary (.compare op) l r
  | .logic op, l, r => binary (.logic op) l r
  | .assign, l, r => if assignable l r then some l else none
  | .param, l, r => if l = r && isPrimitive l then some l else none
  | .ver, .int, .int => some .int
  | _, _, _ => none

/-- The type that an instruction yields on one typed operand. Values of every type are
read, written and returned, and a truth value decides a jump. -/
def unaryOf : Opcode → Ty → Option Ty
  | .not, t => unary .not t
  | .neg, t => unary .neg t
  | .read, t | .write, t | .ret, t => if isPrimitive t then some t else none
  | .gotoFalse, .bool => some .bool
  | _, _ => none

end Quadlang.Typing
