-- What the operators do to values when a program runs. An integer or a character counts
-- as an integer; with a floating-point number among them both operands are taken as such.
import Quadlang.Machine.Fault

namespace Quadlang.Value

/-- The integer that a value counts as. -/
def toInt? : Value → Option Int64
  | .int n => some n
  | .char c => some c.toInt64
  | _ => none

/-- The floating-point number that a value counts as. -/
def toFloat? : Value → Option Float
  | .int n => some (nearest n)
  | .char c => some (nearest c.toInt64)
  | .float x => some x
  | _ => none

/-! ## Numbers -/

/-- Integer arithmetic in machine words. A quotient is cut off towards zero. -/
def arithInt : Arith → Int64 → Int64 → Except RunFault Int64
  | .sum, l, r => .ok (l + r)
  | .sub, l, r => .ok (l - r)
  | .mult, l, r => .ok (l * r)
  | .div, l, r => if r = 0 then .error .divisionByZero else .ok (l / r)

def arithFloat : Arith → Float → Float → Except RunFault Float
  | .sum, l, r => .ok (l + r)
  | .sub, l, r => .ok (l - r)
  | .mult, l, r => .ok (l * r)
  | .div, l, r => if r == 0 then .error .divisionByZero else .ok (l / r)

/-- Arithmetic on values. A sum of strings joins them. -/
def arith (op : Arith) (l r : Value) : Except RunFault Value :=
  match op, l, r with
  | .sum, .string s, .string t => .ok (.string (s ++ t))
  | _, _, _ =>
    match l.toInt?, r.toInt? with
    | some m, some n => (arithInt op m n).map .int
    | _, _ =>
      match l.toFloat?, r.toFloat? with
      | some x, some y => (arithFloat op x y).map .float
      | _, _ => .error (.wrongOperands (.arith op) l r)

/-! ## Comparisons -/

/-- Whether a comparison holds of two values in the given order. -/
def holds : Comparison → Ordering → Bool
  | .eq, o => o = .eq
  | .neq, o => o ≠ .eq
  | .lt, o => o = .lt
  | .lte, o => o ≠ .gt
  | .gt, o => o = .gt
  | .gte, o => o ≠ .lt

/-- The order of two floating-point numbers. What is no number counts as equal to
everything. -/
def floatOrder (x y : Float) : Ordering := if x < y then .lt else if y < x then .gt else .eq

/-- The order of two values for a comparison. Truth values are equal or not, and strings
are ordered byte by byte. -/
def order? (op : Comparison) (l r : Value) : Option Ordering :=
  match l, r with
  | .string s, .string t => some (compareOfLessAndEq s t)
  | .bool a, .bool b =>
    if op = .eq ∨ op = .neq then some (if a = b then .eq else .gt) else none
  | _, _ =>
    match l.toInt?, r.toInt? with
    | some m, some n => some (compareOfLessAndEq m n)
    | _, _ =>
      match l.toFloat?, r.toFloat? with
      | some x, some y => some (floatOrder x y)
      | _, _ => none

def compare (op : Comparison) (l r : Value) : Except RunFault Bool :=
  match order? op l r with
  | some o => .ok (holds op o)
  | none => .error (.wrongOperands (.compare op) l r)

/-! ## Truth values -/

/-- Conjunction and disjunction. Both operands are known by now. -/
def logic (op : Logic) (l r : Value) : Except RunFault Bool :=
  match l, r with
  | .bool a, .bool b =>
    match op with
    | .and => .ok (a && b)
    | .or => .ok (a || b)
  | _, _ => .error (.wrongOperands (.logic op) l r)

/-! ## Operators -/

/-- What an operator of two operands yields. -/
def binary : BinaryOp → Value → Value → Except RunFault Value
  | .arith op, l, r => arith op l r
  | .compare op, l, r => (compare op l r).map .bool
  | .logic op, l, r => (logic op l r).map .bool

/-- What an operator of one operand yields. -/
def unary (op : UnaryOp) (v : Value) : Except RunFault Value :=
  match op, v with
  | .not, .bool b => .ok (.bool !b)
  | .neg, .int n => .ok (.int (-n))
  | .neg, .float x => .ok (.float (-x))
  | _, _ => .error (.wrongOperand op.opcode v)

end Quadlang.Value
