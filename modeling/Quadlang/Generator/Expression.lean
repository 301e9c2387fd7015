-- Expressions: constants and operators, and the statements that use a value.
import Quadlang.Generator.State
import Quadlang.Typing

namespace Quadlang.Generate

/-- Pushes an operator. An assignment needs a target. -/
def pushOperator (op : Opcode) : Generate Unit := do
  match Operator.ofOpcode? op with
  | none => fault (.notAnOperator op)
  | some op => do
    if op = .assign then
      unless (← peekOperand).addressable do fault .assignToValue
    modify fun g => { g with operators := .operator op :: g.operators }

/-- Pushes a constant in the representation of its type. -/
def pushConst (ty : Ty) (v : Value) : Generate Unit := do
  let a ← intern ty (v.convert ty)
  pushOperand { ty, operand := .cell a }

/-! ## Operators -/

def unary (op : UnaryOp) : Generate Unit := do
  let x ← popOperand
  match Typing.unary op x.ty with
  | none => fault (.unaryMismatch op.opcode x.ty)
  | some ty => do
    let result ← temporary ty
    emit { op := op.opcode, arg1 := x.operand, res := result.operand }
    pushOperand result

def binary (op : BinaryOp) : Generate Unit := do
  let r ← popOperand
  let l ← popOperand
  match Typing.binary op l.ty r.ty with
  | none => fault (.binaryMismatch l.ty op.opcode r.ty)
  | some ty => do
    let result ← temporary ty
    emit { op := op.opcode, arg1 := l.operand, arg2 := r.operand, res := result.operand }
    pushOperand result

def assign : Generate Unit := do
  let r ← popOperand
  let l ← popOperand
  unless Typing.assignable l.ty r.ty do fault (.binaryMismatch l.ty .assign r.ty)
  emit { op := .assign, arg1 := r.operand, res := l.operand }

def generate : Operator → Generate Unit
  | .unary op => unary op
  | .binary op => binary op
  | .assign => assign

/-- Generates the last operator if it is of the level that ends here. -/
def collapse (level : Level) : Generate Unit := do
  match (← get).operators with
  | .operator op :: rest =>
    if op.level = level then
      modify fun g => { g with operators := rest }
      generate op
  | _ => return

/-! ## Statements -/

/-- Takes the last operand for an instruction that uses one. -/
def popFor (op : Opcode) : Generate TypedOperand := do
  let x ← popOperand
  match Typing.unaryOf op x.ty with
  | none => fault (.unaryMismatch op x.ty)
  | some _ => return x

/-- Writes the last operand. -/
def write : Generate Unit := do
  let x ← popFor .write
  emit { op := .write, res := x.operand }

/-- Reads into the last operand. -/
def read : Generate Unit := do
  let x ← popFor .read
  unless x.addressable do fault .readToValue
  emit { op := .read, res := x.operand }

end Quadlang.Generate
