-- The instructions of the machine, grouped by what they do, and the operators of
-- expressions among them.
import Quadlang.Bytes

namespace Quadlang

/-- The operations on numbers. The sum also joins strings. -/
inductive Arith
  | sum
  | sub
  | mult
  | div
  deriving DecidableEq, Repr

inductive Comparison
  | eq
  | neq
  | gte
  | lte
  | gt
  | lt
  deriving DecidableEq, Repr

/-- The operations on two truth values. -/
inductive Logic
  | and
  | or
  deriving DecidableEq, Repr

/-- An instruction. Any other number may stand in its place; no machine executes it. -/
inductive Opcode
  | nop
  | arith (op : Arith)
  | compare (op : Comparison)
  | logic (op : Logic)
  | not
  | neg
  | assign
  | read
  | write
  | goto
  | gotoFalse
  | era
  | param
  | gosub
  | ret
  | endFunction
  | ver
  | addDim
  | other (code : Int64)
  deriving DecidableEq, Repr

namespace Opcode

/-- All the instructions that have a name, in the order of their numbers. -/
def named : List Opcode :=
  [.nop, .arith .sum, .arith .sub, .arith .mult, .arith .div, .compare .eq, .compare .neq,
    .compare .gte, .compare .lte, .compare .gt, .compare .lt, .logic .and, .logic .or, .not, .neg,
    .assign, .read, .write, .goto, .gotoFalse, .era, .param, .gosub, .ret, .endFunction, .ver,
    .addDim]

/-- The instruction with a given number. -/
def ofCode (code : Int64) : Opcode :=
  if code < 0 then .other code else (named[code.toNatClampNeg]?).getD (.other code)

/-- How an instruction is written in listings and messages. -/
def name : Opcode → Bytes
  | .nop => ascii "NOP"
  | .arith .sum => ascii "SUM"
  | .arith .sub => ascii "SUB"
  | .arith .mult => ascii "MULT"
  | .arith .div => ascii "DIV"
  | .compare .eq => ascii "EQ"
  | .compare .neq => ascii "NEQ"
  | .compare .gte => ascii "GTE"
  | .compare .lte => ascii "LTE"
  | .compare .gt => ascii "GT"
  | .compare .lt => ascii "LT"
  | .logic .and => ascii "AND"
  | .logic .or => ascii "OR"
  | .not => ascii "NOT"
  | .neg => ascii "NEG"
  | .assign => ascii "EQUAL"
  | .read => ascii "READ"
  | .write => ascii "WRITE"
  | .goto => ascii "GOTO"
  | .gotoFalse => ascii "GOTOF"
  | .era => ascii "ERA"
  | .param => ascii "PARAM"
  | .gosub => ascii "GOSUB"
  | .ret => ascii "RETURN"
  | .endFunction => ascii "ENDFUNC"
  | .ver => ascii "VER"
  | .addDim => ascii "ADDDIM"
  | .other code => ascii "op(" ++ Bytes.ofWord code ++ ascii ")"

end Opcode

/-! ## Operators -/

/-- An operator of one operand. -/
inductive UnaryOp
  | not
  | neg
  deriving DecidableEq, Repr

/-- An operator of two operands that yields a value. -/
inductive BinaryOp
  | arith (op : Arith)
  | compare (op : Comparison)
  | logic (op : Logic)
  deriving DecidableEq, Repr

/-- An operator of expressions and assignments. -/
inductive Operator
  | unary (op : UnaryOp)
  | binary (op : BinaryOp)
  | assign
  deriving DecidableEq, Repr

def UnaryOp.opcode : UnaryOp → Opcode
  | .not => .not
  | .neg => .neg

def BinaryOp.opcode : BinaryOp → Opcode
  | .arith op => .arith op
  | .compare op => .compare op
  | .logic op => .logic op

/-- The levels of operators, the tightest one first. -/
abbrev Level := Int

namespace Level

def unary : Level := 0
def factor : Level := 1
def term : Level := 2
def compare : Level := 3
def logic : Level := 4
def assign : Level := 5

end Level

namespace Operator

def opcode : Operator → Opcode
  | .unary op => op.opcode
  | .binary op => op.opcode
  | .assign => .assign

def level : Operator → Level
  | .unary _ => Level.unary
  | .binary (.arith .mult) | .binary (.arith .div) => Level.factor
  | .binary (.arith .sum) | .binary (.arith .sub) => Level.term
  | .binary (.compare _) => Level.compare
  | .binary (.logic _) => Level.logic
  | .assign => Level.assign

/-- The operator that an instruction computes, if it computes one. -/
def ofOpcode? : Opcode → Option Operator
  | .not => some (.unary .not)
  | .neg => some (.unary .neg)
  | .arith op => some (.binary (.arith op))
  | .compare op => some (.binary (.compare op))
  | .logic op => some (.binary (.logic op))
  | .assign => some .assign
  | _ => none

/-- An operator is found from its instruction, and from no other. -/
theorem ofOpcode?_eq_some_iff {op : Opcode} {o : Operator} :
    ofOpcode? op = some o ↔ o.opcode = op := by
  constructor
  · intro h
    cases op <;> simp_all [ofOpcode?] <;> subst h <;> rfl
  · rintro rfl
    rcases o with (_ | _) | (_ | _ | _) | _ <;> rfl

end Operator

end Quadlang
