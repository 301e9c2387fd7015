-- Why an instruction cannot be executed.
import Quadlang.Quad
import Quadlang.Value

namespace Quadlang

/-- The cause of a failed instruction. -/
inductive RunFault
  | unknownOpcode
  -- values
  | wrongOperands (op : Opcode) (left right : Value)
  | wrongOperand (op : Opcode) (v : Value)
  | divisionByZero
  | notACondition (v : Value)
  -- memory
  | notLoadable (o : Operand)
  | notAnAddress (o : Operand)
  | uninitialized (a : Addr)
  | uninitializedPointer (a : Addr)
  | notAPointer (a : Addr) (v : Value)
  | outOfLayout (a : Addr)
  -- arrays
  | notAnIndex (v : Value)
  | outOfBounds (index size : Int64)
  | tooFewIndices (wanted : Int) (checked : Nat)
  -- calls
  | tooDeep (limit : Nat)
  | paramWithoutRecord
  | gosubWithoutRecord
  | returnOutside
  | noFunctionEnd (function : Addr)
  | functionEndOutside (function : Addr)
  -- input and output
  | endOfInput
  | badLine (e : Value.ReadError)
  | closedOutput
  deriving DecidableEq

namespace RunFault

/-- The kind of a cause, if it has one. -/
def category : RunFault → Option Category
  | .unknownOpcode => some .unknownOpcode
  | .divisionByZero => some .divisionByZero
  | .uninitialized _ | .uninitializedPointer _ => some .uninitialized
  | .outOfBounds .. => some .indexOutOfBounds
  | .tooDeep _ => some .stackOverflow
  | .tooFewIndices .. | .paramWithoutRecord | .gosubWithoutRecord | .returnOutside
  | .functionEndOutside _ => some .frameUnderflow
  | .endOfInput | .badLine _ => some .badInput
  | _ => none

def detail : RunFault → Bytes
  | .unknownOpcode | .divisionByZero => []
  | .wrongOperands op left right =>
    op.name ++ ascii " of " ++ left.representation ++ ascii " and " ++ right.representation
  | .wrongOperand op v => op.name ++ ascii " of " ++ v.representation
  | .notACondition v => ascii "condition is " ++ v.representation ++ ascii ", not bool"
  | .notLoadable o => ascii "can't load " ++ o.text
  | .notAnAddress o => ascii "not an address: " ++ o.text
  | .uninitialized a => ascii "address " ++ Bytes.ofWord a
  | .uninitializedPointer a => ascii "pointer: address " ++ Bytes.ofWord a
  | .notAPointer a v => ascii "pointer " ++ Bytes.ofWord a ++ ascii " holds " ++ v.representation
  | .outOfLayout a => ascii "address " ++ Bytes.ofWord a ++ ascii " is out of layout"
  | .notAnIndex v => ascii "index is " ++ v.representation ++ ascii ", not int"
  | .outOfBounds index size => ascii "index " ++ Bytes.ofWord index ++ ascii ", size " ++
    Bytes.ofWord size
  | .tooFewIndices wanted checked =>
    ascii "fold " ++ Bytes.ofInt wanted ++ ascii " dimensions of " ++ Bytes.ofNat checked
  | .tooDeep limit => ascii "depth " ++ Bytes.ofNat limit
  | .paramWithoutRecord => ascii "param without activation record"
  | .gosubWithoutRecord => ascii "gosub without activation record"
  | .returnOutside => ascii "return outside of function"
  | .noFunctionEnd function => ascii "no end of function " ++ Bytes.ofWord function
  | .functionEndOutside function => ascii "end of function " ++ Bytes.ofWord function
  | .endOfInput => ascii "read line: EOF"
  | .badLine e => e.message
  | .closedOutput => ascii "write: io: read/write on closed pipe"

def message (f : RunFault) : Bytes := Category.describe f.category f.detail

end RunFault

end Quadlang
