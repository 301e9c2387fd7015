-- The kinds of failure that a program or its run can meet. A failure of a kind ends its
-- message with the text of the kind.
import Quadlang.Bytes

namespace Quadlang

/-- A kind of failure. The first group is about the text of a program, the second about
memory, the third about a run, and the last about a value read from a line. -/
inductive Category
  | duplicateDeclaration
  | unknownType
  | undeclaredIdentifier
  | notAFunction
  | typeMismatch
  | operatorTypeMismatch
  | returnTypeMismatch
  | returnOutsideFunction
  | argumentTypeMismatch
  | argumentCountMismatch
  | dimensionCountMismatch
  | notAddressable
  | unbalanced
  | addressSpaceExhausted
  | unknownOpcode
  | stackOverflow
  | indexOutOfBounds
  | uninitialized
  | divisionByZero
  | badInput
  | frameUnderflow
  | badValue
  deriving DecidableEq, Repr

def Category.text : Category → Bytes
  | .duplicateDeclaration => ascii "duplicate declaration"
  | .unknownType => ascii "unknown type"
  | .undeclaredIdentifier => ascii "undeclared identifier"
  | .notAFunction => ascii "not a function"
  | .typeMismatch => ascii "type mismatch"
  | .operatorTypeMismatch => ascii "operator type mismatch"
  | .returnTypeMismatch => ascii "return type mismatch"
  | .returnOutsideFunction => ascii "return outside of function"
  | .argumentTypeMismatch => ascii "argument type mismatch"
  | .argumentCountMismatch => ascii "argument count mismatch"
  | .dimensionCountMismatch => ascii "dimension count mismatch"
  | .notAddressable => ascii "not addressable"
  | .unbalanced => ascii "unbalanced semantic actions"
  | .addressSpaceExhausted => ascii "address space exhausted"
  | .unknownOpcode => ascii "unknown opcode"
  | .stackOverflow => ascii "stack overflow"
  | .indexOutOfBounds => ascii "index out of bounds"
  | .uninitialized => ascii "read of uninitialized address"
  | .divisionByZero => ascii "division by zero"
  | .badInput => ascii "bad input"
  | .frameUnderflow => ascii "frame underflow"
  | .badValue => ascii "bad value"

/-- The message of a failure: what happened, then its kind if it has one. -/
def Category.describe (kind : Option Category) (detail : Bytes) : Bytes :=
  match kind with
  | some kind => Bytes.within detail kind.text
  | none => detail

end Quadlang
