-- Why a semantic action cannot be performed.
import Quadlang.Memory.Allocator
import Quadlang.Opcode
import Quadlang.Quad

namespace Quadlang

/-- What addresses are asked for. A field of an instance is named by the way to it. -/
inductive Purpose
  | variable (id : Bytes)
  | function (id : Bytes)
  | field (object : Bytes) (path : List Bytes)
  | temporary
  | elementPointer
  deriving DecidableEq, Repr

/-- A message about the addresses for some purpose. -/
def Purpose.within (p : Purpose) (message : Bytes) : Bytes :=
  match p with
  | .variable id => Bytes.within (ascii "variable " ++ id) message
  | .function id => Bytes.within (ascii "function " ++ id) message
  | .field object path =>
    Bytes.within (ascii "instance " ++ object) (path.foldr Bytes.within message)
  | .temporary => Bytes.within (ascii "temporary") message
  | .elementPointer => Bytes.within (ascii "element pointer") message

/-- What a program has left open at its end. -/
inductive Leftover
  | scopes (n : Nat)
  | operators (n : Nat)
  | operands (n : Nat)
  | jumps (n : Nat)
  | referenceOrCall
  | declarations (n : Nat)
  deriving DecidableEq, Repr

def Leftover.text : Leftover → Bytes
  | .scopes n => Bytes.ofNat n ++ ascii " scopes left open"
  | .operators n => Bytes.ofNat n ++ ascii " operators left"
  | .operands n => Bytes.ofNat n ++ ascii " operands left"
  | .jumps n => Bytes.ofNat n ++ ascii " jumps left"
  | .referenceOrCall => ascii "unfinished reference or call"
  | .declarations n => Bytes.ofNat n ++ ascii " pending declarations"

/-- The cause of a failed action. -/
inductive Fault
  -- declarations
  | duplicate (id scope : Bytes)
  | unknownType (typeName id : Bytes)
  | containsItself (typeName id : Bytes)
  | classPassed (typeName id : Bytes)
  | voidVariable (id : Bytes)
  | badDimension (id : Bytes) (size : Int64)
  | tooManyElements (id : Bytes) (sizes : List Int64) (limit : Int64)
  | notArrayable (id : Bytes)
  | functionNotOutermost (id : Bytes)
  | classNotOutermost (id : Bytes)
  | paramOutsideHeader (id : Bytes)
  | noPendingDeclaration
  -- memory
  | noRoom (purpose : Purpose) (cause : AllocError)
  | noConstantRoom (cause : ConstantError)
  -- names
  | undeclared (id scope : Bytes)
  | notAFunction (id : Bytes)
  | wrongType (id typeName : Bytes) (expected : Ty)
  -- references
  | functionMember (function id : Bytes)
  | noMembers (id : Bytes)
  | noSuchMember (id object : Bytes)
  | elementMember (id : Bytes)
  | noMoreDimensions (id : Bytes) (dims : Nat)
  | wrongIndexCount (id : Bytes) (dims indices : Nat)
  | wrongIndexType (ty : Ty) (id : Bytes)
  | functionAsVariable (id : Bytes)
  | classAsVariable (id : Bytes)
  | objectAsValue (id typeName : Bytes)
  | notStored (id : Bytes)
  -- operators
  | notAnOperator (op : Opcode)
  | assignToValue
  | readToValue
  | binaryMismatch (left : Ty) (op : Opcode) (right : Ty)
  | unaryMismatch (op : Opcode) (operand : Ty)
  -- calls
  | tooManyArguments (function : Bytes) (expected : Nat)
  | tooFewArguments (function : Bytes) (expected got : Nat)
  | wrongArgument (function : Bytes) (position : Nat) (param : Bytes) (expected got : Ty)
  | voidAsValue (function : Bytes)
  | returnOutside
  | missingReturnValue (function : Bytes) (ty : Ty)
  | wrongReturnValue (function : Bytes) (ty got : Ty)
  -- order of actions
  | mainInside (scope : Bytes)
  | leaveOutermost
  | endFunctionOutside
  | noReference
  | argumentOutside
  | endCallOutside
  | noJump
  | noSuchQuad (position : Nat)
  | alreadyFilled (position : Nat) (target : Operand)
  | noOperand
  | noGroup
  | leftover (what : Leftover)
  deriving DecidableEq

namespace Fault

/-- The kind of a cause, if it has one. -/
def category : Fault → Option Category
  | .duplicate .. => some .duplicateDeclaration
  | .unknownType .. | .containsItself .. | .classPassed .. | .voidVariable _ => some .unknownType
  | .badDimension .. | .notArrayable _ | .functionNotOutermost _ | .classNotOutermost _ => none
  | .tooManyElements .. => some .addressSpaceExhausted
  | .noRoom _ cause => cause.category
  | .noConstantRoom e => e.cause.category
  | .undeclared .. | .noMembers _ | .noSuchMember .. => some .undeclaredIdentifier
  | .notAFunction _ | .functionMember .. => some .notAFunction
  | .wrongType .. | .elementMember _ | .functionAsVariable _ | .classAsVariable _
  | .objectAsValue .. | .voidAsValue _ => some .typeMismatch
  | .noMoreDimensions .. | .wrongIndexCount .. => some .dimensionCountMismatch
  | .wrongIndexType .. | .binaryMismatch .. | .unaryMismatch .. => some .operatorTypeMismatch
  | .notStored _ | .assignToValue | .readToValue => some .notAddressable
  | .notAnOperator _ => none
  | .tooManyArguments .. | .tooFewArguments .. => some .argumentCountMismatch
  | .wrongArgument .. => some .argumentTypeMismatch
  | .returnOutside => some .returnOutsideFunction
  | .missingReturnValue .. | .wrongReturnValue .. => some .returnTypeMismatch
  | .paramOutsideHeader _ | .noPendingDeclaration | .mainInside _ | .leaveOutermost
  | .endFunctionOutside | .noReference | .argumentOutside | .endCallOutside | .noJump
  | .noSuchQuad _ | .alreadyFilled .. | .noOperand | .noGroup | .leftover _ => some .unbalanced

/-- The sizes of an array in brackets. -/
def sizesText (sizes : List Int64) : Bytes :=
  ascii "[" ++ Bytes.sepBy (ascii " ") (sizes.map Bytes.ofWord) ++ ascii "]"

def message (f : Fault) : Bytes :=
  let described := Category.describe f.category
  match f with
  | .duplicate id scope => described (id ++ ascii " in " ++ scope ++ ascii " scope")
  | .unknownType typeName id => described (typeName ++ ascii " of " ++ id)
  | .containsItself typeName id =>
    described (typeName ++ ascii " of " ++ id ++ ascii ": class can't contain itself")
  | .classPassed typeName id =>
    described (typeName ++ ascii " of " ++ id ++ ascii ": class values can't be passed or returned")
  | .voidVariable id => described (ascii "void variable " ++ id)
  | .badDimension id size => Bytes.within id (ascii "bad dimension size: " ++ Bytes.ofWord size)
  | .tooManyElements id sizes limit =>
    Bytes.within id (described (ascii "dimensions " ++ sizesText sizes ++ ascii ": more than " ++
      Bytes.ofWord limit ++ ascii " elements"))
  | .notArrayable id => id ++ ascii ": only variables of primitive types can be arrays"
  | .functionNotOutermost id => ascii "function " ++ id ++
    ascii " must be declared at program level"
  | .classNotOutermost id => ascii "class " ++ id ++ ascii " must be declared at program level"
  | .paramOutsideHeader id =>
    described (ascii "param " ++ id ++ ascii " outside of function header")
  | .noPendingDeclaration => described (ascii "no pending declaration")
  | .noRoom purpose cause => purpose.within cause.message
  | .noConstantRoom e => e.message
  | .undeclared id scope => described (id ++ ascii " in " ++ scope ++ ascii " scope")
  | .notAFunction id => described id
  | .wrongType id typeName expected =>
    described (id ++ ascii " is " ++ typeName ++ ascii ", expected " ++ expected.name)
  | .functionMember function id =>
    described (function ++ ascii " is a function and has no member " ++ id)
  | .noMembers id => described (id ++ ascii " has no members")
  | .noSuchMember id object => described (id ++ ascii " not declared in " ++ object)
  | .elementMember id => described (ascii "member " ++ id ++ ascii " of array element")
  | .noMoreDimensions id dims => described (id ++ ascii " has " ++ Bytes.ofNat dims ++
    ascii " dimensions")
  | .wrongIndexCount id dims indices =>
    described (id ++ ascii " has " ++ Bytes.ofNat dims ++ ascii " dimensions, indexed with " ++
      Bytes.ofNat indices)
  | .wrongIndexType ty id => described (ty.name ++ ascii " index of " ++ id)
  | .functionAsVariable id => described (ascii "function " ++ id ++ ascii " used as a variable")
  | .classAsVariable id => described (ascii "class " ++ id ++ ascii " used as a variable")
  | .objectAsValue id typeName =>
    described (ascii "instance " ++ id ++ ascii " of " ++ typeName ++ ascii " used as a value")
  | .notStored id => described id
  | .notAnOperator op => ascii "not an expression operator: " ++ op.name
  | .assignToValue => described (ascii "assignment target")
  | .readToValue => described (ascii "read target")
  | .binaryMismatch left op right =>
    described (left.name ++ ascii " " ++ op.name ++ ascii " " ++ right.name)
  | .unaryMismatch op operand => described (op.name ++ ascii " " ++ operand.name)
  | .tooManyArguments function expected =>
    described (ascii "too many arguments to " ++ function ++ ascii ": expected " ++
    Bytes.ofNat expected)
  | .tooFewArguments function expected got =>
    described (ascii "too few arguments to " ++ function ++ ascii ": expected " ++
      Bytes.ofNat expected ++ ascii ", got " ++ Bytes.ofNat got)
  | .wrongArgument function position param expected got =>
    described (function ++ ascii " argument " ++ Bytes.ofNat position ++ ascii " (" ++ param ++
      ascii "): expected " ++ expected.name ++ ascii ", got " ++ got.name)
  | .voidAsValue function =>
    described (ascii "void function " ++ function ++ ascii " used as a value")
  | .returnOutside => described []
  | .missingReturnValue function ty => described (function ++ ascii " must return " ++ ty.name)
  | .wrongReturnValue function ty got =>
    described (function ++ ascii " must return " ++ ty.name ++ ascii ", got " ++ got.name)
  | .mainInside scope => described (ascii "main inside of " ++ scope)
  | .leaveOutermost => described (ascii "leave root scope")
  | .endFunctionOutside => described (ascii "end of function outside of function")
  | .noReference => described (ascii "no variable reference")
  | .argumentOutside => described (ascii "argument outside of call")
  | .endCallOutside => described (ascii "end of call outside of call")
  | .noJump => described (ascii "jump stack is empty")
  | .noSuchQuad position =>
    described (ascii "fill jump " ++ Bytes.ofNat position ++ ascii ": no such quad")
  | .alreadyFilled position target =>
    described (ascii "fill jump " ++ Bytes.ofNat position ++ ascii ": already filled with " ++
    target.text)
  | .noOperand => described (ascii "operand stack is empty")
  | .noGroup => described (ascii "expected group bottom on operator stack")
  | .leftover what => described what.text

end Fault

end Quadlang
