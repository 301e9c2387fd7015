-- Semantic actions: what the text of a program asks the code generator to do, in the
-- order of the text.
import Quadlang.Opcode
import Quadlang.Value

namespace Quadlang

/-- How an identifier is declared: as a function, as a parameter, with its scope entered
if it has one, or as an array with the given sizes, the outermost dimension first. -/
structure DeclOptions where
  isFunction : Bool := false
  isParam : Bool := false
  enter : Bool := false
  dims : List Int64 := []
  deriving DecidableEq, Repr

/-- A semantic action. -/
inductive Action
  /-- Names the program and jumps to its main body. -/
  | start (name : Bytes)
  /-- Begins the main body. -/
  | main
  /-- Ends the program. -/
  | finish
  /-- Goes back to the enclosing scope. -/
  | leaveScope
  /-- Looks up an identifier, of a type unless that is invalid. -/
  | resolve (id : Bytes) (expected : Ty) (expectFunction : Bool)
  /-- Declares an identifier of the named type. -/
  | declare (id typeName : Bytes) (options : DeclOptions)
  /-- Ends the body of a function. -/
  | endFunction
  /-- Declares a class and enters its body. -/
  | declareClass (id : Bytes)
  /-- Puts an identifier aside until its type is complete. -/
  | pushPending (id : Bytes)
  /-- Adds a dimension to the last identifier put aside. -/
  | addDim (size : Int64)
  /-- Declares the identifiers put aside. -/
  | declarePending (typeName : Bytes)
  /-- Pushes an operator. -/
  | pushOperator (op : Opcode)
  /-- Pushes a constant. -/
  | pushConst (ty : Ty) (v : Value)
  /-- Opens a parenthesis. -/
  | openGroup
  /-- Closes a parenthesis. -/
  | closeGroup
  /-- Generates the last operator if it is of the level that ends here. -/
  | collapse (level : Level)
  /-- Writes the last operand. -/
  | write
  /-- Reads into the last operand. -/
  | read
  /-- Ends the condition of an `if`. -/
  | ifCond
  /-- Begins the other branch of an `if`. -/
  | orElse
  /-- Ends an `if`. -/
  | endIf
  /-- Begins a loop. -/
  | whileStart
  /-- Ends the condition of a loop. -/
  | whileCond
  /-- Ends a loop. -/
  | whileEnd
  /-- Fills in the target of the last open jump. -/
  | fillJump (usePop : Bool)
  /-- Begins a reference to a variable. -/
  | var (name : Bytes)
  /-- Goes on to a field of an instance. -/
  | member (name : Bytes)
  /-- Begins an index. -/
  | indexStart
  /-- Ends an index. -/
  | indexEnd
  /-- Ends a reference. -/
  | varEnd
  /-- Begins a call. -/
  | callStart (name : Bytes)
  /-- Passes the last operand as the next argument. -/
  | argument
  /-- Ends a call. -/
  | callEnd (discard : Bool)
  /-- Returns from a function, with the last operand if there is a value. -/
  | ret (hasValue : Bool)
  deriving DecidableEq

def Action.declareFunction (id typeName : Bytes) : Action :=
  .declare id typeName { isFunction := true, enter := true }

def Action.declareParam (id typeName : Bytes) : Action := .declare id typeName { isParam := true }

/-- An action, and the line of the text that asks for it. -/
structure Event where
  line : Nat
  action : Action
  deriving DecidableEq

end Quadlang
